import PromotionCache.Graph.EdgeListSpec

/-!
# What reading an edge list writes

The indices at which `parse_csr_graph` writes its arrays. Its loops compare counters of type `unsigned long` for
equality and count upwards, so they end for every source, but on the way to a smaller one they go over every index.
The writes are inside the arrays if and only if there is a vertex and the sources ascend below the number of vertices
(`safe_iff`).
-/

namespace PromotionCache.Graph.EdgelistToBinary
open Lib

/-- The distance to the next source goes down, even around the end of the words. -/
lemma sub_add_one_lt {node first : UInt64} (ne : node ≠ first) :
    (first - (node + 1)).toNat < (first - node).toNat := by
  have other : node.toNat ≠ first.toNat := fun same => ne (UInt64.toNat_inj.mp same)
  have small := node.toNat_lt
  have small' := first.toNat_lt
  rw [UInt64.toNat_sub, UInt64.toNat_sub, UInt64.toNat_add, UInt64.toNat_one]
  omega

/-- The indices that `while (node != first) { node++; node_array[node] = i; }` writes. -/
def advanceWrites (node first : UInt64) : List UInt64 :=
  if node = first then [] else (node + 1) :: advanceWrites (node + 1) first
termination_by (first - node).toNat
decreasing_by exact sub_add_one_lt ‹_›

/-- The variables of `parse_csr_graph` that say where it writes, with the indices that are written. -/
structure Writer where
  node : UInt64
  nodeArray : List UInt64
  edgeArrays : List ℕ
  file : List Char

/-- The loop over the edges. -/
def writeEdge (s : Writer) (i : ℕ) : Option Writer := do
  let (first, file) ← extractUlong s.file
  let (_, file) ← extractUlong file
  let (_, file) ← extractFloat file
  some
    { node := UInt64.ofNat first
      nodeArray := s.nodeArray ++ advanceWrites s.node (UInt64.ofNat first)
      edgeArrays := s.edgeArrays ++ [i]
      file }

/-- `parse_csr_graph` -/
def writes (file : List Char) : Option Writer := do
  let (_, file) ← extractChar file
  let (edges, file) ← extractUlong file
  let (nodes, file) ← extractUlong file
  let s ← (List.range edges).foldlM writeEdge ⟨0, [0], [], file⟩
  let last := UInt64.ofNat nodes - 1
  some { s with node := last, nodeArray := s.nodeArray ++ advanceWrites s.node last ++ [UInt64.ofNat nodes] }

/-- Reading comes to its end, and no write is outside the arrays. -/
def Safe (nodes edges : ℕ) (file : List Char) : Prop :=
  ∃ s, writes file = some s ∧ (∀ i ∈ s.nodeArray, i.toNat ≤ nodes) ∧ ∀ i ∈ s.edgeArrays, i < edges

section
variable {nodes k : ℕ} {a : Line} {as : List Line} {s : Writer} {cs : List Char} {node first i : UInt64}

/-- The loop goes upwards, around the end of the numbers if it has to. -/
lemma mem_advanceWrites :
    i ∈ advanceWrites node first ↔
      if node.toNat ≤ first.toNat then node.toNat < i.toNat ∧ i.toNat ≤ first.toNat
      else node.toNat < i.toNat ∨ i.toNat ≤ first.toNat := by
  fun_induction advanceWrites node first with
  | case1 =>
    rw [if_pos (Nat.le_refl _)]
    refine iff_of_false List.not_mem_nil ?_
    omega
  | case2 node ne ih =>
    have other : node.toNat ≠ first.toNat := fun same => ne (UInt64.toNat_inj.mp same)
    have next : (node + 1).toNat = (node.toNat + 1) % 2 ^ 64 := UInt64.toNat_add node 1
    have here : i = node + 1 ↔ i.toNat = (node.toNat + 1) % 2 ^ 64 := by
      rw [← next, UInt64.toNat_inj]
    have small := node.toNat_lt
    have small' := first.toNat_lt
    have small'' := i.toNat_lt
    rw [List.mem_cons, ih, here, next]
    split <;> split <;> omega

/-- It stays inside the array if and only if it need not go around. -/
lemma advanceWrites_inside {node first : ℕ} (le : node ≤ nodes) (small : nodes + 1 < 2 ^ 64) (fit : first < 2 ^ 64) :
    (∀ i ∈ advanceWrites (UInt64.ofNat node) (UInt64.ofNat first), i.toNat ≤ nodes) ↔
      node ≤ first ∧ first ≤ nodes := by
  have low : node < 2 ^ 64 := by omega
  have start : (UInt64.ofNat node).toNat = node := UInt64.toNat_ofNat_of_lt' low
  have stop : (UInt64.ofNat first).toNat = first := UInt64.toNat_ofNat_of_lt' fit
  constructor
  · intro inside
    by_contra outside
    -- the last index, or the one behind the end of the array
    rcases Nat.lt_or_ge first node with down | up
    · have behind : (UInt64.ofNat (nodes + 1)).toNat = nodes + 1 := UInt64.toNat_ofNat_of_lt' small
      have mem : UInt64.ofNat (nodes + 1) ∈ advanceWrites (UInt64.ofNat node) (UInt64.ofNat first) := by
        rw [mem_advanceWrites, start, stop, behind, if_neg (Nat.not_le_of_lt down)]
        omega
      have := inside _ mem
      omega
    · have mem : UInt64.ofNat first ∈ advanceWrites (UInt64.ofNat node) (UInt64.ofNat first) := by
        rw [mem_advanceWrites, start, stop, if_pos up]
        omega
      have := inside _ mem
      omega
  · rintro ⟨up, high⟩ i mem
    rw [mem_advanceWrites, start, stop, if_pos up] at mem
    exact mem.2.trans high

/-- The writes of loops to one number after the other. -/
def pathWrites (node : ℕ) : List ℕ → List UInt64
  | [] => []
  | first :: rest => advanceWrites (UInt64.ofNat node) (UInt64.ofNat first) ++ pathWrites first rest

/-- The writes for one more line. -/
lemma pathWrites_concat {node last : ℕ} {firsts : List ℕ} :
    pathWrites node (firsts ++ [last]) =
      pathWrites node firsts ++ advanceWrites (UInt64.ofNat (firsts.getLastD node)) (UInt64.ofNat last) := by
  induction firsts generalizing node with
  | nil => simp [pathWrites]
  | cons first firsts ih => rw [List.cons_append, pathWrites, ih, pathWrites, List.append_assoc, List.getLastD_cons]

/-- The writes stay inside if and only if the sources go up and are vertices. -/
lemma pathWrites_inside {node : ℕ} {firsts : List ℕ} (le : node ≤ nodes) (small : nodes + 1 < 2 ^ 64)
    (fit : ∀ first ∈ firsts, first < 2 ^ 64) :
    (∀ i ∈ pathWrites node firsts, i.toNat ≤ nodes) ↔
      (node :: firsts).Pairwise (· ≤ ·) ∧ ∀ first ∈ firsts, first ≤ nodes := by
  induction firsts generalizing node with
  | nil => simp [pathWrites]
  | cons first firsts ih =>
    rw [List.forall_mem_cons] at fit
    rw [pathWrites, List.forall_mem_append, advanceWrites_inside le small fit.1, List.forall_mem_cons]
    constructor
    · rintro ⟨⟨up, high⟩, rest⟩
      obtain ⟨sorted, inside⟩ := (ih high fit.2).mp rest
      refine ⟨List.pairwise_cons.mpr ⟨?_, sorted⟩, high, inside⟩
      rw [List.forall_mem_cons]
      exact ⟨up, fun later mem => up.trans ((List.pairwise_cons.mp sorted).1 later mem)⟩
    · rintro ⟨sorted, high, inside⟩
      obtain ⟨least, sorted⟩ := List.pairwise_cons.mp sorted
      exact ⟨⟨least first List.mem_cons_self, high⟩, (ih high fit.2).mpr ⟨sorted, inside⟩⟩

/-- A line is read and its writes are made. -/
lemma writeEdge_line (h : IsLines (a :: as) s.file) (k : ℕ) :
    ∃ t, writeEdge s k = some t ∧ IsLines as t.file ∧ t.node = UInt64.ofNat a.source ∧
      t.nodeArray = s.nodeArray ++ advanceWrites s.node (UInt64.ofNat a.source) ∧
      t.edgeArrays = s.edgeArrays ++ [k] := by
  obtain ⟨first, second, rest, source, target, weight, lines⟩ := h.read
  refine ⟨⟨UInt64.ofNat a.source, s.nodeArray ++ advanceWrites s.node (UInt64.ofNat a.source), s.edgeArrays ++ [k],
    rest⟩, ?_, lines, rfl, rfl, rfl⟩
  rw [writeEdge, source]
  simp only [Option.bind_eq_bind, Option.bind_some, target, weight]

/-- So are all lines. -/
lemma foldlM_writeEdge {node : ℕ} (lines : IsLines as s.file) (start : s.node = UInt64.ofNat node) :
    ∃ t, (List.range' k as.length).foldlM writeEdge s = some t ∧
      t.node = UInt64.ofNat ((as.map Line.source).getLastD node) ∧
      t.nodeArray = s.nodeArray ++ pathWrites node (as.map Line.source) ∧
      t.edgeArrays = s.edgeArrays ++ List.range' k as.length := by
  induction as generalizing s k node with
  | nil => exact ⟨s, rfl, start, (List.append_nil _).symm, (List.append_nil _).symm⟩
  | cons a as ih =>
    obtain ⟨u, step, lines, here, nodes, edges⟩ := writeEdge_line lines k
    obtain ⟨t, run, last, nodeArray, edgeArrays⟩ := ih (k := k + 1) lines here
    refine ⟨t, ?_, ?_, ?_, ?_⟩
    · rw [List.length_cons, List.range'_succ, List.foldlM_cons, step]
      exact run
    · rw [last, List.map_cons, List.getLastD_cons]
    · rw [nodeArray, nodes, start, List.map_cons, pathWrites, List.append_assoc]
    · rw [edgeArrays, edges, List.append_assoc, List.length_cons, List.range'_succ]
      rfl

/-- `ret.nodes - 1` -/
def lastNode (nodes : ℕ) : ℕ := (nodes + (2 ^ 64 - 1)) % 2 ^ 64

/-- The last vertex, as a word. -/
lemma ofNat_sub_one (nodes : ℕ) : UInt64.ofNat nodes - 1 = UInt64.ofNat (lastNode nodes) := by
  rw [← UInt64.toNat_inj, UInt64.toNat_sub, UInt64.toNat_ofNat', UInt64.toNat_ofNat', UInt64.toNat_one, lastNode]
  omega

/-- An edge list is read to its end, and these are the writes. -/
lemma exists_writes (h : IsEdgeList nodes as cs) :
    nodes < 2 ^ 64 ∧ (∀ a ∈ as, a.source < 2 ^ 64) ∧ ∃ s, writes cs = some s ∧
      s.nodeArray = 0 :: (pathWrites 0 (as.map Line.source ++ [lastNode nodes]) ++ [UInt64.ofNat nodes]) ∧
      s.edgeArrays = List.range as.length := by
  obtain ⟨fit, comment, first, second, body, char, edges, vertices, lines⟩ := h.header
  obtain ⟨t, run, last, nodeArray, edgeArrays⟩ := foldlM_writeEdge (k := 0) (s := ⟨0, [0], [], body⟩) lines rfl
  rw [← List.range_eq_range'] at run edgeArrays
  refine ⟨fit, fun a mem => (lines.fits a mem).1, { t with
    node := UInt64.ofNat nodes - 1
    nodeArray := t.nodeArray ++ advanceWrites t.node (UInt64.ofNat nodes - 1) ++ [UInt64.ofNat nodes] }, ?_, ?_,
    edgeArrays⟩
  · rw [writes, char]
    simp only [Option.bind_eq_bind, Option.bind_some, edges, vertices, run]
  · rw [nodeArray, last, ofNat_sub_one, pathWrites_concat]
    simp only [List.cons_append, List.nil_append, List.append_assoc]

/-- The vertices that the loops go to, in ascending order up to the last one. -/
lemma path_ascends_iff {sources : List ℕ} (fit : nodes < 2 ^ 64) :
    ((0 :: (sources ++ [lastNode nodes])).Pairwise (· ≤ ·) ∧ ∀ first ∈ sources ++ [lastNode nodes], first ≤ nodes) ↔
      1 ≤ nodes ∧ sources.Pairwise (· ≤ ·) ∧ ∀ first ∈ sources, first < nodes := by
  rw [List.pairwise_cons, List.pairwise_append]
  constructor
  · rintro ⟨⟨_, sorted, _, below⟩, all⟩
    have inside := all _ (List.mem_append_right _ (List.mem_singleton.mpr rfl))
    unfold lastNode at inside below
    refine ⟨by omega, sorted, fun first mem => ?_⟩
    have := below first mem _ (List.mem_singleton.mpr rfl)
    omega
  · rintro ⟨pos, sorted, inside⟩
    have last : lastNode nodes = nodes - 1 := by
      unfold lastNode
      omega
    rw [last]
    refine ⟨⟨fun _ _ => Nat.zero_le _, sorted, List.pairwise_singleton _ _, fun first mem b hb => ?_⟩, fun b hb => ?_⟩
    · rw [List.mem_singleton.mp hb]
      exact Nat.le_sub_one_of_lt (inside first mem)
    · rcases List.mem_append.mp hb with mem | mem
      · exact (inside b mem).le
      · rw [List.mem_singleton.mp mem]
        exact Nat.sub_le nodes 1

/-- All edges have their elements in the other arrays. -/
lemma safe_iff_inside (h : writes cs = some s) (edges : s.edgeArrays = List.range as.length) :
    Safe nodes as.length cs ↔ ∀ i ∈ s.nodeArray, i.toNat ≤ nodes := by
  constructor
  · rintro ⟨t, run, inside, _⟩
    obtain rfl := Option.some.inj (h.symm.trans run)
    exact inside
  · exact fun inside => ⟨s, h, inside, fun i mem => List.mem_range.mp (edges ▸ mem)⟩

/-- When the writes stay inside, for all but the greatest number of vertices. -/
lemma safe_iff_of_lt (h : IsEdgeList nodes as cs) (small : nodes + 1 < 2 ^ 64) :
    Safe nodes as.length cs ↔
      1 ≤ nodes ∧ (as.Pairwise fun a b => a.source ≤ b.source) ∧ ∀ a ∈ as, a.source < nodes := by
  obtain ⟨fit, sources, s, run, nodeArray, edgeArrays⟩ := exists_writes h
  have path : ∀ first ∈ as.map Line.source ++ [lastNode nodes], first < 2 ^ 64 := by
    rw [List.forall_mem_append, List.forall_mem_map, List.forall_mem_singleton]
    exact ⟨sources, Nat.mod_lt _ (by decide)⟩
  have last : (UInt64.ofNat nodes).toNat = nodes := UInt64.toNat_ofNat_of_lt' fit
  have zero : (0 : UInt64).toNat ≤ nodes := Nat.zero_le nodes
  rw [safe_iff_inside run edgeArrays, nodeArray, List.forall_mem_cons, List.forall_mem_append,
    List.forall_mem_singleton, last, and_iff_right zero, and_iff_left (Nat.le_refl nodes),
    pathWrites_inside (Nat.zero_le nodes) small path, path_ascends_iff fit, List.pairwise_map, List.forall_mem_map]

/-- With the greatest number of vertices, every write is inside. -/
lemma safe_of_eq (h : IsEdgeList nodes as cs) (all : nodes + 1 = 2 ^ 64) : Safe nodes as.length cs := by
  obtain ⟨_, _, s, run, _, edgeArrays⟩ := exists_writes h
  rw [safe_iff_inside run edgeArrays]
  intro i _
  have := i.toNat_lt
  omega

/-- Where the sizes of the arrays fit in 64 bits, reading is safe if and only if it gives a graph. -/
theorem parseCsrGraph_isSome_iff_safe (h : IsEdgeList nodes as cs)
    (room : 8 * (nodes + 1) < 2 ^ 64 ∧ 8 * as.length < 2 ^ 64) :
    (parseCsrGraph cs).isSome ↔ Safe nodes as.length cs := by
  rw [parseCsrGraph_isSome_iff h room, safe_iff_of_lt h (by omega)]

/-- Reading an edge list is safe if and only if there is a vertex and the sources ascend below the number of vertices,
    but for so many vertices that every `unsigned long` is an index. -/
theorem safe_iff (nodes : ℕ) (as : List Line) (file : List Char) (h : IsEdgeList nodes as file) :
    Safe nodes as.length file ↔ nodes + 1 = 2 ^ 64 ∨
      (1 ≤ nodes ∧ (as.Pairwise fun a b => a.source ≤ b.source) ∧ ∀ a ∈ as, a.source < nodes) := by
  have fit := (exists_writes h).1
  rcases Nat.eq_or_lt_of_le (Nat.succ_le_of_lt fit) with all | small
  · exact iff_of_true (safe_of_eq h all) (.inl all)
  · rw [safe_iff_of_lt h small]
    exact (or_iff_right small.ne).symm

/-- The lines with gaps. -/
theorem safe_iff_gaps :
    Safe 6 gapLines.length gaps ↔ 6 + 1 = 2 ^ 64 ∨
      (1 ≤ 6 ∧ (gapLines.Pairwise fun a b => a.source ≤ b.source) ∧ ∀ a ∈ gapLines, a.source < 6) :=
  safe_iff 6 gapLines gaps isEdgeList_gaps

/-- The source of the second line comes before that of the first one. -/
def backwards : List Char := "c 2 2\n1 0 1\n0 1 1\n".toList

/-- A line with a smaller source than the one before. -/
def backwardsLines : List Line := [⟨1, 0, 1⟩, ⟨0, 1, 1⟩]

/-- They are what the text holds. -/
lemma isEdgeList_backwards : IsEdgeList 2 backwardsLines backwards := by
  have one : IsFloat 1 ([' '] ++ ['1']) := by
    have decimal : IsDecimal (1 : ℕ) ['1'] := isDecimal_of_isNumeral (isNumeral_of (by decide))
    rw [Nat.cast_one] at decimal
    exact .intro (blank_singleton rfl) decimal (float_fits (by norm_num))
  have stop : IsLines [] ['\n'] := .nil (.cons rfl)
  have last : IsLines [⟨0, 1, 1⟩] _ :=
    .cons (isUlong_of ['\n'] ['0'] (by decide)) (isUlong_of [' '] ['1'] (by decide)) one stop
  have lines : IsLines backwardsLines _ :=
    .cons (isUlong_of ['\n'] ['1'] (by decide)) (isUlong_of [' '] ['0'] (by decide)) one last
  have edges : IsNumeral backwardsLines.length ['2'] := isNumeral_of (by decide)
  exact .intro [] 'c' [' '] (List.forall_mem_nil _) rfl (List.forall_mem_singleton.mpr rfl) edges (by decide)
    (isUlong_of [' '] ['2'] (by decide)) lines

/-- On the way to it `node_array` is left. -/
theorem backwards_not_safe : IsEdgeList 2 backwardsLines backwards ∧ ¬ Safe 2 backwardsLines.length backwards := by
  refine ⟨isEdgeList_backwards, fun safe => ?_⟩
  have sorted := ((safe_iff_of_lt isEdgeList_backwards (by decide)).mp safe).2.1
  exact absurd sorted (by decide)

end

end PromotionCache.Graph.EdgelistToBinary
