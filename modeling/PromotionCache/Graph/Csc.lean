import PromotionCache.Graph.Csr
import PromotionCache.Lib.CountingSort

/-!
# From rows to columns

`convert_csr_to_csc` of `graph.h`, a counting sort of the edges by their targets, over arrays as they are in memory.
It returns `none` at a failing assertion and where an array is left. The slice of a vertex is the sources of its edges
in the order of the vertices, and two conversions give back the targets, up to order (`convertCsrToCsc_spec`).
-/

namespace PromotionCache.Graph
open Lib

/-- The arrays of `csr_graph` and of `csc_graph`; what is past their ends is not read. -/
structure Arrays where
  nodes : ℕ
  edges : ℕ
  nodeArray : ℕ → ℕ
  edgeArray : ℕ → ℕ

namespace Arrays

/-- `node_array` goes up from 0 to `edges`, and `edge_array` holds vertices. -/
structure WellFormed (A : Arrays) : Prop where
  first : A.nodeArray 0 = 0
  last : A.nodeArray A.nodes = A.edges
  mono : ∀ n < A.nodes, A.nodeArray n ≤ A.nodeArray (n + 1)
  ids : ∀ e < A.edges, A.edgeArray e < A.nodes

/-- The indices of the edges of a vertex. -/
def indices (A : Arrays) (n : ℕ) : List ℕ := List.range' (A.nodeArray n) (A.nodeArray (n + 1) - A.nodeArray n)

/-- What `edge_array` holds for a vertex. -/
def slice (A : Arrays) (n : ℕ) : List ℕ := (A.indices n).map A.edgeArray

/-- The edges of some vertices, as pairs of source and target. -/
def pairsOf (A : Arrays) (ns : List ℕ) : List (ℕ × ℕ) := ns.flatMap fun n => (A.slice n).map (Prod.mk n)

/-- All edges. -/
def pairs (A : Arrays) : List (ℕ × ℕ) := A.pairsOf (List.range A.nodes)

end Arrays

/-- `(unsigned long)-1` -/
def unsetEdge : ℕ := 2 ^ 64 - 1

section
variable (A : Arrays)

/-- The body of the loop that counts the incoming edges; an edge that is past the end of `edge_array` is not read,
    whether or not the assertion lets it pass. -/
def countIncoming (incoming : ℕ → ℕ) (e : ℕ) : Option (ℕ → ℕ) :=
  if A.edges ≤ e then none
  else if A.nodes ≤ A.edgeArray e then none
  else some (Function.update incoming (A.edgeArray e) (incoming (A.edgeArray e) + 1))

/-- `count incoming edges`, for a vertex -/
def countVertex (incoming : ℕ → ℕ) (n : ℕ) : Option (ℕ → ℕ) :=
  if A.nodeArray (n + 1) < A.nodeArray n then none else (A.indices n).foldlM (countIncoming A) incoming

/-- `prefix sum` -/
def sumUp (incoming : ℕ → ℕ) : ℕ → ℕ :=
  (List.range' 1 (A.nodes - 1)).foldl (fun s n => Function.update s n (s n + s (n - 1))) incoming

/-- `ret.edge_array[base_index + base_offset] = n`, and one more for the target. -/
def placeEdge (nodeArray : ℕ → ℕ) (n : ℕ) (s : Slots ℕ) (e : ℕ) : Option (Slots ℕ) :=
  if A.edges ≤ nodeArray (A.edgeArray e) + s.offsets (A.edgeArray e) then none
  else some (s.put nodeArray (n, A.edgeArray e))

/-- `convert_csr_to_csc`; the first vertex is `ret.nodes - 1` behind the last one, so there is one. -/
def convertCsrToCsc : Option Arrays := do
  let incoming ← (List.range A.nodes).foldlM (countVertex A) fun _ => 0
  let incoming := sumUp A incoming
  if A.nodes = 0 ∨ incoming (A.nodes - 1) ≠ A.edges then none
  else do
    let nodeArray : ℕ → ℕ := fun n => if n = 0 then 0 else incoming (n - 1)
    let s ← (List.range A.nodes).foldlM (fun s n => (A.indices n).foldlM (placeEdge A nodeArray n) s)
      ⟨fun _ => unsetEdge, fun _ => 0⟩
    if ∀ e < A.edges, s.array e ≠ unsetEdge then
      some
        { nodes := A.nodes
          edges := A.edges
          nodeArray
          edgeArray := s.array }
    else none

end

variable {A B : Arrays} {incoming : ℕ → ℕ} {es ns : List ℕ} {e n v : ℕ}

namespace Arrays

/-- The offsets stay within the edges. -/
lemma WellFormed.nodeArray_le (wf : A.WellFormed) (le : n ≤ A.nodes) : A.nodeArray n ≤ A.edges := by
  obtain ⟨d, e⟩ := Nat.exists_eq_add_of_le le
  rw [← wf.last, e]
  clear le
  induction d generalizing n with
  | zero => exact Nat.le_refl _
  | succ d ih =>
    have next := ih (n := n + 1) (by omega)
    rw [Nat.add_assoc, Nat.add_comm 1] at next
    exact (wf.mono n (by omega)).trans next

/-- The edges of a vertex are edges. -/
lemma WellFormed.lt_of_mem_indices (wf : A.WellFormed) (lt : n < A.nodes) (mem : e ∈ A.indices n) : e < A.edges := by
  have le : A.nodeArray (n + 1) ≤ A.edges := wf.nodeArray_le lt
  rw [indices, List.mem_range'_1] at mem
  omega

/-- The length of a slice is the difference of two offsets. -/
lemma length_slice : (A.slice n).length = A.nodeArray (n + 1) - A.nodeArray n := by
  rw [slice, List.length_map, indices, List.length_range']

/-- The targets are vertices. -/
lemma WellFormed.target_lt (wf : A.WellFormed) (lt : n < A.nodes) (mem : v ∈ A.slice n) : v < A.nodes := by
  obtain ⟨e, he, rfl⟩ := List.mem_map.mp mem
  exact wf.ids e (wf.lt_of_mem_indices lt he)

/-- An edge of some vertices is in the slice of its source. -/
lemma mem_pairsOf {p : ℕ × ℕ} : p ∈ A.pairsOf ns ↔ p.1 ∈ ns ∧ p.2 ∈ A.slice p.1 := by
  obtain ⟨u, w⟩ := p
  rw [pairsOf, List.mem_flatMap]
  constructor
  · rintro ⟨n, mem, h⟩
    obtain ⟨w', hw, e⟩ := List.mem_map.mp h
    obtain ⟨rfl, rfl⟩ := Prod.mk.inj e
    exact ⟨mem, hw⟩
  · rintro ⟨mem, hw⟩
    exact ⟨u, mem, List.mem_map.mpr ⟨w, hw, rfl⟩⟩

/-- So is every edge. -/
lemma mem_pairs {p : ℕ × ℕ} : p ∈ A.pairs ↔ p.1 < A.nodes ∧ p.2 ∈ A.slice p.1 := by
  rw [pairs, mem_pairsOf, List.mem_range]

/-- The edges of one more vertex. -/
lemma pairsOf_cons : A.pairsOf (n :: ns) = (A.slice n).map (Prod.mk n) ++ A.pairsOf ns := rfl

/-- Every edge is one of some vertex. -/
lemma WellFormed.length_pairs (wf : A.WellFormed) : A.pairs.length = A.edges := by
  have upTo : ∀ n ≤ A.nodes, (A.pairsOf (List.range n)).length = A.nodeArray n := by
    intro n
    induction n with
    | zero => exact fun _ => wf.first.symm
    | succ n ih =>
      intro le
      have step := wf.mono n le
      rw [List.range_succ, pairsOf, List.flatMap_append, List.flatMap_singleton, List.length_append, ← pairsOf,
        ih (Nat.le_of_succ_le le), List.length_map, length_slice]
      omega
  rw [pairs, upTo _ (Nat.le_refl _), wf.last]

/-- The sources of the pairs go up. -/
lemma pairs_sorted : (A.pairs.map Prod.fst).Pairwise (· ≤ ·) := by
  have upTo : ∀ n, ((A.pairsOf (List.range n)).map Prod.fst).Pairwise (· ≤ ·) := by
    intro n
    induction n with
    | zero => exact List.Pairwise.nil
    | succ n ih =>
      rw [List.range_succ, pairsOf, List.flatMap_append, List.flatMap_singleton, List.map_append, ← pairsOf,
        List.pairwise_append]
      have own : ∀ u ∈ ((A.slice n).map (Prod.mk n)).map Prod.fst, u = n := by
        intro u mem
        obtain ⟨p, hp, rfl⟩ := List.mem_map.mp mem
        obtain ⟨_, _, rfl⟩ := List.mem_map.mp hp
        rfl
      refine ⟨ih, List.pairwise_of_forall_mem_list fun u hu w hw => ?_, fun u hu w hw => ?_⟩
      · rw [own u hu, own w hw]
      · obtain ⟨p, hp, rfl⟩ := List.mem_map.mp hu
        have lt := List.mem_range.mp (mem_pairsOf.mp hp).1
        rw [own w hw]
        exact lt.le
  exact upTo _

/-- How often an edge occurs. -/
lemma count_pairs (u v : ℕ) : A.pairs.count (u, v) = if u < A.nodes then (A.slice u).count v else 0 := by
  have own : ∀ n, ((A.slice n).map (Prod.mk n)).count (u, v) = if u = n then (A.slice n).count v else 0 := by
    intro n
    induction A.slice n with
    | nil => simp
    | cons w ws ih =>
      rw [List.map_cons, List.count_cons, ih, List.count_cons]
      by_cases same : u = n
      · subst same
        simp
      · have ne : ((n, w) == (u, v)) = false := by
          rw [beq_eq_false_iff_ne]
          exact fun e => same (Prod.mk.inj e).1.symm
        rw [if_neg same, ne, if_neg same]
        rfl
  have upTo : ∀ n, (A.pairsOf (List.range n)).count (u, v) = if u < n then (A.slice u).count v else 0 := by
    intro n
    induction n with
    | zero => rfl
    | succ n ih =>
      rw [List.range_succ, pairsOf, List.flatMap_append, List.flatMap_singleton, List.count_append, ← pairsOf, ih, own]
      rcases Nat.lt_trichotomy u n with lt | rfl | gt
      · rw [if_pos lt, if_neg lt.ne, if_pos (Nat.lt_succ_of_lt lt), Nat.add_zero]
      · rw [if_neg (Nat.lt_irrefl u), if_pos rfl, if_pos (Nat.lt_succ_self u), Nat.zero_add]
      · rw [if_neg (Nat.not_lt_of_gt gt), if_neg gt.ne', if_neg (by omega)]
  exact upTo _

end Arrays

/-- The length of a bucket counts the edges to its vertex. -/
lemma length_bucket_map (ts : List ℕ) : (bucket (ts.map (Prod.mk n)) v).length = ts.count v := by
  rw [bucket, List.length_map, List.filter_map, List.length_map, List.count_eq_length_filter]
  exact congrArg _ (List.filter_congr fun t _ => rfl)

/-- The first loop counts the incoming edges. -/
lemma foldlM_countIncoming (inside : ∀ e ∈ es, e < A.edges) (ids : ∀ e < A.edges, A.edgeArray e < A.nodes) :
    es.foldlM (countIncoming A) incoming = some fun v => incoming v + (es.map A.edgeArray).count v := by
  induction es generalizing incoming with
  | nil => rfl
  | cons e es ih =>
    have lt := inside e List.mem_cons_self
    rw [List.foldlM_cons, countIncoming, if_neg (Nat.not_le_of_lt lt), if_neg (Nat.not_le_of_lt (ids e lt))]
    refine (ih fun e mem => inside e (List.mem_cons_of_mem _ mem)).trans (congrArg some (funext fun v => ?_))
    rw [List.map_cons, List.count_cons]
    by_cases own : v = A.edgeArray e
    · subst own
      rw [Function.update_self, if_pos (beq_self_eq_true _)]
      omega
    · rw [Function.update_of_ne own, if_neg (by simpa using Ne.symm own), Nat.add_zero]

/-- The counters hold the numbers of the incoming edges. -/
lemma foldlM_countVertex (wf : A.WellFormed) (incoming : ℕ → ℕ) (lt : ∀ n ∈ ns, n < A.nodes) :
    ns.foldlM (countVertex A) incoming = some fun v => incoming v + (bucket (A.pairsOf ns) v).length := by
  induction ns generalizing incoming with
  | nil => rfl
  | cons n ns ih =>
    have own := lt n List.mem_cons_self
    rw [List.foldlM_cons, countVertex, if_neg (Nat.not_lt_of_le (wf.mono n own)),
      foldlM_countIncoming (fun e mem => wf.lt_of_mem_indices own mem) wf.ids]
    refine (ih _ fun m mem => lt m (List.mem_cons_of_mem _ mem)).trans (congrArg some (funext fun v => ?_))
    rw [Arrays.pairsOf_cons, bucket_append, List.length_append, length_bucket_map, Arrays.slice, Nat.add_assoc]

/-- After the prefix sum, the counter of a vertex is the end of its slots. -/
lemma sumUp_eq {ps : List (ℕ × ℕ)} (counts : ∀ v, incoming v = (bucket ps v).length) (lt : v < A.nodes) :
    sumUp A incoming v = base ps (v + 1) := by
  have upTo : ∀ k, ∀ v, (List.range' 1 k).foldl (fun s n => Function.update s n (s n + s (n - 1))) incoming v =
      if v ≤ k then base ps (v + 1) else (bucket ps v).length := by
    intro k
    induction k with
    | zero =>
      intro v
      rcases Nat.eq_zero_or_pos v with rfl | pos
      · rw [if_pos (Nat.le_refl 0), base_succ, base_zero, Nat.zero_add]
        exact counts 0
      · rw [if_neg (by omega)]
        exact counts v
    | succ k ih =>
      intro v
      rw [List.range'_1_concat, List.foldl_append, List.foldl_cons, List.foldl_nil, Nat.add_comm 1 k]
      by_cases own : v = k + 1
      · subst own
        rw [Function.update_self, ih, ih, if_neg (by omega), if_pos (by omega), if_pos (Nat.le_refl _),
          Nat.add_sub_cancel, base_succ (v := k + 1), Nat.add_comm]
      · rw [Function.update_of_ne own, ih]
        exact if_congr (by omega) rfl rfl
  rw [sumUp, upTo, if_pos (by omega)]

/-- The edges of a vertex go into the slots of their targets. -/
lemma foldlM_placeEdge {ps done rest : List (ℕ × ℕ)} {s : Slots ℕ} {nodeArray : ℕ → ℕ}
    (starts : ∀ v < A.nodes, nodeArray v = base ps v) (keys : ∀ p ∈ ps, p.2 < A.nodes) (total : ps.length = A.edges)
    (all : ps = done ++ ((es.map A.edgeArray).map (Prod.mk n) ++ rest)) (h : Placed ps done unsetEdge s) :
    ∃ t, es.foldlM (placeEdge A nodeArray n) s = some t ∧
      Placed ps (done ++ (es.map A.edgeArray).map (Prod.mk n)) unsetEdge t := by
  induction es generalizing done s with
  | nil =>
    refine ⟨s, rfl, ?_⟩
    rwa [List.map_nil, List.map_nil, List.append_nil]
  | cons e es ih =>
    rw [List.map_cons, List.map_cons, List.cons_append] at all
    have key : A.edgeArray e < A.nodes := keys (n, A.edgeArray e) (by rw [all]; simp)
    have room := h.lt all
    have inside : base ps (A.edgeArray e + 1) ≤ base ps A.nodes := base_le key
    rw [base_eq_length keys, total, base_succ] at inside
    have put : s.put nodeArray (n, A.edgeArray e) = s.put (base ps) (n, A.edgeArray e) := by
      rw [Slots.put, Slots.put, starts _ key]
    have next := h.put all
    rw [List.append_cons] at all
    obtain ⟨t, run, h'⟩ := ih all next
    refine ⟨t, ?_, ?_⟩
    · rw [List.foldlM_cons, placeEdge, starts _ key, if_neg (by dsimp only at room; omega), put]
      exact run
    · rwa [List.map_cons, List.map_cons, List.append_cons]

/-- The last loop puts every edge into the slice of its target. -/
lemma foldlM_place {ps done : List (ℕ × ℕ)} {s : Slots ℕ} {nodeArray : ℕ → ℕ}
    (starts : ∀ v < A.nodes, nodeArray v = base ps v) (keys : ∀ p ∈ ps, p.2 < A.nodes) (total : ps.length = A.edges)
    (all : ps = done ++ A.pairsOf ns) (h : Placed ps done unsetEdge s) :
    ∃ t, ns.foldlM (fun s n => (A.indices n).foldlM (placeEdge A nodeArray n) s) s = some t ∧
      Placed ps ps unsetEdge t := by
  induction ns generalizing done s with
  | nil =>
    refine ⟨s, rfl, ?_⟩
    have whole : ps = done := by rw [all, Arrays.pairsOf, List.flatMap_nil, List.append_nil]
    rw [← whole] at h
    exact h
  | cons n ns ih =>
    rw [Arrays.pairsOf_cons] at all
    obtain ⟨t, run, h'⟩ := foldlM_placeEdge starts keys total all h
    rw [← List.append_assoc] at all
    obtain ⟨u, rest, h''⟩ := ih all h'
    exact ⟨u, by rw [List.foldlM_cons, run]; exact rest, h''⟩

section
variable {ps : List (ℕ × ℕ)} {s : Slots ℕ} {nodeArray : ℕ → ℕ} (starts : ∀ v ≤ A.nodes, nodeArray v = base ps v)
include starts

/-- Arrays whose slots begin where smaller keys end are those of a graph. -/
lemma wellFormed_of_starts (keys : ∀ p ∈ ps, p.2 < A.nodes) (total : ps.length = A.edges)
    (ids : ∀ e < A.edges, s.array e < A.nodes) : Arrays.WellFormed ⟨A.nodes, A.edges, nodeArray, s.array⟩ where
  first := starts 0 (Nat.zero_le _)
  last := by
    show nodeArray A.nodes = A.edges
    rw [starts _ (Nat.le_refl _), base_eq_length keys, total]
  mono n lt := by
    show nodeArray n ≤ nodeArray (n + 1)
    rw [starts _ (Nat.le_of_lt lt), starts _ lt]
    exact base_le (Nat.le_succ n)
  ids := ids

/-- The slice of a vertex is its bucket. -/
lemma slice_of_starts {unset v : ℕ} (placed : Placed ps ps unset s) (lt : v < A.nodes) :
    (⟨A.nodes, A.edges, nodeArray, s.array⟩ : Arrays).slice v = bucket ps v := by
  have len : nodeArray (v + 1) - nodeArray v = (bucket ps v).length := by
    rw [starts _ (Nat.le_of_lt lt), starts _ lt, base_succ, Nat.add_sub_cancel_left]
  rw [Arrays.slice, Arrays.indices, ← placed.slice v, ← len, ← starts _ (Nat.le_of_lt lt)]

end

/-- The slices of the result are the sources of the edges into each vertex. -/
theorem exists_convert (wf : A.WellFormed) (pos : 1 ≤ A.nodes) (fits : A.nodes < 2 ^ 64) :
    ∃ B, convertCsrToCsc A = some B ∧ B.WellFormed ∧ B.nodes = A.nodes ∧
      ∀ v < A.nodes, B.slice v = bucket A.pairs v := by
  have keys : ∀ p ∈ A.pairs, p.2 < A.nodes := by
    intro p mem
    obtain ⟨lt, target⟩ := Arrays.mem_pairs.mp mem
    exact wf.target_lt lt target
  have total := wf.length_pairs
  have count := foldlM_countVertex wf (fun _ => 0) fun n mem => List.mem_range.mp mem
  set incoming : ℕ → ℕ := fun v => 0 + (bucket (A.pairsOf (List.range A.nodes)) v).length with counts
  have sums : ∀ v < A.nodes, sumUp A incoming v = base A.pairs (v + 1) := fun v lt =>
    sumUp_eq (fun v => Nat.zero_add _) lt
  have last : sumUp A incoming (A.nodes - 1) = A.edges := by
    rw [sums _ (by omega), Nat.sub_add_cancel pos, base_eq_length keys, total]
  set nodeArray : ℕ → ℕ := fun n => if n = 0 then 0 else sumUp A incoming (n - 1) with array
  have starts : ∀ v ≤ A.nodes, nodeArray v = base A.pairs v := by
    intro v le
    rw [array]
    cases v with
    | zero => rfl
    | succ v => exact sums v le
  obtain ⟨s, run, placed⟩ := foldlM_place (fun v lt => starts v lt.le) keys total (List.nil_append _).symm
    Placed.start
  have ids : ∀ e < A.edges, s.array e < A.nodes := by
    intro e lt
    rw [← total, ← base_eq_length keys] at lt
    obtain ⟨_, _, mem⟩ := placed.mem_array lt
    exact (Arrays.mem_pairs.mp mem).1
  have set : ∀ e < A.edges, s.array e ≠ unsetEdge := by
    intro e lt
    have bound := ids e lt
    rw [unsetEdge]
    omega
  refine ⟨⟨A.nodes, A.edges, nodeArray, s.array⟩, ?_, wellFormed_of_starts starts keys total ids, rfl,
    fun v lt => slice_of_starts starts placed lt⟩
  rw [convertCsrToCsc, count]
  simp only [Option.bind_eq_bind, Option.bind_some]
  rw [if_neg, run, Option.bind_some, if_pos set]
  rw [not_or, not_not]
  exact ⟨Nat.ne_of_gt pos, last⟩

/-- No assertion fails. The slice of a vertex is the sources of the edges into it, in ascending order, and converting
    the result gives back the targets of each vertex, up to order. -/
theorem convertCsrToCsc_spec (A : Arrays) (wf : A.WellFormed) (pos : 1 ≤ A.nodes) (fits : A.nodes < 2 ^ 64) :
    ∃ B, convertCsrToCsc A = some B ∧ B.WellFormed ∧ B.nodes = A.nodes ∧
      (∀ v < A.nodes, B.slice v = (A.pairs.filter (·.2 = v)).map Prod.fst ∧ (B.slice v).Pairwise (· ≤ ·)) ∧
      ∃ C, convertCsrToCsc B = some C ∧ C.nodes = A.nodes ∧ ∀ v < A.nodes, (C.slice v).Perm (A.slice v) := by
  obtain ⟨B, run, wfB, nodes, slices⟩ := exists_convert wf pos fits
  obtain ⟨C, run', wfC, nodes', slices'⟩ := exists_convert wfB (by rwa [nodes]) (by rwa [nodes])
  refine ⟨B, run, wfB, nodes, fun v lt => ⟨slices v lt, ?_⟩, C, run', nodes'.trans nodes, fun v lt => ?_⟩
  · rw [slices v lt]
    exact bucket_pairwise Arrays.pairs_sorted
  · rw [List.perm_iff_count]
    intro u
    rw [slices' v (by rwa [nodes]), count_bucket, Arrays.count_pairs, nodes]
    split
    case isTrue source => rw [slices u source, count_bucket, Arrays.count_pairs, if_pos lt]
    case isFalse other =>
      refine (List.count_eq_zero.mpr fun mem => other ?_).symm
      exact wf.target_lt lt mem

/-- The arrays of a graph. -/
def CsrGraph.toArrays (G : CsrGraph) : Arrays where
  nodes := G.nodes
  edges := G.edges
  nodeArray i := if h : i < G.nodes + 1 then G.nodeArray ⟨i, h⟩ else 0
  edgeArray e := if h : e < G.edges then (G.edgeArray ⟨e, h⟩).val else 0

/-- The arrays of a graph are well formed. -/
lemma CsrGraph.wellFormed (G : CsrGraph) : G.toArrays.WellFormed where
  first := by
    show (if h : 0 < G.nodes + 1 then G.nodeArray ⟨0, h⟩ else 0) = 0
    rw [dif_pos (Nat.succ_pos _)]
    exact G.first
  last := by
    show (if h : G.nodes < G.nodes + 1 then G.nodeArray ⟨G.nodes, h⟩ else 0) = G.edges
    rw [dif_pos (Nat.lt_succ_self _)]
    exact G.last
  mono n lt := by
    have here : n < G.nodes + 1 := Nat.lt_succ_of_lt lt
    have next : n + 1 < G.nodes + 1 := Nat.succ_lt_succ lt
    show (if h : n < G.nodes + 1 then G.nodeArray ⟨n, h⟩ else 0) ≤
      if h : n + 1 < G.nodes + 1 then G.nodeArray ⟨n + 1, h⟩ else 0
    rw [dif_pos here, dif_pos next]
    exact G.mono (Nat.le_succ n)
  ids e lt := by
    show (if h : e < G.edges then (G.edgeArray ⟨e, h⟩).val else 0) < G.nodes
    have inside : e < G.edges := lt
    rw [dif_pos inside]
    exact (G.edgeArray _).isLt

/-- The sample, there and back. -/
theorem convertCsrToCsc_spec_sample :
    ∃ B, convertCsrToCsc CsrGraph.sample.toArrays = some B ∧ B.WellFormed ∧ B.nodes = 3 ∧
      (∀ v < 3, B.slice v = (CsrGraph.sample.toArrays.pairs.filter (·.2 = v)).map Prod.fst ∧
        (B.slice v).Pairwise (· ≤ ·)) ∧
      ∃ C, convertCsrToCsc B = some C ∧ C.nodes = 3 ∧
        ∀ v < 3, (C.slice v).Perm (CsrGraph.sample.toArrays.slice v) :=
  convertCsrToCsc_spec CsrGraph.sample.toArrays CsrGraph.sample.wellFormed (by decide) (by decide)

end PromotionCache.Graph
