import PromotionCache.Graph.EdgeList
import PromotionCache.Lib.Ascending

/-!
# Reading edge lists

The grammar of edge lists: a header with a character and the numbers of edges and vertices, and lines with a source,
a target and a weight, between white space. Where there is a vertex and the sources ascend below the number of
vertices, `parse_csr_graph` reads the lines as a CSR graph (`parseCsrGraph_isCsrOf`); elsewhere it does not come to
its end (`parseCsrGraph_isSome_iff`).
-/

namespace PromotionCache.Graph.EdgelistToBinary
open Lib

/-- What a line says. -/
structure Line where
  source : ℕ
  target : ℕ
  weight : ℚ

/-- White space between two numbers. -/
structure Blank (cs : List Char) : Prop where
  nonempty : cs ≠ []
  spaces : ∀ c ∈ cs, isSpace c = true

/-- A number after white space, in an `unsigned long`. -/
inductive IsUlong : ℕ → List Char → Prop
  | intro {n b ds} : Blank b → IsNumeral n ds → n < 2 ^ 64 → IsUlong n (b ++ ds)

/-- A number after white space, in a `float`. -/
inductive IsFloat : ℚ → List Char → Prop
  | intro {q b ds} : Blank b → IsDecimal q ds → |flSigned 24 q| < 2 ^ 128 → IsFloat q (b ++ ds)

/-- The lines, with nothing or white space at their end. -/
inductive IsLines : List Line → List Char → Prop
  | nil {rest} : Ends rest → IsLines [] rest
  | cons {a as first second third rest} : IsUlong a.source first → IsUlong a.target second → IsFloat a.weight third →
      IsLines as rest → IsLines (a :: as) (first ++ (second ++ (third ++ rest)))

/-- An edge list with so many vertices and these lines. -/
inductive IsEdgeList : ℕ → List Line → List Char → Prop
  | intro {nodes as ds second body} (b : List Char) (comment : Char) (b' : List Char) : (∀ c ∈ b, isSpace c = true) →
      isSpace comment = false → (∀ c ∈ b', isSpace c = true) → IsNumeral as.length ds → as.length < 2 ^ 64 →
      IsUlong nodes second → IsLines as body → IsEdgeList nodes as (b ++ comment :: (b' ++ (ds ++ (second ++ body))))

section
variable {nodes i n k : ℕ} {q : ℚ} {a : Line} {as : List Line} {s t : Reader} {cs rest : List Char}

/-- A number ends at white space. -/
lemma Blank.ends (h : Blank cs) : Ends (cs ++ rest) := by
  obtain ⟨c, b, rfl⟩ := List.exists_cons_of_ne_nil h.nonempty
  exact .cons (h.spaces c List.mem_cons_self)

/-- A number ends where another one starts behind white space. -/
lemma IsUlong.ends (h : IsUlong n cs) : Ends (cs ++ rest) := by
  cases h with
  | intro blank _ _ =>
    rw [List.append_assoc]
    exact blank.ends

/-- The numbers of the format are words. -/
lemma IsUlong.lt (h : IsUlong n cs) : n < 2 ^ 64 := by
  cases h with
  | intro _ _ lt => exact lt

/-- A number ends where a weight starts. -/
lemma IsFloat.ends (h : IsFloat q cs) : Ends (cs ++ rest) := by
  cases h with
  | intro blank _ _ =>
    rw [List.append_assoc]
    exact blank.ends

/-- A number ends where the lines start. -/
lemma IsLines.ends (h : IsLines as cs) : Ends cs := by
  cases h with
  | nil ends => exact ends
  | cons first _ _ _ => exact first.ends

/-- `>>` reads a number of the format up to its end. -/
lemma extractUlong_eq (h : IsUlong n cs) (ends : Ends rest) : extractUlong (cs ++ rest) = some (n, rest) := by
  cases h with
  | @intro b ds blank numeral lt =>
    rw [List.append_assoc]
    exact extractUlong_numeral b numeral lt blank.spaces ends.stops_digit

/-- `>>` reads a weight of the format up to its end, and rounds it. -/
lemma extractFloat_eq (h : IsFloat q cs) (ends : Ends rest) :
    extractFloat (cs ++ rest) = some (flSigned 24 q, rest) := by
  cases h with
  | @intro b ds blank decimal fits =>
    rw [List.append_assoc, extractFloat, extractDecimal_eq b decimal blank.spaces ends]
    exact if_pos fits

/-- The three numbers of a line are read. -/
lemma IsLines.read (h : IsLines (a :: as) cs) : ∃ first second rest, extractUlong cs = some (a.source, first) ∧
    extractUlong first = some (a.target, second) ∧ extractFloat second = some (flSigned 24 a.weight, rest) ∧
      IsLines as rest := by
  cases h with
  | cons source target weight lines =>
    exact ⟨_, _, _, extractUlong_eq source target.ends, extractUlong_eq target weight.ends,
      extractFloat_eq weight lines.ends, lines⟩

/-- What a line makes of the variables, once its source is found. -/
def afterLine (s : Reader) (a : Line) (rest : List Char) (found : ℕ × List UInt64) : Reader where
  node := found.1
  nodeArray := found.2
  edgeArray := s.edgeArray ++ [UInt64.ofNat a.target]
  edgeValues := s.edgeValues ++ [toInt (flSigned 24 a.weight)]
  file := rest

/-- A line is read, if its source is found. -/
lemma readEdge_line (nodes : ℕ) (h : IsLines (a :: as) s.file) (i : ℕ) :
    ∃ rest, IsLines as rest ∧
      readEdge nodes s i = (advance nodes i a.source s.node s.nodeArray).map (afterLine s a rest) := by
  obtain ⟨first, second, rest, source, target, weight, lines⟩ := h.read
  refine ⟨rest, lines, ?_⟩
  rw [readEdge, source]
  simp only [Option.bind_eq_bind, Option.bind_some, target, weight]
  cases advance nodes i a.source s.node s.nodeArray <;> rfl

/-- The loop fills the offsets up to the next source. -/
lemma advance_eq {i first node : ℕ} {nodeArray : List UInt64} (le : node ≤ first) (inside : first ≤ nodes) :
    advance nodes i first node nodeArray =
      some (first, nodeArray ++ List.replicate (first - node) (UInt64.ofNat i)) := by
  obtain ⟨d, rfl⟩ := Nat.exists_eq_add_of_le le
  rw [Nat.add_sub_cancel_left]
  induction d generalizing node nodeArray with
  | zero => rw [Nat.add_zero, advance, if_pos rfl, List.replicate_zero, List.append_nil]
  | succ d ih =>
    have assoc : node + (d + 1) = node + 1 + d := by omega
    rw [advance, if_neg (by omega), if_neg (by omega), assoc, ih (Nat.le_add_right _ _) (by omega),
      List.replicate_succ, List.append_assoc]
    rfl

/-- A source that is found does not come before, and not behind the end of `node_array`. -/
lemma of_advance_eq_some {i first node : ℕ} {nodeArray : List UInt64} {found : ℕ × List UInt64} (le : node ≤ nodes)
    (h : advance nodes i first node nodeArray = some found) : node ≤ first ∧ first ≤ nodes ∧ found.1 = first := by
  fun_induction advance nodes i first node nodeArray with
  | case1 nodeArray =>
    obtain rfl := Option.some.inj h
    exact ⟨Nat.le_refl _, le, rfl⟩
  | case2 => cases h
  | case3 node nodeArray other more ih =>
    obtain ⟨low, high, same⟩ := ih (Nat.lt_of_not_le more) h
    exact ⟨Nat.le_of_succ_le low, high, same⟩

/-- So many lines are read. -/
structure ReadUpTo (as : List Line) (k : ℕ) (s : Reader) : Prop where
  before : ∀ a ∈ as.take k, a.source ≤ s.node
  after : ∀ a ∈ as.drop k, s.node ≤ a.source
  nodeArray : s.nodeArray =
    (List.range (s.node + 1)).map fun v => UInt64.ofNat ((as.take k).countP (·.source < v))
  edgeArray : s.edgeArray = (as.take k).map fun a => UInt64.ofNat a.target
  edgeValues : s.edgeValues = (as.take k).map fun a => toInt (flSigned 24 a.weight)
  file : IsLines (as.drop k) s.file

/-- The entries of `node_array` up to a vertex count the edges whose source comes before. -/
lemma counts_append {node first : ℕ} (le : node ≤ first) (before : ∀ a ∈ as, a.source ≤ node) :
    ((List.range (node + 1)).map fun v => UInt64.ofNat (as.countP (·.source < v))) ++
        List.replicate (first - node) (UInt64.ofNat as.length) =
      (List.range (first + 1)).map fun v => UInt64.ofNat (as.countP (·.source < v)) := by
  obtain ⟨d, rfl⟩ := Nat.exists_eq_add_of_le le
  have split : node + d + 1 = node + 1 + d := by omega
  rw [Nat.add_sub_cancel_left, split, List.range_add (n := node + 1), List.map_append, List.map_map]
  refine congrArg _ ?_
  rw [eq_comm, List.eq_replicate_iff]
  refine ⟨by simp, ?_⟩
  intro x mem
  obtain ⟨j, _, rfl⟩ := List.mem_map.mp mem
  have all : as.countP (·.source < node + 1 + j) = as.length := by
    rw [List.countP_eq_length]
    intro a mem
    have := before a mem
    rw [decide_eq_true_eq]
    omega
  show UInt64.ofNat (as.countP (·.source < node + 1 + j)) = _
  rw [all]

/-- One more line is read, if its source is not below those before. -/
lemma ReadUpTo.step (h : ReadUpTo as k s) (lt : k < as.length) (sorted : as.Pairwise fun a b => a.source ≤ b.source)
    (inside : ∀ a ∈ as, a.source < nodes) :
    ∃ t, readEdge nodes s k = some t ∧ ReadUpTo as (k + 1) t ∧ t.node < nodes := by
  have here : as.drop k = as[k] :: as.drop (k + 1) := List.drop_eq_getElem_cons lt
  have past : as.take (k + 1) = as.take k ++ [as[k]] := (List.take_append_getElem lt).symm
  have source := inside as[k] (List.getElem_mem lt)
  have file := h.file
  have after := h.after
  rw [here] at file
  rw [here, List.forall_mem_cons] at after
  have len : (as.take k).length = k := List.length_take_of_le lt.le
  obtain ⟨rest, lines, read⟩ := readEdge_line nodes file k
  rw [advance_eq after.1 source.le] at read
  refine ⟨_, read, ?_, source⟩
  constructor
  · rw [past]
    intro a mem
    rcases List.mem_append.mp mem with mem | mem
    · exact Nat.le_trans (h.before a mem) after.1
    · rw [List.mem_singleton.mp mem]
      exact Nat.le_refl _
  · intro a mem
    have split : as.take (k + 1) ++ as.drop (k + 1) = as := List.take_append_drop _ _
    rw [← split, past] at sorted
    have last : as[k] ∈ as.take k ++ [as[k]] := List.mem_append_right _ (List.mem_singleton.mpr rfl)
    exact (List.pairwise_append.mp sorted).2.2 _ last a mem
  · have counts := counts_append after.1 h.before
    rw [len, ← h.nodeArray] at counts
    refine counts.trans ?_
    rw [past]
    refine List.map_congr_left fun v mem => ?_
    have le : v < as[k].source + 1 := List.mem_range.mp mem
    rw [List.countP_append, List.countP_singleton, if_neg, Nat.add_zero]
    rw [decide_eq_true_eq]
    omega
  · rw [past, List.map_append, ← h.edgeArray]
    rfl
  · rw [past, List.map_append, ← h.edgeValues]
    rfl
  · exact lines

/-- The whole file is read. -/
lemma exists_readUpTo (lines : IsLines as cs) (sorted : as.Pairwise fun a b => a.source ≤ b.source) (pos : 1 ≤ nodes)
    (inside : ∀ a ∈ as, a.source < nodes) (le : k ≤ as.length) :
    ∃ s, (List.range k).foldlM (readEdge nodes) ⟨0, [0], [], [], cs⟩ = some s ∧ ReadUpTo as k s ∧ s.node < nodes := by
  induction k with
  | zero => exact ⟨_, rfl, ⟨by simp, by simp, rfl, rfl, rfl, lines⟩, pos⟩
  | succ k ih =>
    obtain ⟨s, run, h, _⟩ := ih (Nat.le_of_succ_le le)
    obtain ⟨t, step, h', lt⟩ := h.step le sorted inside
    refine ⟨t, ?_, h', lt⟩
    rw [List.range_succ, List.foldlM_append, run]
    exact congrArg (Option.bind · some) step |>.trans rfl

/-- The graph that is read. -/
def csrOf (nodes : ℕ) (as : List Line) : Csr Int32 where
  nodes
  edges := as.length
  nodeArray := (List.range (nodes + 1)).map fun v => UInt64.ofNat (as.countP (·.source < v))
  edgeArray := as.map fun a => UInt64.ofNat a.target
  edgeValues := as.map fun a => toInt (flSigned 24 a.weight)

/-- Behind the last line, the offsets of the remaining vertices are filled. -/
lemma ReadUpTo.finish (h : ReadUpTo as as.length s) (inside : ∀ a ∈ as, a.source < nodes) (lt : s.node < nodes)
    (fit : nodes < 2 ^ 64) : finish nodes as.length s = some (csrOf nodes as) := by
  have last : (nodes + (2 ^ 64 - 1)) % 2 ^ 64 = nodes - 1 := by omega
  have before := h.before
  have nodeArray := h.nodeArray
  have edgeArray := h.edgeArray
  have edgeValues := h.edgeValues
  rw [List.take_length] at before nodeArray edgeArray edgeValues
  have counts := counts_append (show s.node ≤ nodes - 1 by omega) before
  have rest : ∀ a ∈ as, a.source ≤ nodes - 1 := fun a mem => Nat.le_sub_one_of_lt (inside a mem)
  have all := counts_append (Nat.sub_le nodes 1) rest
  have one : nodes - (nodes - 1) = 1 := by omega
  rw [one, List.replicate_one] at all
  rw [EdgelistToBinary.finish, last, advance_eq (by omega) (by omega), nodeArray, counts]
  exact congrArg some (Csr.ext rfl rfl all edgeArray edgeValues)

/-- The header is read. -/
lemma IsEdgeList.header (h : IsEdgeList nodes as cs) :
    nodes < 2 ^ 64 ∧ ∃ comment first second body, extractChar cs = some (comment, first) ∧
      extractUlong first = some (as.length, second) ∧ extractUlong second = some (nodes, body) ∧ IsLines as body := by
  cases h with
  | @intro ds second body b comment b' skip visible skip' numeral lt vertices lines =>
    have char : extractChar (b ++ comment :: (b' ++ (ds ++ (second ++ body)))) =
        some (comment, b' ++ (ds ++ (second ++ body))) := by
      rw [extractChar, dropWhile_run skip (.cons visible)]
    exact ⟨vertices.lt, comment, _, _, body, char, extractUlong_numeral b' numeral lt skip' vertices.ends.stops_digit,
      extractUlong_eq vertices lines.ends, lines⟩

/-- The numbers of the header decide whether there is room for the arrays. -/
lemma parseCsrGraph_header (h : IsEdgeList nodes as cs) :
    nodes < 2 ^ 64 ∧ ∃ body, IsLines as body ∧ parseCsrGraph cs =
      if 8 * (nodes + 1) < 2 ^ 64 ∧ 8 * as.length < 2 ^ 64 then
        ((List.range as.length).foldlM (readEdge nodes) ⟨0, [0], [], [], body⟩).bind (finish nodes as.length)
      else none := by
  obtain ⟨fit, comment, first, second, body, char, edges, vertices, lines⟩ := h.header
  refine ⟨fit, body, lines, ?_⟩
  rw [parseCsrGraph, char]
  simp only [Option.bind_eq_bind, Option.bind_some, edges, vertices]

/-- Lines whose sources ascend below the number of vertices are read. -/
theorem parseCsrGraph_eq (h : IsEdgeList nodes as cs) (pos : 1 ≤ nodes)
    (sorted : as.Pairwise fun a b => a.source ≤ b.source) (inside : ∀ a ∈ as, a.source < nodes) :
    parseCsrGraph cs =
      if 8 * (nodes + 1) < 2 ^ 64 ∧ 8 * as.length < 2 ^ 64 then some (csrOf nodes as) else none := by
  obtain ⟨fit, body, lines, read⟩ := parseCsrGraph_header h
  obtain ⟨s, run, upTo, lt⟩ := exists_readUpTo lines sorted pos inside (Nat.le_refl as.length)
  rw [read, run, Option.bind_some, upTo.finish inside lt fit]

/-- Lines that are read have ascending sources. -/
lemma ascends_of_foldlM (lines : IsLines as s.file) (le : s.node ≤ nodes)
    (run : (List.range' k as.length).foldlM (readEdge nodes) s = some t) :
    s.node ≤ t.node ∧ t.node ≤ nodes ∧ (as.Pairwise fun a b => a.source ≤ b.source) ∧
      ∀ a ∈ as, s.node ≤ a.source ∧ a.source ≤ t.node := by
  induction as generalizing s k with
  | nil =>
    obtain rfl := Option.some.inj run
    exact ⟨Nat.le_refl _, le, .nil, fun a mem => by cases mem⟩
  | cons a as ih =>
    obtain ⟨rest, lines, read⟩ := readEdge_line nodes lines k
    rw [List.length_cons, List.range'_succ, List.foldlM_cons, read] at run
    obtain ⟨u, first, run⟩ := Option.bind_eq_some_iff.mp run
    obtain ⟨found, advanced, rfl⟩ := Option.map_eq_some_iff.mp first
    obtain ⟨low, high, same⟩ := of_advance_eq_some le advanced
    have node : (afterLine s a rest found).node = a.source := same
    obtain ⟨after, inside, sorted, between⟩ := ih lines (node ▸ high) run
    rw [node] at after between
    refine ⟨low.trans after, inside, List.pairwise_cons.mpr ⟨fun b mem => (between b mem).1, sorted⟩, ?_⟩
    rw [List.forall_mem_cons]
    exact ⟨⟨low, after⟩, fun b mem => ⟨low.trans (between b mem).1, (between b mem).2⟩⟩

/-- The sources of a graph that is read ascend below its number of vertices. -/
theorem parseCsrGraph_isSome_iff (h : IsEdgeList nodes as cs)
    (room : 8 * (nodes + 1) < 2 ^ 64 ∧ 8 * as.length < 2 ^ 64) :
    (parseCsrGraph cs).isSome ↔
      1 ≤ nodes ∧ (as.Pairwise fun a b => a.source ≤ b.source) ∧ ∀ a ∈ as, a.source < nodes := by
  constructor
  · intro read
    obtain ⟨_, body, lines, parse⟩ := parseCsrGraph_header h
    obtain ⟨G, done⟩ := Option.isSome_iff_exists.mp read
    rw [parse, if_pos room, List.range_eq_range'] at done
    obtain ⟨t, run, finished⟩ := Option.bind_eq_some_iff.mp done
    obtain ⟨_, inside, sorted, between⟩ := ascends_of_foldlM lines (Nat.zero_le nodes) run
    obtain ⟨found, advanced, _⟩ := Option.bind_eq_some_iff.mp finished
    obtain ⟨low, high, _⟩ := of_advance_eq_some inside advanced
    refine ⟨by omega, sorted, fun a mem => ?_⟩
    have := (between a mem).2
    omega
  · rintro ⟨pos, sorted, inside⟩
    rw [parseCsrGraph_eq h pos sorted inside, if_pos room]
    rfl

/-- The targets of a vertex: `edge_array` between its entry of `node_array` and the next one. -/
def targetsOf (G : Csr Int32) (v : ℕ) : List UInt64 :=
  (G.edgeArray.take (G.nodeArray.getD (v + 1) 0).toNat).drop (G.nodeArray.getD v 0).toNat

/-- The arrays are those of the lines. -/
structure IsCsrOf (nodes : ℕ) (as : List Line) (G : Csr Int32) : Prop where
  nodes_eq : G.nodes = nodes
  edges_eq : G.edges = as.length
  entries : G.nodeArray.length = nodes + 1
  first : G.nodeArray[0]? = some 0
  last : (G.nodeArray[nodes]?).map UInt64.toNat = some as.length
  mono : G.nodeArray.Pairwise (· ≤ ·)
  targets : ∀ v < nodes, (targetsOf G v).map UInt64.toNat = (as.filter (·.source = v)).map Line.target
  edgeValues : G.edgeValues = as.map fun a => toInt (flSigned 24 a.weight)

/-- The vertices of the lines are of type `unsigned long`. -/
lemma IsLines.fits (h : IsLines as cs) : ∀ a ∈ as, a.source < 2 ^ 64 ∧ a.target < 2 ^ 64 := by
  induction h with
  | nil => exact fun a mem => by cases mem
  | cons source target _ _ ih =>
    rw [List.forall_mem_cons]
    exact ⟨⟨source.lt, target.lt⟩, ih⟩

/-- No entry of `node_array` is too large for its type. -/
lemma toNat_countP (room : as.length < 2 ^ 64) (p : Line → Bool) :
    (UInt64.ofNat (as.countP p)).toNat = as.countP p := by
  rw [UInt64.toNat_ofNat', Nat.mod_eq_of_lt]
  exact Nat.lt_of_le_of_lt List.countP_le_length room

/-- An offset counts the lines with a smaller source. -/
lemma getElem?_csrOf {v : ℕ} (le : v ≤ nodes) :
    (csrOf nodes as).nodeArray[v]? = some (UInt64.ofNat (as.countP (·.source < v))) := by
  simp only [csrOf, List.getElem?_map, List.getElem?_range (Nat.lt_succ_of_le le), Option.map_some]

/-- The slice of a vertex has the targets of its lines, in their order. -/
lemma targetsOf_csrOf (sorted : as.Pairwise fun a b => a.source ≤ b.source) (room : as.length < 2 ^ 64) {v : ℕ}
    (lt : v < nodes) :
    targetsOf (csrOf nodes as) v = (as.filter (·.source = v)).map fun a => UInt64.ofNat a.target := by
  have start : (csrOf nodes as).nodeArray.getD v 0 = UInt64.ofNat (as.countP (·.source < v)) := by
    rw [List.getD_eq_getElem?_getD, getElem?_csrOf lt.le, Option.getD_some]
  have stop : (csrOf nodes as).nodeArray.getD (v + 1) 0 = UInt64.ofNat (as.countP (·.source < v + 1)) := by
    rw [List.getD_eq_getElem?_getD, getElem?_csrOf lt, Option.getD_some]
  rw [targetsOf, start, stop, toNat_countP room, toNat_countP room, ← slice_eq_filter sorted v, List.map_drop,
    List.map_take]
  rfl

/-- The graph that is built is the graph of the lines. -/
lemma isCsrOf_csrOf (sorted : as.Pairwise fun a b => a.source ≤ b.source) (inside : ∀ a ∈ as, a.source < nodes)
    (fits : ∀ a ∈ as, a.target < 2 ^ 64) (room : as.length < 2 ^ 64) : IsCsrOf nodes as (csrOf nodes as) where
  nodes_eq := rfl
  edges_eq := rfl
  entries := by simp [csrOf]
  first := by
    rw [getElem?_csrOf (Nat.zero_le _), List.countP_eq_zero.mpr fun a _ => by simp]
    rfl
  last := by
    have all : as.countP (·.source < nodes) = as.length :=
      List.countP_eq_length.mpr fun a mem => decide_eq_true (inside a mem)
    rw [getElem?_csrOf (Nat.le_refl _), Option.map_some, toNat_countP room, all]
  mono := by
    refine List.pairwise_map.mpr (List.pairwise_lt_range.imp fun {u v} lt => ?_)
    rw [UInt64.le_iff_toNat_le, toNat_countP room, toNat_countP room]
    refine List.countP_mono_left fun a _ below => ?_
    rw [decide_eq_true_eq] at below ⊢
    exact below.trans lt
  targets := fun v lt => by
    rw [targetsOf_csrOf sorted room lt, List.map_map]
    refine List.map_congr_left fun a mem => ?_
    exact UInt64.toNat_ofNat_of_lt' (fits a (List.mem_filter.mp mem).1)
  edgeValues := rfl

/-- An edge list whose sources ascend below the number of vertices is read as the CSR graph of its lines, if there is
    room for the arrays. -/
theorem parseCsrGraph_isCsrOf (nodes : ℕ) (as : List Line) (file : List Char) (h : IsEdgeList nodes as file)
    (pos : 1 ≤ nodes) (sorted : as.Pairwise fun a b => a.source ≤ b.source) (inside : ∀ a ∈ as, a.source < nodes)
    (room : 8 * (nodes + 1) < 2 ^ 64 ∧ 8 * as.length < 2 ^ 64) :
    ∃ G, parseCsrGraph file = some G ∧ IsCsrOf nodes as G := by
  obtain ⟨_, _, lines, _⟩ := parseCsrGraph_header h
  refine ⟨csrOf nodes as, ?_, isCsrOf_csrOf sorted inside (fun a mem => (lines.fits a mem).2) (by omega)⟩
  rw [parseCsrGraph_eq h pos sorted inside, if_pos room]

/-- A number far below the greatest `float` is one. -/
lemma float_fits (le : |q| ≤ 2 ^ 64) : |flSigned 24 q| < 2 ^ 128 := by
  have bound : ∀ x : ℚ, 0 ≤ x → x ≤ 2 ^ 64 → |fl 24 x| < 2 ^ 128 := by
    intro x nonneg le
    rcases nonneg.eq_or_lt with rfl | pos
    · simp
    · have error := abs_le.mp (fl_error (p := 24) pos)
      have part : x / 2 ^ 24 ≤ x := div_le_self nonneg (by norm_num)
      rw [abs_lt]
      constructor <;> linarith
  rcases lt_or_ge q 0 with neg | nonneg
  · rw [flSigned, if_pos neg, abs_neg]
    rw [abs_of_neg neg] at le
    exact bound _ (by linarith) le
  · rw [flSigned, if_neg nonneg.not_gt]
    rw [abs_of_nonneg nonneg] at le
    exact bound _ nonneg le

/-- A single blank. -/
lemma blank_singleton {c : Char} (h : isSpace c = true) : Blank [c] := ⟨List.cons_ne_nil _ _, by simpa using h⟩

/-- A check for white space that can be evaluated. -/
lemma blank_of {b : List Char} (h : b ≠ [] ∧ b.all isSpace = true) : Blank b := ⟨h.1, List.all_eq_true.mp h.2⟩

/-- A check for numerals that can be evaluated. -/
lemma isNumeral_of {ds : List Char} (h : ds ≠ [] ∧ ds.all Char.isDigit = true ∧ parseNat 10 ds = some n) :
    IsNumeral n ds := ⟨h.1, List.all_eq_true.mp h.2.1, h.2.2⟩

/-- A check for numbers of the format that can be evaluated. -/
lemma isUlong_of (b ds : List Char) (h : (b ≠ [] ∧ b.all isSpace = true) ∧
    (ds ≠ [] ∧ ds.all Char.isDigit = true ∧ parseNat 10 ds = some n) ∧ n < 2 ^ 64) : IsUlong n (b ++ ds) :=
  .intro (blank_of h.1) (isNumeral_of h.2.1) h.2.2

/-- Vertices without edges before, between and after the sources, and weights in several notations. -/
def gaps : List Char := "c 3 6\n1 007 2\n1 0\t-0.5\r\n3 2 12e-1".toList

/-- Lines that leave out vertices at the start, in the middle and at the end. -/
def gapLines : List Line := [⟨1, 7, 2⟩, ⟨1, 0, -1 / 2⟩, ⟨3, 2, 6 / 5⟩]

/-- They are what the text holds. -/
lemma isEdgeList_gaps : IsEdgeList 6 gapLines gaps := by
  have two : IsFloat 2 ([' '] ++ ['2']) :=
    .intro (blank_singleton rfl) (isDecimal_of_isNumeral (isNumeral_of (by decide))) (float_fits (by norm_num))
  have half : IsFloat (-1 / 2) (['\t'] ++ ['-', '0', '.', '5']) := by
    have fraction : IsFraction ['5'] _ := .present (List.forall_mem_singleton.mpr rfl)
    have decimal := IsDecimal.intro .minus ['0'] (isNumeral_of (n := 5) (by decide)) fraction .absent
    have value : applySign Sign.minus.negative (((5 : ℕ) : ℚ) * 10 ^ ((0 : ℤ) - (['5'] : List Char).length)) = -1 / 2 := by
      norm_num [applySign, Sign.negative]
    rw [value] at decimal
    exact .intro (blank_singleton rfl) decimal (float_fits (by norm_num [abs_div]))
  have more : IsFloat (6 / 5) ([' '] ++ ['1', '2', 'e', '-', '1']) := by
    have exponent : IsExponent _ ('e' :: ['-', '1']) := .present 'e' .minus (.inl rfl) (isNumeral_of (n := 1) (by decide))
    have decimal := IsDecimal.intro .absent ['1', '2'] (isNumeral_of (n := 12) (by decide)) .absent exponent
    have value : applySign Sign.absent.negative
        (((12 : ℕ) : ℚ) * 10 ^ (applySign Sign.minus.negative ((1 : ℕ) : ℤ) - ([] : List Char).length)) = 6 / 5 := by
      norm_num [applySign, Sign.negative]
    rw [value] at decimal
    exact .intro (blank_singleton rfl) decimal (float_fits (by norm_num [abs_div]))
  have last : IsLines [⟨3, 2, 6 / 5⟩] _ :=
    .cons (isUlong_of ['\r', '\n'] ['3'] (by decide)) (isUlong_of [' '] ['2'] (by decide)) more (.nil .nil)
  have middle : IsLines [⟨1, 0, -1 / 2⟩, ⟨3, 2, 6 / 5⟩] _ :=
    .cons (isUlong_of ['\n'] ['1'] (by decide)) (isUlong_of [' '] ['0'] (by decide)) half last
  have lines : IsLines gapLines _ :=
    .cons (isUlong_of ['\n'] ['1'] (by decide)) (isUlong_of [' '] ['0', '0', '7'] (by decide)) two middle
  have edges : IsNumeral gapLines.length ['3'] := isNumeral_of (by decide)
  exact .intro [] 'c' [' '] (List.forall_mem_nil _) rfl (List.forall_mem_singleton.mpr rfl) edges (by decide)
    (isUlong_of [' '] ['6'] (by decide)) lines

/-- The graph with the gaps. -/
theorem parseCsrGraph_isCsrOf_gaps : ∃ G, parseCsrGraph gaps = some G ∧ IsCsrOf 6 gapLines G :=
  parseCsrGraph_isCsrOf 6 gapLines gaps isEdgeList_gaps (by decide) (by decide) (by decide) (by decide)

end

end PromotionCache.Graph.EdgelistToBinary
