import Mathlib.Algebra.Ring.Nat
import PromotionCache.Graph.Csr
import PromotionCache.Lib.Machine

/-!
# Removing duplicate edges

`remove_dups` of `remove_dups.cpp`. One pass counts the edges that do not go to a later vertex than the edge before,
the other one leaves out those that go to the same vertex, so the arrays have room for what is written if and only if
no neighbours are in descending order (`removesDups_iff`).

Variables of type `int` go over the vertices and the edges; the function returns `none` where one of them overflows,
and where a write is past the end of `ret.edge_array` and `ret.node_data`.
-/

namespace PromotionCache.Graph
open Lib

/-- What `remove_dups` returns; the entries are those of `edge_array` and `node_data`, as far as they are written. -/
structure Deduped where
  nodes : ℕ
  edges : ℕ
  nodeArray : List ℕ
  entries : List (ℕ × Int32)

section
variable (G : CsrGraph) (nodeData : Fin G.edges → Int32)

/-- An edge of the first pass: `previous` and `duplicates` after it. -/
def countEdge (s : ℤ × ℕ) (e : Fin G.edges) : ℤ × ℕ :=
  let edgeIndex : ℤ := (G.edgeArray e).val
  (edgeIndex, if edgeIndex ≤ s.1 then s.2 + 1 else s.2)

/-- The first pass. -/
def duplicates : ℕ :=
  (List.finRange G.nodes).foldl (fun dups n => ((G.edgesOf n).foldl (countEdge G) (-1, dups)).2) 0

/-- The variables of the second pass that last from edge to edge; `new_edge_index` is the number of the entries. -/
structure Copy where
  previous : ℤ
  total : ℕ
  entries : List (ℕ × Int32)

/-- An edge of the second pass, with arrays of `edges` elements. -/
def copyEdge (edges : ℕ) (s : Copy) (e : Fin G.edges) : Option Copy :=
  let edgeIndex : ℤ := (G.edgeArray e).val
  if edgeIndex ≠ s.previous then
    if s.entries.length < edges then
      some ⟨edgeIndex, s.total + 1, s.entries ++ [((G.edgeArray e).val, nodeData e)]⟩
    else none
  else some { s with previous := edgeIndex }

/-- A vertex of the second pass. -/
def copyVertex (edges : ℕ) (s : List ℕ × List (ℕ × Int32)) (n : Fin G.nodes) :
    Option (List ℕ × List (ℕ × Int32)) := do
  let c ← (G.edgesOf n).foldlM (copyEdge G nodeData edges) ⟨-1, 0, s.2⟩
  some (s.1 ++ [s.1.getLastD 0 + c.total], c.entries)

/-- `remove_dups` -/
def removeDups : Option Deduped :=
  if G.nodes < intBound ∧ G.edges < intBound then do
    let edges := G.edges - duplicates G
    let (nodeArray, entries) ← (List.finRange G.nodes).foldlM (copyVertex G nodeData edges) ([0], [])
    some ⟨G.nodes, edges, nodeArray, entries⟩
  else none

/-- The end of an edge, and its value. -/
def item (e : Fin G.edges) : ℕ × Int32 := ((G.edgeArray e).val, nodeData e)

/-- The neighbours of a vertex, with the values of the edges. -/
def neighbours (v : Fin G.nodes) : List (ℕ × Int32) := (G.edgesOf v).map (item G nodeData)

end

/-- The first entry of each vertex that is not among those seen. -/
def firstOccurrences (seen : List ℕ) : List (ℕ × Int32) → List (ℕ × Int32)
  | [] => []
  | x :: xs => if x.1 ∈ seen then firstOccurrences seen xs else x :: firstOccurrences (x.1 :: seen) xs

/-- The entries from one index of `node_array` to the next. -/
def Deduped.slice (r : Deduped) (v : ℕ) : List (ℕ × Int32) :=
  (r.entries.take (r.nodeArray.getD (v + 1) 0)).drop (r.nodeArray.getD v 0)

/-- All writes are within the arrays, each vertex is left with its distinct neighbours, and there are as many edges as
    the last element of `node_array` says. -/
def RemovesDups (G : CsrGraph) (nodeData : Fin G.edges → Int32) : Prop :=
  ∃ r, removeDups G nodeData = some r ∧ r.nodes = G.nodes ∧ r.nodeArray[G.nodes]? = some r.edges ∧
    ∀ v, r.slice v.val = firstOccurrences [] (neighbours G nodeData v)

variable {G : CsrGraph} {nodeData : Fin G.edges → Int32} {previous : ℤ} {es : List (Fin G.edges)}
  {xs : List (ℕ × Int32)} {vs : List (Fin G.nodes)} {v : Fin G.nodes} {edges : ℕ}

/-- The target of an edge. -/
@[simp] lemma item_fst {e : Fin G.edges} : (item G nodeData e).1 = (G.edgeArray e).val := rfl

/-- What the second pass keeps. -/
def kept (previous : ℤ) : List (ℕ × Int32) → List (ℕ × Int32)
  | [] => []
  | x :: xs => if (x.1 : ℤ) ≠ previous then x :: kept x.1 xs else kept x.1 xs

/-- How often the vertices go down. -/
def descents (previous : ℤ) : List (ℕ × Int32) → ℕ
  | [] => 0
  | x :: xs => (if (x.1 : ℤ) < previous then 1 else 0) + descents x.1 xs

/-- There is no descent if and only if the targets go up. -/
lemma descents_eq_zero_iff : descents previous xs = 0 ↔
    (∀ x ∈ xs.head?, previous ≤ (x.1 : ℤ)) ∧ (xs.map Prod.fst).Pairwise (· ≤ ·) := by
  induction xs generalizing previous with
  | nil => simp [descents]
  | cons x xs ih =>
    rw [descents, Nat.add_eq_zero_iff, ih, List.head?_cons, List.map_cons, ite_eq_right_iff]
    have order : ((x.1 : ℤ) < previous → 1 = 0) ↔ previous ≤ (x.1 : ℤ) := by
      rw [← not_lt]
      exact imp_congr_right fun _ => by decide
    have head : (∀ y ∈ some x, previous ≤ (y.1 : ℤ)) ↔ previous ≤ (x.1 : ℤ) := by simp
    rw [order, head]
    refine and_congr_right fun _ => ?_
    rw [List.pairwise_cons]
    constructor
    · rintro ⟨first, sorted⟩
      refine ⟨fun n mem => ?_, sorted⟩
      cases xs with
      | nil => cases mem
      | cons y ys =>
        have le : x.1 ≤ y.1 := by exact_mod_cast first y rfl
        rcases List.mem_cons.mp mem with rfl | later
        · exact le
        · exact le.trans ((List.pairwise_cons.mp sorted).1 n later)
    · rintro ⟨first, sorted⟩
      refine ⟨fun y hy => ?_, sorted⟩
      have mem : y.1 ∈ xs.map Prod.fst := List.mem_map.mpr ⟨y, List.mem_of_mem_head? hy, rfl⟩
      exact_mod_cast first _ mem

/-- There are at most as many descents as targets that are kept. -/
lemma descents_le : descents previous xs ≤ (kept previous xs).length := by
  induction xs generalizing previous with
  | nil => exact Nat.le_refl _
  | cons x xs ih =>
    have rest := @ih (x.1 : ℤ)
    rw [descents, kept]
    by_cases same : (x.1 : ℤ) = previous
    · rw [if_neg same.not_lt, if_neg (not_not.mpr same)]
      omega
    · rw [if_pos same, List.length_cons]
      split <;> omega

/-- The first pass counts what the second one leaves out, and the descents. -/
lemma foldl_countEdge (nodeData : Fin G.edges → Int32) (previous : ℤ) (es : List (Fin G.edges)) (dups : ℕ) :
    (es.foldl (countEdge G) (previous, dups)).2 + (kept previous (es.map (item G nodeData))).length =
      dups + es.length + descents previous (es.map (item G nodeData)) := by
  induction es generalizing previous dups with
  | nil => rfl
  | cons e es ih =>
    rw [List.foldl_cons, countEdge, List.map_cons, kept, descents, List.length_cons, item_fst]
    dsimp only
    have rest := ih ((G.edgeArray e).val : ℤ)
    rcases lt_trichotomy ((G.edgeArray e).val : ℤ) previous with lt | same | gt
    · rw [if_pos lt.le, if_pos lt.ne, if_pos lt, List.length_cons]
      have := rest (dups + 1)
      omega
    · rw [if_pos same.le, if_neg (not_not.mpr same), if_neg same.not_lt]
      have := rest (dups + 1)
      omega
    · rw [if_neg gt.not_ge, if_pos gt.ne', if_neg gt.not_gt, List.length_cons]
      have := rest dups
      omega

/-- The second pass writes what it keeps, if there is room. -/
lemma foldlM_copyEdge (previous : ℤ) (es : List (Fin G.edges)) (total : ℕ) {entries : List (ℕ × Int32)}
    (fits : entries.length ≤ edges) :
    (es.foldlM (copyEdge G nodeData edges) ⟨previous, total, entries⟩).map (fun c => (c.total, c.entries)) =
      if entries.length + (kept previous (es.map (item G nodeData))).length ≤ edges then
        some (total + (kept previous (es.map (item G nodeData))).length,
          entries ++ kept previous (es.map (item G nodeData)))
      else none := by
  induction es generalizing previous total entries with
  | nil =>
    rw [List.map_nil, kept, List.append_nil, List.length_nil, Nat.add_zero, if_pos fits]
    rfl
  | cons e es ih =>
    rw [List.foldlM_cons, copyEdge, List.map_cons, kept, item_fst]
    by_cases other : ((G.edgeArray e).val : ℤ) ≠ previous
    · rw [if_pos other, if_pos other]
      by_cases room : entries.length < edges
      · rw [if_pos room]
        refine (ih _ _ ?_).trans ?_
        · rw [List.length_append, List.length_singleton]
          exact room
        · have size : ∀ n, entries.length + 1 + n = entries.length + (n + 1) := fun n => by omega
          have count : ∀ n, total + 1 + n = total + (n + 1) := fun n => by omega
          rw [List.length_append, List.length_singleton, List.length_cons, size, count, List.append_assoc]
          rfl
      · rw [if_neg room, if_neg]
        · rfl
        · rw [List.length_cons]
          omega
    · rw [if_neg other, if_neg other]
      exact ih _ _ fits

/-- In ascending order, what is kept are the first occurrences. -/
lemma kept_eq {seen : List ℕ} (sorted : (xs.map Prod.fst).Pairwise (· ≤ ·))
    (above : ∀ x ∈ xs, previous ≤ (x.1 : ℤ)) (known : ∀ x ∈ xs, x.1 ∈ seen ↔ (x.1 : ℤ) = previous) :
    kept previous xs = firstOccurrences seen xs := by
  induction xs generalizing previous seen with
  | nil => rfl
  | cons x xs ih =>
    obtain ⟨first, sorted⟩ := List.pairwise_cons.mp sorted
    have le : ∀ y ∈ xs, x.1 ≤ y.1 := fun y mem => first _ (List.mem_map.mpr ⟨y, mem, rfl⟩)
    have own := known x List.mem_cons_self
    have low := above x List.mem_cons_self
    rw [kept, firstOccurrences]
    by_cases same : (x.1 : ℤ) = previous
    · rw [if_neg (not_not.mpr same), if_pos (own.mpr same)]
      refine ih sorted (fun y mem => by exact_mod_cast le y mem) fun y mem => ?_
      rw [known y (List.mem_cons_of_mem _ mem), same]
    · rw [if_pos same, if_neg (mt own.mp same)]
      refine congrArg _ (ih sorted (fun y mem => by exact_mod_cast le y mem) fun y mem => ?_)
      have past := le y mem
      rw [List.mem_cons, known y (List.mem_cons_of_mem _ mem), Int.natCast_inj]
      refine or_iff_left fun e => ?_
      omega

section
variable (G nodeData)

/-- What the second pass keeps of some vertices. -/
def keptAll (vs : List (Fin G.nodes)) : List (ℕ × Int32) := vs.flatMap fun v => kept (-1) (neighbours G nodeData v)

/-- `node_array` after some vertices. -/
def offsets (vs : List (Fin G.nodes)) : List ℕ :=
  (List.range (vs.length + 1)).map fun i => (keptAll G nodeData (vs.take i)).length

end

/-- What is kept of one more vertex. -/
lemma keptAll_concat : keptAll G nodeData (vs ++ [v]) = keptAll G nodeData vs ++ kept (-1) (neighbours G nodeData v) := by
  rw [keptAll, List.flatMap_append, List.flatMap_singleton]
  rfl

/-- The offset of one more vertex. -/
lemma offsets_concat :
    offsets G nodeData (vs ++ [v]) = offsets G nodeData vs ++ [(keptAll G nodeData (vs ++ [v])).length] := by
  rw [offsets, List.length_append, List.length_singleton, List.range_succ, List.map_append, List.map_singleton]
  congr 1
  · refine List.map_congr_left fun i mem => ?_
    rw [List.take_append_of_le_length (Nat.lt_succ_iff.mp (List.mem_range.mp mem))]
  · rw [List.take_of_length_le]
    rw [List.length_append, List.length_singleton]

/-- The last offset counts what is kept. -/
lemma getLastD_offsets : (offsets G nodeData vs).getLastD 0 = (keptAll G nodeData vs).length := by
  rw [offsets, List.range_succ, List.map_append, List.map_singleton, List.getLastD_concat, List.take_length]

/-- The second pass goes through if and only if all that it keeps has room. -/
lemma foldlM_copyVertex : vs.foldlM (copyVertex G nodeData edges) ([0], []) =
    if (keptAll G nodeData vs).length ≤ edges then some (offsets G nodeData vs, keptAll G nodeData vs) else none := by
  induction vs using List.reverseRecOn with
  | nil => rfl
  | append_singleton vs v ih =>
    rw [List.foldlM_append, ih, keptAll_concat, List.length_append]
    by_cases fits : (keptAll G nodeData vs).length ≤ edges
    · have copied := @foldlM_copyEdge G nodeData edges (-1) (G.edgesOf v) 0 _ fits
      rw [← neighbours] at copied
      rw [if_pos fits]
      show (copyVertex G nodeData edges _ v >>= pure) = _
      rw [bind_pure, copyVertex, offsets_concat, keptAll_concat, List.length_append]
      dsimp only
      split at copied
      case isTrue room =>
        obtain ⟨c, run, same⟩ := Option.map_eq_some_iff.mp copied
        obtain ⟨total, entries⟩ := Prod.mk.inj same
        rw [run, if_pos room, ← entries, getLastD_offsets]
        show some (_ ++ [_ + c.total], c.entries) = _
        rw [total, Nat.zero_add]
      case isFalse full =>
        rw [Option.map_eq_none_iff.mp copied, if_neg full]
        rfl
    · rw [if_neg fits, if_neg]
      · rfl
      · omega

/-- The first pass counts what is not kept, and the descents. -/
lemma foldl_duplicates (nodeData : Fin G.edges → Int32) (vs : List (Fin G.nodes)) (dups : ℕ) :
    vs.foldl (fun dups n => ((G.edgesOf n).foldl (countEdge G) (-1, dups)).2) dups + (keptAll G nodeData vs).length =
      dups + (G.scan vs).length + (vs.map fun v => descents (-1) (neighbours G nodeData v)).sum := by
  induction vs generalizing dups with
  | nil => rfl
  | cons v vs ih =>
    have own := foldl_countEdge nodeData (-1) (G.edgesOf v) dups
    have rest := ih ((G.edgesOf v).foldl (countEdge G) (-1, dups)).2
    have keeps : keptAll G nodeData (v :: vs) = kept (-1) (neighbours G nodeData v) ++ keptAll G nodeData vs := rfl
    have scan : G.scan (v :: vs) = (G.edgesOf v).map (Prod.mk v) ++ G.scan vs := rfl
    rw [List.foldl_cons, keeps, scan, List.length_append, List.length_append, List.length_map, List.map_cons,
      List.sum_cons]
    rw [← neighbours] at own
    omega

/-- All descents together are at most what is kept. -/
lemma sum_descents_le (nodeData : Fin G.edges → Int32) (vs : List (Fin G.nodes)) :
    (vs.map fun v => descents (-1) (neighbours G nodeData v)).sum ≤ (keptAll G nodeData vs).length := by
  induction vs with
  | nil => exact Nat.le_refl _
  | cons v vs ih =>
    have keeps : keptAll G nodeData (v :: vs) = kept (-1) (neighbours G nodeData v) ++ keptAll G nodeData vs := rfl
    rw [keeps, List.length_append, List.map_cons, List.sum_cons]
    exact Nat.add_le_add descents_le ih

/-- The neighbours are the targets. -/
lemma map_fst_neighbours : (neighbours G nodeData v).map Prod.fst = (G.targets v).map Fin.val := by
  rw [neighbours, CsrGraph.targets, List.map_map, List.map_map]
  rfl

/-- The room that the first pass leaves is what the second one needs, less the descents. -/
lemma length_keptAll (nodeData : Fin G.edges → Int32) :
    (keptAll G nodeData (List.finRange G.nodes)).length ≤ G.edges - duplicates G ↔
      ∀ v, (G.targets v).Pairwise (· ≤ ·) := by
  have balance := foldl_duplicates nodeData (List.finRange G.nodes) 0
  rw [CsrGraph.length_scan, ← duplicates] at balance
  have none : ((List.finRange G.nodes).map fun v => descents (-1) (neighbours G nodeData v)).sum = 0 ↔
      ∀ v, (G.targets v).Pairwise (· ≤ ·) := by
    rw [List.sum_eq_zero_iff_forall_eq_nat]
    simp only [List.mem_map, List.mem_finRange, true_and, forall_exists_index, forall_apply_eq_imp_iff]
    refine forall_congr' fun v => ?_
    rw [descents_eq_zero_iff, map_fst_neighbours, List.pairwise_map]
    refine and_iff_right fun x _ => ?_
    exact le_trans (by decide) (Int.natCast_nonneg x.1)
  have le := sum_descents_le nodeData (List.finRange G.nodes)
  rw [← none]
  omega

/-- An offset counts what is kept of the vertices before. -/
lemma getElem?_offsets {i : ℕ} (le : i ≤ vs.length) :
    (offsets G nodeData vs)[i]? = some (keptAll G nodeData (vs.take i)).length := by
  rw [offsets, List.getElem?_map, List.getElem?_range (Nat.lt_succ_of_le le)]
  rfl

/-- The slices are what the second pass kept of each vertex. -/
lemma slice_eq (v : Fin G.nodes) (nodes edges : ℕ) :
    (Deduped.mk nodes edges (offsets G nodeData (List.finRange G.nodes))
      (keptAll G nodeData (List.finRange G.nodes))).slice v = kept (-1) (neighbours G nodeData v) := by
  have len : (List.finRange G.nodes).length = G.nodes := List.length_finRange
  have next : (List.finRange G.nodes).take (v + 1) = (List.finRange G.nodes).take v ++ [v] := by
    rw [List.take_add_one, List.getElem?_eq_getElem (by rw [len]; exact v.isLt), List.getElem_finRange]
    rfl
  have whole : keptAll G nodeData (List.finRange G.nodes) =
      keptAll G nodeData ((List.finRange G.nodes).take (v + 1)) ++
        keptAll G nodeData ((List.finRange G.nodes).drop (v + 1)) := by
    rw [keptAll, keptAll, keptAll, ← List.flatMap_append, List.take_append_drop]
  rw [Deduped.slice, List.getD_eq_getElem?_getD, List.getD_eq_getElem?_getD,
    getElem?_offsets (by rw [len]; exact v.isLt.le), getElem?_offsets (by rw [len]; exact v.isLt), Option.getD_some,
    Option.getD_some, whole, List.take_left, next, keptAll_concat, List.drop_left]

/-- What the two passes come to. -/
lemma removeDups_eq (small : G.edges < 2 ^ 31) : removeDups G nodeData =
    if G.nodes < 2 ^ 31 ∧ (keptAll G nodeData (List.finRange G.nodes)).length ≤ G.edges - duplicates G then
      some
        { nodes := G.nodes
          edges := G.edges - duplicates G
          nodeArray := offsets G nodeData (List.finRange G.nodes)
          entries := keptAll G nodeData (List.finRange G.nodes) }
    else none := by
  rw [removeDups]
  dsimp only
  rw [foldlM_copyVertex]
  by_cases nodes : G.nodes < 2 ^ 31
  · rw [if_pos ⟨nodes, small⟩]
    by_cases room : (keptAll G nodeData (List.finRange G.nodes)).length ≤ G.edges - duplicates G
    · rw [if_pos room, if_pos ⟨nodes, room⟩]
      rfl
    · rw [if_neg room, if_neg fun h => room h.2]
      rfl
  · rw [if_neg fun h => nodes h.1, if_neg fun h => nodes h.1]

/-- Duplicates are removed if and only if the neighbours of each vertex are in ascending order, for an `int` that can
    count the vertices. -/
theorem removesDups_iff (G : CsrGraph) (nodeData : Fin G.edges → Int32) (small : G.edges < 2 ^ 31) :
    RemovesDups G nodeData ↔ G.nodes < 2 ^ 31 ∧ ∀ v, (G.targets v).Pairwise (· ≤ ·) := by
  have last : (offsets G nodeData (List.finRange G.nodes))[G.nodes]? =
      some (keptAll G nodeData (List.finRange G.nodes)).length := by
    rw [getElem?_offsets (by rw [List.length_finRange]), List.take_of_length_le (by rw [List.length_finRange])]
  constructor
  · rintro ⟨r, run, _⟩
    rw [removeDups_eq small] at run
    split at run
    case isTrue fits => exact ⟨fits.1, (length_keptAll nodeData).mp fits.2⟩
    case isFalse => cases run
  · rintro ⟨nodes, sorted⟩
    have room := (length_keptAll nodeData).mpr sorted
    have balance := foldl_duplicates nodeData (List.finRange G.nodes) 0
    rw [CsrGraph.length_scan, ← duplicates] at balance
    refine ⟨_, by rw [removeDups_eq small, if_pos ⟨nodes, room⟩], rfl, ?_, fun v => ?_⟩
    · rw [last]
      refine congrArg some ?_
      dsimp only
      omega
    · rw [slice_eq]
      refine kept_eq ?_ (fun x _ => le_trans (by decide) (Int.natCast_nonneg x.1)) fun x _ => ?_
      · rw [map_fst_neighbours, List.pairwise_map]
        exact sorted v
      · refine iff_of_false List.not_mem_nil ?_
        omega

/-- The sample. -/
theorem removesDups_iff_sample :
    RemovesDups .sample (fun _ => 0) ↔
      CsrGraph.sample.nodes < 2 ^ 31 ∧ ∀ v, (CsrGraph.sample.targets v).Pairwise (· ≤ ·) :=
  removesDups_iff .sample _ (by decide)

/-- The first edge of the graph with descending targets. -/
lemma descending_first : (![0, 2, 2] : Fin 3 → ℕ) 0 = 0 := rfl

/-- Its last edge. -/
lemma descending_last : (![0, 2, 2] : Fin 3 → ℕ) (Fin.last 2) = 2 := rfl

/-- Its vertices have their edges. -/
lemma descending_mono : Monotone (![0, 2, 2] : Fin 3 → ℕ) := Fin.monotone_iff_le_succ.mpr (by decide)

/-- Edges from the first vertex, to the second one and then to itself. -/
def descending : CsrGraph where
  nodes := 2
  edges := 2
  nodeArray := ![0, 2, 2]
  edgeArray e := ⟨1 - e.val, by omega⟩
  edgeValues := fun _ => 0
  first := descending_first
  last := descending_last
  mono := descending_mono

/-- One of two different neighbours is taken for a duplicate, and the write of it is past the end. -/
theorem descending_not_removesDups :
    (descending.nodes ≤ 2 ^ 31 ∧ descending.edges < 2 ^ 31) ∧ ¬ RemovesDups descending fun _ => 0 := by
  refine ⟨by decide, ?_⟩
  rintro ⟨r, run, _⟩
  have none : removeDups descending (fun _ => 0) = none := by decide
  rw [none] at run
  cases run

end PromotionCache.Graph
