import PromotionCache.Graph.DbgSpec
import PromotionCache.Graph.EdgeListSpec

/-!
# Reordering a graph

The edges that `dbg.cpp` writes, read back by `edgelist_to_binary.cpp`. The numbers of the vertices survive the
conversion to `int`, the sort and the text; a weight is rounded to a `float` on the way (`reorders_iff`).
-/

namespace PromotionCache.Graph
open Lib Dbg EdgelistToBinary

/-- The edges as triples of source, target and weight. -/
def CsrGraph.triples (G : CsrGraph) : Multiset (ℕ × ℕ × ℕ) :=
  (G.scan (List.finRange G.nodes)).map fun ue => (ue.1.val, (G.edgeArray ue.2).val, G.edgeValues ue.2)

/-- `WEIGHT_MAX` of `utils/common.h` -/
def weightMax : ℕ := 1073741823

/-- The graph is written with new numbers for its vertices, and its edges are read back with their weights. -/
def Reorders (G : CsrGraph) (ret : ℕ → ℕ) : Prop :=
  ∃ (ret' : ℕ → ℕ) (H : CsrGraph), kernel G ret = some ret' ∧
    (∃ σ : Equiv.Perm (Fin G.nodes), ∀ v, ret' v.val = (σ v).val) ∧
    (dbg G ret).bind parseCsrGraph = some (H.arrays Int32.ofNat) ∧ H.nodes = G.nodes ∧
    H.triples = G.triples.map fun (u, v, w) => (ret' u, ret' v, w)

/-- What reading a weight makes of it. -/
def rounded (w : ℕ) : ℕ := ⌊fl 24 w⌋.toNat

section
variable {nodes : ℕ} {a : ℕ × ℕ × ℕ} {as : List (ℕ × ℕ × ℕ)} {rest : List Char}

/-- Rounding to `float`, for natural numbers. -/
lemma fl_eq_rounded (w : ℕ) : fl 24 w = rounded w := by
  obtain ⟨m, e, _⟩ := exists_fl_natCast (p := 24) (by decide) w
  rw [rounded, e, Int.floor_natCast, Int.toNat_natCast]

/-- What has been rounded is a `float`. -/
lemma representable_rounded (w : ℕ) : Representable 24 (rounded w) := by
  obtain ⟨m, e, h⟩ := exists_fl_natCast (p := 24) (by decide) w
  rwa [rounded, e, Int.floor_natCast, Int.toNat_natCast]

/-- A weight that has been rounded is still an `int`. -/
lemma rounded_lt {w : ℕ} (le : w ≤ weightMax) : rounded w < 2 ^ 31 := by
  rcases Nat.eq_zero_or_pos w with rfl | pos
  · rw [rounded, Nat.cast_zero, fl_zero]
    exact Nat.two_pow_pos 31
  have positive : (0 : ℚ) < w := by exact_mod_cast pos
  have error := (abs_le.mp (fl_error (p := 24) positive)).2
  rw [fl_eq_rounded] at error
  have part : (w : ℚ) / 2 ^ 24 ≤ w := div_le_self positive.le (by norm_num)
  have twice : (rounded w : ℚ) ≤ 2 * w := by linarith
  have bound : rounded w ≤ 2 * w := by exact_mod_cast twice
  unfold weightMax at le
  omega

/-- A weight survives if and only if it is a `float`. -/
lemma rounded_eq_iff {w : ℕ} : rounded w = w ↔ Representable 24 w := by
  rw [← fl_natCast_iff (by decide), fl_eq_rounded, Nat.cast_inj]

/-- A weight is a number of type `float` and of type `int`. -/
lemma flSigned_natCast (w : ℕ) : flSigned 24 w = rounded w := by
  rw [flSigned, if_neg (Nat.cast_nonneg w).not_gt, fl_eq_rounded]

/-- The conversion back to `int` is exact. -/
lemma toInt_rounded {w : ℕ} (le : w ≤ weightMax) : toInt (flSigned 24 w) = Int32.ofNat (rounded w) := by
  have lt := rounded_lt le
  have whole : truncate (rounded w : ℚ) = rounded w := by
    rw [truncate, if_neg (Nat.cast_nonneg _).not_gt, Int.floor_natCast]
  rw [flSigned_natCast, toInt, whole, if_pos (by omega)]
  rfl

/-- What the line of an edge says. -/
def lineOf (a : ℕ × ℕ × ℕ) : Line := ⟨a.1, a.2.1, a.2.2⟩

/-- A number behind white space is read as it was printed. -/
lemma isUlong_printed {c : Char} {n : ℕ} (space : isSpace c = true) (lt : n < 2 ^ 64) :
    IsUlong n (c :: Nat.toDigits 10 n) :=
  .intro (blank_singleton space) isNumeral_toDigits lt

/-- A weight behind a space is read as it was printed. -/
lemma isFloat_printed {w : ℕ} (le : w ≤ weightMax) : IsFloat w (' ' :: Nat.toDigits 10 w) := by
  refine .intro (blank_singleton rfl) (isDecimal_of_isNumeral isNumeral_toDigits) ?_
  have small : rounded w < 2 ^ 128 := (rounded_lt le).trans (by decide)
  rw [flSigned_natCast, abs_of_nonneg (Nat.cast_nonneg _)]
  exact_mod_cast small

/-- The lines of the edges, each with the end of the line before it. -/
lemma isLines_edgeLines (fits : ∀ a ∈ as, a.1 < 2 ^ 64 ∧ a.2.1 < 2 ^ 64) (weights : ∀ a ∈ as, a.2.2 ≤ weightMax) :
    IsLines (as.map lineOf) ('\n' :: as.flatMap edgeLine) := by
  induction as with
  | nil => exact .nil (.cons rfl)
  | cons a as ih =>
    rw [List.forall_mem_cons] at fits weights
    have text : '\n' :: (a :: as).flatMap edgeLine = ('\n' :: Nat.toDigits 10 a.1) ++ ((' ' :: Nat.toDigits 10 a.2.1) ++
        ((' ' :: Nat.toDigits 10 a.2.2) ++ ('\n' :: as.flatMap edgeLine))) := by
      simp only [List.flatMap_cons, edgeLine, List.append_assoc, List.cons_append, List.nil_append]
    rw [text]
    exact .cons (isUlong_printed rfl fits.1.1) (isUlong_printed rfl fits.1.2) (isFloat_printed weights.1)
      (ih fits.2 weights.2)

/-- What `dbg` prints is an edge list. -/
lemma isEdgeList_dbgText (fit : nodes < 2 ^ 64) (room : as.length < 2 ^ 64)
    (fits : ∀ a ∈ as, a.1 < 2 ^ 64 ∧ a.2.1 < 2 ^ 64) (weights : ∀ a ∈ as, a.2.2 ≤ weightMax) :
    IsEdgeList nodes (as.map lineOf) (dbgText as.length nodes as) := by
  have lines := isLines_edgeLines fits weights
  have edges : IsNumeral (as.map lineOf).length (Nat.toDigits 10 as.length) := by
    rw [List.length_map]
    exact isNumeral_toDigits
  exact .intro [] 'c' [' '] (by simp) rfl (by simp [isSpace]) edges (by rwa [List.length_map])
    (isUlong_printed rfl fit) lines

/-- The graph with these edges, but for what reading makes of their weights. -/
def ofLines (nodes : ℕ) (as : List (ℕ × ℕ × ℕ)) (inside : ∀ a ∈ as, a.1 < nodes ∧ a.2.1 < nodes) :
    CsrGraph where
  nodes
  edges := as.length
  nodeArray v := as.countP (·.1 < v.val)
  edgeArray e := ⟨(as.get e).2.1, (inside _ (List.get_mem _ _)).2⟩
  edgeValues e := rounded (as.get e).2.2
  first := List.countP_eq_zero.mpr fun a _ => by simp
  last := List.countP_eq_length.mpr fun a mem => by simpa using (inside a mem).1
  mono := fun u v le => List.countP_mono_left fun a _ lt => by
    rw [decide_eq_true_eq] at lt ⊢
    exact Nat.lt_of_lt_of_le lt le

section
variable (sorted : as.Pairwise fun a b => a.1 ≤ b.1) (inside : ∀ a ∈ as, a.1 < nodes ∧ a.2.1 < nodes)
include sorted

/-- The edges of a vertex are the lines that start with it. -/
lemma mem_edgesOf_ofLines {u : Fin (ofLines nodes as inside).nodes} {e : Fin (ofLines nodes as inside).edges} :
    e ∈ (ofLines nodes as inside).edgesOf u ↔ (as.get e).1 = u.val := by
  have low := (leads_lt sorted u).lt_countP_iff e.isLt
  have high := (leads_lt sorted (u + 1)).lt_countP_iff e.isLt
  rw [CsrGraph.mem_edgesOf]
  show as.countP (·.1 < u.val) ≤ e ∧ e.val < as.countP (·.1 < u.val + 1) ↔ as[e.val].1 = u.val
  rw [high, ← Nat.not_lt, low, decide_eq_true_eq, decide_eq_true_eq]
  omega

/-- The edges of the graph are the lines, with rounded weights. -/
lemma triples_ofLines :
    (ofLines nodes as inside).triples = as.map fun a => (a.1, a.2.1, rounded a.2.2) := by
  set H := ofLines nodes as inside
  let source : Fin H.edges → Fin H.nodes := fun e => ⟨(as.get e).1, (inside _ (List.get_mem _ _)).1⟩
  have perm : (H.scan (List.finRange H.nodes)).Perm ((List.finRange H.edges).map fun e => (source e, e)) := by
    refine (List.perm_ext_iff_of_nodup (CsrGraph.nodup_scan (List.nodup_finRange _))
      ((List.nodup_finRange _).map fun e e' same => (Prod.mk.inj same).2)).mpr ?_
    rintro ⟨u, e⟩
    rw [CsrGraph.mem_scan, mem_edgesOf_ofLines sorted, List.mem_map]
    constructor
    · rintro ⟨_, own⟩
      exact ⟨e, List.mem_finRange e, Prod.ext (Fin.ext own) rfl⟩
    · rintro ⟨e', _, same⟩
      obtain ⟨rfl, rfl⟩ := Prod.mk.inj same
      exact ⟨List.mem_finRange _, rfl⟩
  rw [CsrGraph.triples]
  refine Multiset.coe_eq_coe.mpr ((perm.map _).trans ?_)
  rw [List.map_map]
  refine List.Perm.of_eq (List.ext_getElem ?_ fun i _ _ => ?_)
  · rw [List.length_map, List.length_map, List.length_finRange]
    rfl
  · simp only [List.getElem_map, List.getElem_finRange]
    rfl

end

/-- The arrays that are read are those of the graph. -/
lemma csrOf_lines (inside : ∀ a ∈ as, a.1 < nodes ∧ a.2.1 < nodes) (weights : ∀ a ∈ as, a.2.2 ≤ weightMax) :
    csrOf nodes (as.map lineOf) = (ofLines nodes as inside).arrays Int32.ofNat := by
  refine Csr.ext rfl (List.length_map _) ?_ ?_ ?_
  · refine List.ext_getElem (by simp [csrOf, CsrGraph.arrays, ofLines]) fun v _ _ => ?_
    simp only [csrOf, List.getElem_map, List.getElem_range, List.countP_map]
    exact (List.getElem_ofFn (f := fun v : Fin (nodes + 1) => UInt64.ofNat (as.countP (·.1 < v.val))) _).symm
  · rw [csrOf, List.map_map]
    exact (List.ofFn_getElem_eq_map as fun a => UInt64.ofNat a.2.1).symm
  · refine Eq.trans (List.map_map ..) ?_
    refine Eq.trans ?_ (List.ofFn_getElem_eq_map as fun a => Int32.ofNat (rounded a.2.2)).symm
    exact List.map_congr_left fun a mem => toInt_rounded (weights a mem)

/-- More edges than an `unsigned long` counts are not read. -/
lemma parseCsrGraph_of_le (many : 2 ^ 64 ≤ as.length) : parseCsrGraph (dbgText as.length nodes as) = none := by
  have comment : extractChar (dbgText as.length nodes as) = some ('c', [' '] ++ (Nat.toDigits 10 as.length ++
      (' ' :: (Nat.toDigits 10 nodes ++ ('\n' :: as.flatMap edgeLine))))) := rfl
  have stops : Stops Char.isDigit (' ' :: (Nat.toDigits 10 nodes ++ ('\n' :: as.flatMap edgeLine))) :=
    .cons (by decide)
  have number := extract_numeral (n := as.length) [' '] isNumeral_toDigits (by simp [isSpace]) stops
  rw [parseCsrGraph, comment]
  simp only [Option.bind_eq_bind, Option.bind_some]
  rw [extractUlong, number]
  simp only [Option.bind_eq_bind, Option.bind_some]
  rw [if_neg (Nat.not_lt_of_le many)]
  rfl

/-- Lines in ascending order of their sources are read as a graph, with rounded weights. -/
theorem parseCsrGraph_dbgText (sorted : as.Pairwise fun a b => a.1 ≤ b.1)
    (inside : ∀ a ∈ as, a.1 < nodes ∧ a.2.1 < nodes) (weights : ∀ a ∈ as, a.2.2 ≤ weightMax) (pos : 0 < nodes)
    (small : nodes ≤ 2 ^ 31) :
    parseCsrGraph (dbgText as.length nodes as) =
      if 8 * as.length < 2 ^ 64 then some ((ofLines nodes as inside).arrays Int32.ofNat) else none := by
  rcases Nat.lt_or_ge as.length (2 ^ 64) with room | many
  · have fits : ∀ a ∈ as, a.1 < 2 ^ 64 ∧ a.2.1 < 2 ^ 64 := fun a mem => by
      have := inside a mem
      omega
    have ascending : (as.map lineOf).Pairwise fun a b => a.source ≤ b.source := List.pairwise_map.mpr sorted
    have below : ∀ a ∈ as.map lineOf, a.source < nodes := fun _ mem => by
      obtain ⟨a, line, rfl⟩ := List.mem_map.mp mem
      exact (inside a line).1
    rw [parseCsrGraph_eq (isEdgeList_dbgText (by omega) room fits weights) pos ascending below,
      csrOf_lines inside weights, List.length_map]
    refine if_congr (and_iff_right ?_) rfl rfl
    omega
  · rw [parseCsrGraph_of_le many, if_neg (by omega)]

end

section
variable {a b c : ℕ × ℕ × ℕ}

/-- The source of an edge survives the conversion to `int`. -/
lemma toInts_first (lt : a.1 < 2 ^ 31) : (toInts a).1 = a.1 := by
  have fits : Int.bmod a.1 (2 ^ 32) = a.1 := Int.bmod_eq_of_le (by omega) (by omega)
  unfold toInts
  dsimp only
  exact fits

/-- Of two edges, one may stand before the other. -/
lemma csrSort_total (a b : ℕ × ℕ × ℕ) : (!csrSort b a || !csrSort a b) = true := by
  simp only [csrSort, Bool.or_eq_true, Bool.not_eq_true', Bool.or_eq_false_iff, Bool.and_eq_false_iff,
    decide_eq_false_iff_not]
  omega

/-- The order of the edges is transitive. -/
lemma csrSort_trans (hab : (!csrSort b a) = true) (hbc : (!csrSort c b) = true) : (!csrSort c a) = true := by
  simp only [csrSort, Bool.not_eq_true', Bool.or_eq_false_iff, Bool.and_eq_false_iff,
    decide_eq_false_iff_not] at hab hbc ⊢
  omega

/-- For numbers of type `int` the order of the sources is that of the edges. -/
lemma first_le_of_not_csrSort (ha : a.1 < 2 ^ 31) (hb : b.1 < 2 ^ 31) (h : (!csrSort b a) = true) :
    a.1 ≤ b.1 := by
  simp only [csrSort, Bool.not_eq_true', Bool.or_eq_false_iff, decide_eq_false_iff_not] at h
  rw [toInts_first ha, toInts_first hb] at h
  omega

end

section
variable {G : CsrGraph} {ret : ℕ → ℕ} {σ : Equiv.Perm (Fin G.nodes)}

/-- New numbers are vertices. -/
lemma mem_relabelled {a : ℕ × ℕ × ℕ} (h : ∀ v, ret v.val = (σ v).val) (mem : a ∈ relabelled G ret) :
    a.1 < G.nodes ∧ a.2.1 < G.nodes := by
  obtain ⟨⟨u, e⟩, _, rfl⟩ := List.mem_map.mp mem
  dsimp only
  rw [h, h]
  exact ⟨Fin.isLt _, Fin.isLt _⟩

/-- So are those of the sorted edges. -/
lemma inside_sortedGraph (h : ∀ v, ret v.val = (σ v).val) :
    ∀ a ∈ sortedGraph G ret, a.1 < G.nodes ∧ a.2.1 < G.nodes := fun _ mem =>
  mem_relabelled h (List.mem_mergeSort.mp mem)

/-- The lines are in ascending order of their sources. -/
lemma pairwise_sortedGraph (small : G.nodes < 2 ^ 31) (h : ∀ v, ret v.val = (σ v).val) :
    (sortedGraph G ret).Pairwise fun a b => a.1 ≤ b.1 := by
  have sorted : (sortedGraph G ret).Pairwise fun a b => (!csrSort b a) = true :=
    @List.pairwise_mergeSort _ (fun a b => !csrSort b a) (fun _ _ _ => csrSort_trans) csrSort_total _
  refine List.Pairwise.imp_of_mem ?_ sorted
  intro a b ha hb le
  have first := (inside_sortedGraph h a ha).1
  have second := (inside_sortedGraph h b hb).1
  exact first_le_of_not_csrSort (first.trans small) (second.trans small) le

/-- Sorting brings in no new weight. -/
lemma weight_le_of_mem_sortedGraph (weights : ∀ e, G.edgeValues e ≤ weightMax) :
    ∀ a ∈ sortedGraph G ret, a.2.2 ≤ weightMax := by
  intro a mem
  obtain ⟨⟨u, e⟩, _, rfl⟩ := List.mem_map.mp (List.mem_mergeSort.mp mem)
  exact weights e

/-- There is a line for every edge. -/
lemma length_sortedGraph : (sortedGraph G ret).length = G.edges := by
  rw [sortedGraph, List.length_mergeSort, relabelled, List.length_map, CsrGraph.length_scan]

/-- The sorted edges are those of the graph, under their new numbers. -/
lemma coe_sortedGraph (f : ℕ × ℕ × ℕ → ℕ × ℕ × ℕ) :
    ((sortedGraph G ret).map f : Multiset (ℕ × ℕ × ℕ)) =
      G.triples.map fun (u, v, w) => f (ret u, ret v, w) := by
  have perm := (List.mergeSort_perm (relabelled G ret) fun a b => !csrSort b a).map f
  rw [sortedGraph, Multiset.coe_eq_coe.mpr perm, relabelled, CsrGraph.triples, Multiset.map_coe, List.map_map,
    List.map_map]
  rfl

/-- An edge of a vertex is one of the edges. -/
lemma mem_triples {u : Fin G.nodes} {e : Fin G.edges} (h : e ∈ G.edgesOf u) :
    (u.val, (G.edgeArray e).val, G.edgeValues e) ∈ G.triples :=
  Multiset.mem_coe.mpr (List.mem_map.mpr ⟨(u, e), CsrGraph.mem_scan.mpr ⟨List.mem_finRange u, h⟩, rfl⟩)

/-- Every weight is that of an edge. -/
lemma exists_of_mem_triples {a : ℕ × ℕ × ℕ} (mem : a ∈ G.triples) : ∃ e, G.edgeValues e = a.2.2 := by
  obtain ⟨⟨u, e⟩, _, rfl⟩ := List.mem_map.mp (Multiset.mem_coe.mp mem)
  exact ⟨e, rfl⟩

/-- Different small numbers are different as `int`. -/
lemma int32_inj {m n : ℕ} (hm : m < 2 ^ 31) (hn : n < 2 ^ 31) (e : Int32.ofNat m = Int32.ofNat n) : m = n := by
  have same := congrArg Int32.toInt e
  rwa [Int32.toInt_ofNat_of_lt hm, Int32.toInt_ofNat_of_lt hn, Int.natCast_inj] at same

/-- The weights of a graph that was read fit in a `float`. -/
lemma representable_of_read {as : List (ℕ × ℕ × ℕ)} {inside : ∀ a ∈ as, a.1 < G.nodes ∧ a.2.1 < G.nodes}
    {H : CsrGraph} {e : Fin H.edges} (weights : ∀ a ∈ as, a.2.2 ≤ weightMax) (le : H.edgeValues e ≤ weightMax)
    (read : (ofLines G.nodes as inside).arrays Int32.ofNat = H.arrays Int32.ofNat) :
    Representable 24 (H.edgeValues e) := by
  have mem : Int32.ofNat (H.edgeValues e) ∈ (H.arrays Int32.ofNat).edgeValues := List.mem_ofFn.mpr ⟨e, rfl⟩
  rw [← read] at mem
  obtain ⟨line, same⟩ := List.mem_ofFn.mp mem
  have lineLt := rounded_lt (weights _ (List.get_mem as line))
  have lt : H.edgeValues e < 2 ^ 31 := by
    unfold weightMax at le
    omega
  rw [← int32_inj lineLt lt same]
  exact representable_rounded _

/-- What is read back are the lines, with rounded weights. -/
lemma exists_read (pos : 1 ≤ G.nodes) (small : G.nodes < 2 ^ 31) (weights : ∀ e, G.edgeValues e ≤ weightMax)
    (ret : ℕ → ℕ) :
    ∃ ret' H, kernel G ret = some ret' ∧ (∃ σ : Equiv.Perm (Fin G.nodes), ∀ v, ret' v.val = (σ v).val) ∧
      (∃ inside, H = ofLines G.nodes (sortedGraph G ret') inside) ∧
      H.triples = (G.triples.map fun (u, v, w) => (ret' u, ret' v, rounded w)) ∧
      (dbg G ret).bind parseCsrGraph =
        if 8 * G.edges < 2 ^ 64 then some (H.arrays Int32.ofNat) else none := by
  obtain ⟨ret', σ, run, permutes⟩ := kernel_spec pos (show G.nodes ≤ unset by unfold unset; omega) ret
  have inside := inside_sortedGraph permutes
  have sorted := pairwise_sortedGraph small permutes
  have parsed := parseCsrGraph_dbgText sorted inside (weight_le_of_mem_sortedGraph weights) pos small.le
  have triples := triples_ofLines sorted inside
  rw [length_sortedGraph] at parsed
  rw [coe_sortedGraph] at triples
  refine ⟨ret', _, run, ⟨σ, permutes⟩, ⟨inside, rfl⟩, triples, ?_⟩
  rw [dbg, run]
  exact parsed

/-- If the copy has all edges with their weights, these are `float`s. -/
lemma Reorders.representable (h : Reorders G ret) (pos : 1 ≤ G.nodes) (small : G.nodes < 2 ^ 31)
    (weights : ∀ e, G.edgeValues e ≤ weightMax) :
    8 * G.edges < 2 ^ 64 ∧ ∀ e, Representable 24 (G.edgeValues e) := by
  obtain ⟨ret', H, run, _, ⟨inside, rfl⟩, _, through⟩ := exists_read pos small weights ret
  obtain ⟨_, H', run', _, parse, _, triples⟩ := h
  obtain rfl := Option.some.inj (run.symm.trans run')
  by_cases room : 8 * G.edges < 2 ^ 64
  · refine ⟨room, fun e => ?_⟩
    rw [through, if_pos room] at parse
    -- the weight is one that was read
    obtain ⟨u, own⟩ := G.exists_mem_edgesOf e
    have mem := Multiset.mem_map_of_mem (fun (u, v, w) => (ret' u, ret' v, w)) (mem_triples own)
    rw [← triples] at mem
    obtain ⟨e', same⟩ : ∃ e', H'.edgeValues e' = G.edgeValues e := exists_of_mem_triples mem
    rw [← same]
    exact representable_of_read (weight_le_of_mem_sortedGraph weights) (same ▸ weights e)
      (Option.some.inj parse)
  · rw [through, if_neg room] at parse
    cases parse

/-- If all weights are `float`s, the copy has all edges. -/
lemma reorders_of_representable (pos : 1 ≤ G.nodes) (small : G.nodes < 2 ^ 31)
    (weights : ∀ e, G.edgeValues e ≤ weightMax) (room : 8 * G.edges < 2 ^ 64)
    (fits : ∀ e, Representable 24 (G.edgeValues e)) : Reorders G ret := by
  obtain ⟨ret', H, run, permutes, ⟨inside, rfl⟩, triples, through⟩ := exists_read pos small weights ret
  rw [if_pos room] at through
  refine ⟨ret', ofLines G.nodes (sortedGraph G ret') inside, run, permutes, through, rfl, ?_⟩
  rw [triples]
  refine Multiset.map_congr rfl fun a mem => ?_
  obtain ⟨e, he⟩ := exists_of_mem_triples mem
  have kept := rounded_eq_iff.mpr (fits e)
  rw [he] at kept
  show (ret' a.1, ret' a.2.1, rounded a.2.2) = (ret' a.1, ret' a.2.1, a.2.2)
  rw [kept]

/-- Reordering keeps the graph if and only if every weight fits in a `float`; more edges than memory has
    addresses for are not read. -/
theorem reorders_iff (G : CsrGraph) (pos : 1 ≤ G.nodes) (small : G.nodes < 2 ^ 31)
    (weights : ∀ e, G.edgeValues e ≤ weightMax) (ret : ℕ → ℕ) :
    Reorders G ret ↔ 8 * G.edges < 2 ^ 64 ∧ ∀ e, Representable 24 (G.edgeValues e) := by
  constructor
  · exact fun h => h.representable pos small weights
  · rintro ⟨room, fits⟩
    exact reorders_of_representable pos small weights room fits

/-- The sample. -/
theorem reorders_iff_sample :
    Reorders .sample (fun _ => 0) ↔
      8 * CsrGraph.sample.edges < 2 ^ 64 ∧ ∀ e, Representable 24 (CsrGraph.sample.edgeValues e) :=
  reorders_iff .sample (by decide) (by decide) (by decide) fun _ => 0

/-- The first edge of the heavy loop. -/
lemma heavyLoop_first : (![0, 1] : Fin 2 → ℕ) 0 = 0 := rfl

/-- Its last edge. -/
lemma heavyLoop_last : (![0, 1] : Fin 2 → ℕ) (Fin.last 1) = 1 := rfl

/-- Its only vertex has its edge. -/
lemma heavyLoop_mono : Monotone (![0, 1] : Fin 2 → ℕ) := Fin.monotone_iff_le_succ.mpr (by decide)

/-- One vertex with a loop whose weight has 25 digits. -/
def heavyLoop : CsrGraph where
  nodes := 1
  edges := 1
  nodeArray := ![0, 1]
  edgeArray := fun _ => ⟨0, Nat.one_pos⟩
  edgeValues := fun _ => 16777217
  first := heavyLoop_first
  last := heavyLoop_last
  mono := heavyLoop_mono

/-- Its weight is rounded. -/
theorem heavyLoop_not_reorders :
    (1 ≤ heavyLoop.nodes ∧ heavyLoop.nodes < 2 ^ 31 ∧ 8 * heavyLoop.edges < 2 ^ 64 ∧
      ∀ e, heavyLoop.edgeValues e ≤ weightMax) ∧ ¬ Reorders heavyLoop fun _ => 0 := by
  refine ⟨by decide, fun h => ?_⟩
  obtain ⟨m, k, lt, e⟩ := (h.representable (by decide) (by decide) (by decide)).2 ⟨0, by decide⟩
  have value : 16777217 = m * 2 ^ k := e
  cases k with
  | zero => omega
  | succ k =>
    rw [Nat.pow_succ, ← Nat.mul_assoc] at value
    omega

end

end PromotionCache.Graph
