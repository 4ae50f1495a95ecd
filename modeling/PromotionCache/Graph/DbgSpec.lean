import Mathlib.Logic.Equiv.Fintype
import Mathlib.Tactic.NormNum
import PromotionCache.Graph.Dbg

/-!
# The numbers of degree-based grouping

`_kernel_` numbers the vertices from 0 on, one group after the other and in their order inside a group
(`kernelBy_spec`). Its scan of a group ends at a free slot: where a group holds all vertices, that is the first one of
the next group, and the last group never does, as some vertex has at least the average degree (`members_last_lt`).
-/

namespace PromotionCache.Graph.Dbg
open Lib

/-- A comparison of degrees with the bounds, of which the last one is reached by every vertex, and the one before it by
    some vertex. -/
structure Test (G : CsrGraph) where
  reaches : ℕ → Fin 8 → Bool
  last : ∀ d, reaches d ⟨7, by decide⟩ = true
  upper : 0 < G.nodes → ∃ v, reaches (G.outdegree v) ⟨6, by decide⟩ = true

variable {G : CsrGraph} {T : Test G} {s : Groups} {vs : List (Fin G.nodes)} {u v : Fin G.nodes} {k : ℕ}

/-- Rounding keeps a natural number from being negative. -/
lemma fl_natCast_nonneg (n : ℕ) : 0 ≤ fl 24 n := by
  obtain ⟨m, e, _⟩ := exists_fl_natCast (p := 24) (by decide) n
  rw [e]
  exact Nat.cast_nonneg m

/-- Rounding changes a number by an eighth of it at most. -/
lemma fl_le {q : ℚ} (pos : 0 < q) : fl 24 q ≤ 9 / 8 * q ∧ 7 / 8 * q ≤ fl 24 q := by
  have error := abs_le.mp (fl_error (p := 24) pos)
  have small : q / 2 ^ 24 ≤ q / 8 := by
    gcongr
    norm_num
  constructor <;> linarith [error.1, error.2]

/-- Some degree is not below the average. -/
lemma exists_average_le (pos : 0 < G.nodes) : ∃ v, (G.edges : ℚ) / G.nodes ≤ G.outdegree v := by
  by_contra less
  push Not at less
  have N : (0 : ℚ) < G.nodes := by exact_mod_cast pos
  have below : ∀ v, G.nodes * G.outdegree v < G.edges := by
    intro v
    have lt := less v
    rw [lt_div_iff₀ N, mul_comm] at lt
    exact_mod_cast lt
  have le : ∀ v, G.outdegree v ≤ (G.edges - 1) / G.nodes := by
    intro v
    rw [Nat.le_div_iff_mul_le pos, Nat.mul_comm]
    have := below v
    omega
  have all := G.edges_le le
  have div := Nat.mul_div_le (G.edges - 1) G.nodes
  have some := below ⟨0, pos⟩
  omega

/-- The last group takes every vertex. -/
lemma reaches_last (d : ℕ) : reaches G d ⟨7, by decide⟩ = true := by
  have zero : bounds ⟨7, by decide⟩ = 0 := rfl
  rw [reaches, zero, mul_zero, fl_zero, decide_eq_true_eq]
  exact fl_natCast_nonneg d

/-- Some vertex has half the average degree, also as `float` has it. -/
lemma exists_reaches (pos : 0 < G.nodes) : ∃ v, reaches G (G.outdegree v) ⟨6, by decide⟩ = true := by
  have half : bounds ⟨6, by decide⟩ = 1 / 2 := rfl
  simp only [reaches, half, decide_eq_true_eq]
  rcases Nat.eq_zero_or_pos G.edges with none | some
  · refine ⟨⟨0, pos⟩, ?_⟩
    rw [avgDeg, none, Nat.cast_zero, fl_zero, zero_div, fl_zero, zero_mul, fl_zero]
    exact fl_natCast_nonneg _
  · obtain ⟨v, d⟩ := exists_average_le pos
    have N : (0 : ℚ) < G.nodes := by exact_mod_cast pos
    have E : (0 : ℚ) < G.edges := by exact_mod_cast some
    have x : 0 < (G.edges : ℚ) / G.nodes := div_pos E N
    have top := fl_le E
    have bottom := fl_le N
    have quotient : fl 24 G.edges / fl 24 G.nodes ≤ 9 / 7 * (G.edges / G.nodes) := by
      rw [div_le_iff₀ (by linarith [bottom.2])]
      calc fl 24 G.edges ≤ 9 / 8 * G.edges := top.1
        _ = 9 / 7 * (G.edges / G.nodes) * (7 / 8 * G.nodes) := by
          field_simp
        _ ≤ 9 / 7 * (G.edges / G.nodes) * fl 24 G.nodes :=
          mul_le_mul_of_nonneg_left bottom.2 (by positivity)
    have quotientPos : 0 < fl 24 G.edges / fl 24 G.nodes :=
      div_pos (by linarith [top.2]) (by linarith [bottom.2])
    have avg := fl_le quotientPos
    have avgPos : 0 < avgDeg G := by
      rw [avgDeg]
      linarith [avg.2]
    have product := fl_le (q := avgDeg G * (1 / 2)) (by linarith)
    have degree := fl_le (q := G.outdegree v) (by linarith)
    refine ⟨v, ?_⟩
    have le : avgDeg G ≤ 9 / 8 * (9 / 7 * (G.edges / G.nodes)) := by
      rw [avgDeg]
      linarith [avg.1]
    linarith [product.1, degree.2]

variable (G) in
/-- The comparison of `_kernel_`. -/
def floatTest : Test G := ⟨reaches G, reaches_last, exists_reaches⟩

/-- Every degree reaches the last threshold. -/
lemma reachesExact_last (d : ℕ) : reachesExact G d ⟨7, by decide⟩ = true := by
  have zero : bounds ⟨7, by decide⟩ = 0 := rfl
  rw [reachesExact, zero, mul_zero, decide_eq_true_eq]
  exact fl_natCast_nonneg d

/-- A degree that is a `float` is still at least half of what it was. -/
lemma exists_reachesExact (pos : 0 < G.nodes) :
    ∃ v, reachesExact G (G.outdegree v) ⟨6, by decide⟩ = true := by
  have half : bounds ⟨6, by decide⟩ = 1 / 2 := rfl
  obtain ⟨v, d⟩ := exists_average_le pos
  refine ⟨v, ?_⟩
  rw [reachesExact, half, decide_eq_true_eq]
  have nonneg : (0 : ℚ) ≤ G.outdegree v := Nat.cast_nonneg _
  rcases nonneg.eq_or_lt with zero | some
  · rw [← zero] at d ⊢
    rw [fl_zero]
    linarith
  · linarith [(fl_le some).2]

variable (G) in
/-- The comparison with the exact average. -/
def exactTest : Test G := ⟨reachesExact G, reachesExact_last, exists_reachesExact⟩

/-- The group of a vertex. -/
def groupOf (T : Test G) (v : Fin G.nodes) : Option (Fin 8) := (List.finRange 8).find? (T.reaches (G.outdegree v))

/-- The vertices of a list that are in a group. -/
def members (T : Test G) (vs : List (Fin G.nodes)) (idx : ℕ) : List (Fin G.nodes) :=
  vs.filter fun v => (groupOf T v).map Fin.val = some idx

/-- Every vertex has a group. -/
lemma groupOf_isSome (v : Fin G.nodes) : (groupOf T v).isSome = true := by
  rw [groupOf, List.find?_isSome]
  exact ⟨_, List.mem_finRange _, T.last _⟩

/-- A vertex of the last group does not reach the bound before. -/
lemma not_reaches_of_last (h : groupOf T v = some ⟨7, by decide⟩) :
    T.reaches (G.outdegree v) ⟨6, by decide⟩ = false := by
  obtain ⟨_, before, after, e, none⟩ := List.find?_eq_some_iff_append.mp h
  have six : (⟨6, by decide⟩ : Fin 8) ∈ before := by
    have mem : (⟨6, by decide⟩ : Fin 8) ∈ before ++ ⟨7, by decide⟩ :: after := e ▸ List.mem_finRange _
    rcases List.mem_append.mp mem with here | here
    · exact here
    · exfalso
      have sorted := List.pairwise_lt_finRange 8
      rw [e] at sorted
      rcases List.mem_cons.mp here with same | later
      · exact absurd same (by decide)
      · exact absurd ((List.pairwise_cons.mp (List.pairwise_append.mp sorted).2.1).1 _ later) (by decide)
  simpa using none _ six

/-- The last group never holds all vertices. -/
lemma members_last_lt (pos : 0 < G.nodes) : (members T (List.finRange G.nodes) 7).length < G.nodes := by
  obtain ⟨v, hv⟩ := T.upper pos
  have out : ¬ (groupOf T v).map Fin.val = some 7 := by
    intro last
    obtain ⟨idx, h, e⟩ := Option.map_eq_some_iff.mp last
    have seven : idx = ⟨7, by decide⟩ := Fin.ext e
    rw [seven] at h
    rw [not_reaches_of_last h] at hv
    cases hv
  calc (members T (List.finRange G.nodes) 7).length < (List.finRange G.nodes).length :=
        List.length_filter_lt_length_iff_exists.mpr ⟨v, List.mem_finRange v, by rwa [decide_eq_true_eq]⟩
    _ = G.nodes := List.length_finRange

/-- The vertices of a list are in the slots of their groups. -/
structure Grouped (T : Test G) (vs : List (Fin G.nodes)) (s : Groups) : Prop where
  count : ∀ idx : Fin 8, s.indices idx = (members T vs idx).length
  slots : ∀ (idx : Fin 8) (i : ℕ), i < G.nodes →
    s.groups (idx * G.nodes + i) = ((members T vs idx)[i]?).elim unset Fin.val

/-- Different members have different slots. -/
lemma slot_inj {i j a b : ℕ} (ha : a < G.nodes) (hb : b < G.nodes) (e : i * G.nodes + a = j * G.nodes + b) :
    i = j ∧ a = b := by
  have pos : 0 < G.nodes := Nat.lt_of_le_of_lt (Nat.zero_le a) ha
  have quotient : ∀ k c, c < G.nodes → (k * G.nodes + c) / G.nodes = k := fun k c lt => by
    rw [Nat.add_comm, Nat.add_mul_div_right _ _ pos, Nat.div_eq_of_lt lt, Nat.zero_add]
  have same : i = j := by rw [← quotient i a ha, e, quotient j b hb]
  subst same
  exact ⟨rfl, Nat.add_left_cancel e⟩

/-- A group has no more members than there are vertices. -/
lemma length_members_lt {idx : ℕ} (nodup : (vs ++ [v]).Nodup) : (members T vs idx).length < G.nodes := by
  have all : (vs ++ [v]).length ≤ G.nodes := by
    have le := nodup.length_le_card
    rwa [Fintype.card_fin] at le
  have some : (members T vs idx).length ≤ vs.length := List.length_filter_le _ _
  rw [List.length_append, List.length_singleton] at all
  omega

/-- The slots are within the array. -/
lemma slot_lt {idx i : ℕ} (hidx : idx < 8) (hi : i < G.nodes) : idx * G.nodes + i < 8 * G.nodes := by
  have le : (idx + 1) * G.nodes ≤ 8 * G.nodes := Nat.mul_le_mul_right _ hidx
  rw [Nat.succ_mul] at le
  omega

/-- A vertex goes into the next slot of its group. -/
lemma Grouped.group (h : Grouped T vs s) (nodup : (vs ++ [v]).Nodup) :
    ∃ t, groupBy G T.reaches s v = some t ∧ Grouped T (vs ++ [v]) t := by
  obtain ⟨idx, hidx⟩ := Option.isSome_iff_exists.mp (groupOf_isSome v)
  have room : s.indices idx < G.nodes := by
    rw [h.count]
    exact length_members_lt nodup
  have inside := slot_lt idx.isLt room
  have others : ∀ idx' : Fin 8, members T (vs ++ [v]) idx' =
      members T vs idx' ++ if idx' = idx then [v] else [] := by
    intro idx'
    rw [members, List.filter_append, List.filter_singleton, hidx, Option.map_some]
    by_cases same : idx' = idx
    · rw [if_pos same, same, decide_eq_true rfl]
      rfl
    · have ne : ¬ some idx.val = some idx'.val := fun e => same (Fin.ext (Option.some.inj e).symm)
      rw [if_neg same, decide_eq_false ne]
      rfl
  refine ⟨_, by rw [groupBy, ← groupOf, hidx]; exact if_pos inside, ?_, ?_⟩
  · intro idx'
    rw [others, List.length_append, ← h.count]
    by_cases same : idx' = idx
    · rw [if_pos same, same]
      exact Function.update_self _ _ _
    · rw [if_neg same, List.length_nil, Nat.add_zero]
      exact Function.update_of_ne same _ _
  · intro idx' i hi
    rw [others]
    show Function.update s.groups _ _ _ = _
    by_cases here : idx' = idx ∧ i = s.indices idx
    · obtain ⟨rfl, rfl⟩ := here
      rw [Function.update_self, if_pos rfl, h.count, List.getElem?_concat_length]
      rfl
    · have ne : idx'.val * G.nodes + i ≠ idx.val * G.nodes + s.indices idx := fun e =>
        here ⟨Fin.ext (slot_inj hi room e).1, (slot_inj hi room e).2⟩
      rw [Function.update_of_ne ne, h.slots idx' i hi]
      by_cases same : idx' = idx
      · subst same
        have ne : i ≠ s.indices idx' := fun e => here ⟨rfl, e⟩
        rw [h.count] at ne
        rw [if_pos rfl]
        rcases Nat.lt_or_gt_of_ne ne with lt | gt
        · rw [List.getElem?_append_left lt]
        · rw [List.getElem?_eq_none gt.le, List.getElem?_eq_none]
          rw [List.length_append, List.length_singleton]
          exact gt
      · rw [if_neg same, List.append_nil]

/-- All vertices are grouped. -/
lemma exists_grouped (T : Test G) :
    ∃ s, (List.finRange G.nodes).foldlM (groupBy G T.reaches) ⟨fun _ => 0, fun _ => unset⟩ = some s ∧
      Grouped T (List.finRange G.nodes) s := by
  have loop : ∀ us vs s, Grouped T vs s → (vs ++ us).Nodup →
      ∃ t, us.foldlM (groupBy G T.reaches) s = some t ∧ Grouped T (vs ++ us) t := by
    intro us
    induction us with
    | nil =>
      intro vs s h _
      refine ⟨s, rfl, ?_⟩
      rwa [List.append_nil]
    | cons u us ih =>
      intro vs s h nodup
      rw [List.append_cons] at nodup
      obtain ⟨t, step, h'⟩ := h.group (List.nodup_append.mp nodup).1
      obtain ⟨t', rest, h''⟩ := ih _ t h' nodup
      rw [← List.append_cons] at h''
      exact ⟨t', by rw [List.foldlM_cons, step]; exact rest, h''⟩
  have start : Grouped T [] ⟨fun _ => 0, fun _ => unset⟩ := ⟨fun _ => rfl, fun _ _ _ => rfl⟩
  exact loop (List.finRange G.nodes) [] _ start (List.nodup_finRange _)

/-- The vertices of a list get the numbers from `idx` on. -/
def assign (ret : ℕ → ℕ) (idx : ℕ) : List ℕ → ℕ → ℕ
  | [] => ret
  | v :: vs => assign (Function.update ret v idx) (idx + 1) vs

/-- Numbers are given to two parts one after the other. -/
lemma assign_append (ret : ℕ → ℕ) (idx : ℕ) (us ws : List ℕ) :
    assign ret idx (us ++ ws) = assign (assign ret idx us) (idx + us.length) ws := by
  induction us generalizing ret idx with
  | nil => rfl
  | cons u us ih =>
    rw [List.cons_append, assign, ih, assign, List.length_cons, Nat.add_assoc, Nat.add_comm 1]

/-- A vertex that is not in the list keeps its number. -/
lemma assign_of_not_mem (ret : ℕ → ℕ) (idx : ℕ) {us : List ℕ} {u : ℕ} (h : u ∉ us) :
    assign ret idx us u = ret u := by
  induction us generalizing ret idx with
  | nil => rfl
  | cons w us ih =>
    rw [List.mem_cons, not_or] at h
    rw [assign, ih _ _ h.2, Function.update_of_ne h.1]

/-- Each of them gets its position. -/
lemma assign_getElem (ret : ℕ → ℕ) (idx : ℕ) {us : List ℕ} (nodup : us.Nodup) {i : ℕ} (h : i < us.length) :
    assign ret idx us us[i] = idx + i := by
  induction us generalizing ret idx i with
  | nil => exact absurd h (Nat.not_lt_zero _)
  | cons w us ih =>
    obtain ⟨new, nodup⟩ := List.nodup_cons.mp nodup
    cases i with
    | zero => rw [List.getElem_cons_zero, assign, assign_of_not_mem _ _ new, Function.update_self, Nat.add_zero]
    | succ i =>
      rw [List.getElem_cons_succ, assign, ih _ _ nodup, Nat.add_assoc, Nat.add_comm 1]

/-- A scan goes over the vertices in front of a free slot. -/
lemma number_run {groups : ℕ → ℕ} (us : List ℕ) (gIdx idx : ℕ) (ret : ℕ → ℕ) (small : G.nodes ≤ unset)
    (held : ∀ i (h : i < us.length), groups (gIdx + i) = us[i] ∧ us[i] < G.nodes)
    (free : groups (gIdx + us.length) = unset) (inside : gIdx + us.length < 8 * G.nodes) :
    number G groups gIdx idx ret = some (idx + us.length, assign ret idx us) := by
  induction us generalizing gIdx idx ret with
  | nil =>
    rw [List.length_nil, Nat.add_zero] at free inside
    rw [number, if_neg (Nat.not_le.mpr inside), if_pos free]
    rfl
  | cons u us ih =>
    obtain ⟨here, lt⟩ := held 0 (Nat.zero_lt_succ _)
    rw [Nat.add_zero, List.getElem_cons_zero] at here
    rw [List.getElem_cons_zero] at lt
    rw [List.length_cons] at free inside
    rw [number, if_neg (by omega), if_neg (by omega), if_neg (by omega), here, ih (gIdx + 1)]
    · rw [List.length_cons, assign, Nat.add_assoc, Nat.add_comm 1]
    · intro i h
      have next := held (i + 1) (Nat.succ_lt_succ h)
      rwa [List.getElem_cons_succ, Nat.add_comm i, ← Nat.add_assoc] at next
    · rwa [Nat.add_assoc, Nat.add_comm 1]
    · omega

/-- The vertices of the first groups, group by group. -/
def order (T : Test G) (k : ℕ) : List (Fin G.nodes) := (List.range k).flatMap (members T (List.finRange G.nodes))

/-- The members of a group. -/
lemma mem_members {idx : ℕ} :
    v ∈ members T (List.finRange G.nodes) idx ↔ (groupOf T v).map Fin.val = some idx := by
  rw [members, List.mem_filter, decide_eq_true_eq]
  exact and_iff_right (List.mem_finRange v)

/-- A group that holds all vertices leaves none for the next one. -/
lemma members_next {idx : ℕ} (full : (members T (List.finRange G.nodes) idx).length = G.nodes) :
    members T (List.finRange G.nodes) (idx + 1) = [] := by
  have all : members T (List.finRange G.nodes) idx = List.finRange G.nodes := by
    refine List.filter_sublist.eq_of_length ?_
    rw [List.length_finRange]
    exact full
  rw [List.eq_nil_iff_forall_not_mem]
  intro v mem
  have here : v ∈ members T (List.finRange G.nodes) idx := by
    rw [all]
    exact List.mem_finRange v
  rw [mem_members] at mem here
  rw [here] at mem
  exact absurd (Option.some.inj mem) (by omega)

/-- The scan of a group goes over its vertices. -/
lemma Grouped.number (h : Grouped T (List.finRange G.nodes) s) (pos : 0 < G.nodes) (small : G.nodes ≤ unset)
    {i : ℕ} (lt : i < 8) (idx : ℕ) (ret : ℕ → ℕ) :
    number G s.groups (G.nodes * i) idx ret =
      some (idx + (members T (List.finRange G.nodes) i).length,
        assign ret idx ((members T (List.finRange G.nodes) i).map Fin.val)) := by
  have slots := h.slots ⟨i, lt⟩
  have le : (members T (List.finRange G.nodes) i).length ≤ G.nodes := by
    have le := List.length_filter_le (fun v => (groupOf T v).map Fin.val = some i) (List.finRange G.nodes)
    rwa [List.length_finRange] at le
  have len : ((members T (List.finRange G.nodes) i).map Fin.val).length =
      (members T (List.finRange G.nodes) i).length := List.length_map _
  have free : s.groups (G.nodes * i + (members T (List.finRange G.nodes) i).length) = unset ∧
      G.nodes * i + (members T (List.finRange G.nodes) i).length < 8 * G.nodes := by
    rw [Nat.mul_comm]
    rcases Nat.lt_or_eq_of_le le with room | full
    · rw [slots _ room, List.getElem?_eq_none (Nat.le_refl _)]
      exact ⟨rfl, slot_lt lt room⟩
    · -- the scan goes on to the first slot of the next group
      have next : i + 1 < 8 := by
        by_contra last
        obtain rfl : i = 7 := by omega
        exact Nat.ne_of_lt (members_last_lt pos) full
      have first := h.slots ⟨i + 1, next⟩ 0 pos
      rw [members_next full, Nat.add_zero] at first
      have e : i * G.nodes + G.nodes = (i + 1) * G.nodes := (Nat.succ_mul _ _).symm
      rw [full, e]
      exact ⟨first, slot_lt next pos⟩
  rw [number_run ((members T (List.finRange G.nodes) i).map Fin.val) _ _ _ small, len]
  · intro j hj
    rw [len] at hj
    have here := slots j (Nat.lt_of_lt_of_le hj le)
    rw [List.getElem?_eq_getElem hj, Nat.mul_comm] at here
    rw [List.getElem_map]
    exact ⟨here, Fin.isLt _⟩
  · rw [len]
    exact free.1
  · rw [len]
    exact free.2

/-- The scans number the vertices group by group. -/
lemma Grouped.numbers (h : Grouped T (List.finRange G.nodes) s) (pos : 0 < G.nodes) (small : G.nodes ≤ unset)
    (ret : ℕ → ℕ) {k : ℕ} (le : k ≤ 8) :
    (List.range k).foldlM (fun (idx, ret) i => Dbg.number G s.groups (G.nodes * i) idx ret) (0, ret) =
      some ((order T k).length, assign ret 0 ((order T k).map Fin.val)) := by
  induction k with
  | zero => rfl
  | succ k ih =>
    have next : order T (k + 1) = order T k ++ members T (List.finRange G.nodes) k := by
      rw [order, List.range_succ, List.flatMap_append, List.flatMap_singleton]
      rfl
    rw [List.range_succ, List.foldlM_append, ih (by omega), next, List.map_append, assign_append,
      List.length_append, List.length_map, Nat.zero_add, Option.bind_eq_bind, Option.bind_some,
      List.foldlM_cons]
    show (Dbg.number G s.groups (G.nodes * k) (order T k).length
      (assign ret 0 ((order T k).map Fin.val))).bind _ = _
    rw [h.number pos small (by omega)]
    rfl

/-- Every vertex is in the order. -/
lemma mem_order : v ∈ order T 8 := by
  obtain ⟨idx, h⟩ := Option.isSome_iff_exists.mp (groupOf_isSome v)
  refine List.mem_flatMap.mpr ⟨idx, List.mem_range.mpr idx.isLt, mem_members.mpr ?_⟩
  rw [h]
  rfl

/-- No vertex is in it twice. -/
lemma nodup_order : (order T 8).Nodup := by
  rw [order, List.nodup_flatMap]
  refine ⟨fun i _ => (List.nodup_finRange _).filter _, ?_⟩
  refine List.nodup_range.imp ?_
  intro i j ne v hi hj
  rw [mem_members] at hi hj
  rw [hi] at hj
  exact ne (Option.some.inj hj)

/-- A vertex is in an earlier group, or before the other one in the same group. -/
def Before (T : Test G) (u v : Fin G.nodes) : Prop :=
  ∃ i j, groupOf T u = some i ∧ groupOf T v = some j ∧ (i < j ∨ i = j ∧ u < v)

/-- Of two vertices one at most is before the other. -/
lemma Before.asymm (h : Before T u v) : ¬ Before T v u := by
  obtain ⟨i, j, hu, hv, lt⟩ := h
  rintro ⟨j', i', hv', hu', gt⟩
  obtain rfl := Option.some.inj (hu.symm.trans hu')
  obtain rfl := Option.some.inj (hv.symm.trans hv')
  rcases lt with lt | ⟨rfl, lt⟩
  · rcases gt with gt | ⟨rfl, _⟩
    · exact lt_asymm lt gt
    · exact lt_irrefl _ lt
  · rcases gt with gt | ⟨_, gt⟩
    · exact lt_irrefl _ gt
    · exact lt_asymm lt gt

/-- The groups come one after the other, and in each of them the vertices are in their order. -/
lemma order_pairwise : (order T k).Pairwise (Before T) := by
  rw [order, List.pairwise_flatMap]
  constructor
  · intro i mem
    refine ((List.pairwise_lt_finRange _).filter _).imp_of_mem ?_
    intro u v hu hv lt
    obtain ⟨idx, h, e⟩ := Option.map_eq_some_iff.mp (mem_members.mp hu)
    obtain ⟨idx', h', e'⟩ := Option.map_eq_some_iff.mp (mem_members.mp hv)
    exact ⟨idx, idx', h, h', .inr ⟨Fin.ext (e.trans e'.symm), lt⟩⟩
  · refine List.pairwise_lt_range.imp ?_
    intro i j lt u hu v hv
    obtain ⟨idx, h, e⟩ := Option.map_eq_some_iff.mp (mem_members.mp hu)
    obtain ⟨idx', h', e'⟩ := Option.map_eq_some_iff.mp (mem_members.mp hv)
    exact ⟨idx, idx', h, h', .inl (Fin.lt_def.mpr (by omega))⟩

/-- `_kernel_` gives the vertices their positions in the order of the groups. -/
theorem kernelBy_spec (T : Test G) (pos : 0 < G.nodes) (small : G.nodes ≤ unset) (ret : ℕ → ℕ) :
    ∃ ret' σ, kernelBy G T.reaches ret = some ret' ∧ (∀ v, ret' v.val = ((σ : Equiv.Perm (Fin G.nodes)) v).val) ∧
      ∀ u v, Before T u v → σ u < σ v := by
  obtain ⟨s, grouped, h⟩ := exists_grouped T
  have perm : (order T 8).Perm (List.finRange G.nodes) :=
    (List.perm_ext_iff_of_nodup nodup_order (List.nodup_finRange _)).mpr fun v =>
      iff_of_true mem_order (List.mem_finRange v)
  have len : (order T 8).length = G.nodes := by rw [perm.length_eq, List.length_finRange]
  have nodup : ((order T 8).map Fin.val).Nodup := nodup_order.map Fin.val_injective
  have numbers := h.numbers pos small ret (Nat.le_refl 8)
  -- the number of a vertex is its position
  have bound : ∀ v, (order T 8).idxOf v < G.nodes := fun v =>
    Nat.lt_of_lt_of_eq (List.idxOf_lt_length_of_mem mem_order) len
  let place : Fin G.nodes → Fin G.nodes := fun v => ⟨(order T 8).idxOf v, bound v⟩
  have injective : Function.Injective place := by
    intro v w e
    exact (List.idxOf_inj mem_order).mp (Fin.mk.inj e)
  refine ⟨assign ret 0 ((order T 8).map Fin.val),
    Equiv.ofBijective place (Finite.injective_iff_bijective.mp injective), ?_, fun v => ?_, fun u v before => ?_⟩
  · rw [kernelBy, grouped]
    simp only [Option.bind_eq_bind, Option.bind_some, numbers]
  · have lt : (order T 8).idxOf v < ((order T 8).map Fin.val).length := by
      rw [List.length_map]
      exact List.idxOf_lt_length_of_mem mem_order
    have here := assign_getElem ret 0 nodup lt
    rwa [List.getElem_map, List.getElem_idxOf, Nat.zero_add] at here
  · show (order T 8).idxOf u < (order T 8).idxOf v
    by_contra not
    rcases Nat.lt_or_eq_of_le (Nat.le_of_not_lt not) with lt | e
    · have bound := List.idxOf_lt_length_of_mem (mem_order (T := T) (v := u))
      have after := List.pairwise_iff_getElem.mp order_pairwise _ _ (Nat.lt_trans lt bound) bound lt
      rw [List.getElem_idxOf, List.getElem_idxOf] at after
      exact before.asymm after
    · obtain rfl := (List.idxOf_inj mem_order).mp e
      exact before.asymm before

/-- `_kernel_` permutes the vertices. -/
theorem kernel_spec (pos : 0 < G.nodes) (small : G.nodes ≤ unset) (ret : ℕ → ℕ) :
    ∃ ret' σ, kernel G ret = some ret' ∧ ∀ v, ret' v.val = ((σ : Equiv.Perm (Fin G.nodes)) v).val := by
  obtain ⟨ret', σ, run, permutes, _⟩ := kernelBy_spec (floatTest G) pos small ret
  exact ⟨ret', σ, run, permutes⟩

/-- With the exact average, `_kernel_` permutes the vertices: those of a group of higher degrees come first, and those of
    a group stay in their order. -/
theorem kernelExact_spec (G : CsrGraph) (pos : 1 ≤ G.nodes) (small : G.nodes < 2 ^ 64) (ret : ℕ → ℕ) :
    ∃ (ret' : ℕ → ℕ) (σ : Equiv.Perm (Fin G.nodes)), kernelExact G ret = some ret' ∧ (∀ v, ret' v.val = (σ v).val) ∧
      (∀ v, (groupExact G v).isSome) ∧
      ∀ u v i j, groupExact G u = some i → groupExact G v = some j → (i < j ∨ i = j ∧ u < v) → σ u < σ v := by
  have le : G.nodes ≤ unset := Nat.le_sub_one_of_lt small
  obtain ⟨ret', σ, run, permutes, ordered⟩ := kernelBy_spec (exactTest G) pos le ret
  refine ⟨ret', σ, run, permutes, groupOf_isSome (T := exactTest G), ?_⟩
  intro u v i j hu hv before
  exact ordered u v ⟨i, j, hu, hv, before⟩

/-- The sample. -/
theorem kernelExact_spec_sample :
    ∃ (ret' : ℕ → ℕ) (σ : Equiv.Perm (Fin CsrGraph.sample.nodes)),
      kernelExact .sample (fun _ => 0) = some ret' ∧ (∀ v, ret' v.val = (σ v).val) ∧
      (∀ v, (groupExact .sample v).isSome) ∧
      ∀ u v i j, groupExact .sample u = some i → groupExact .sample v = some j → (i < j ∨ i = j ∧ u < v) → σ u < σ v :=
  kernelExact_spec .sample (by decide) (by decide) _

end PromotionCache.Graph.Dbg
