import Mathlib.Algebra.BigOperators.Group.Finset.Piecewise
import Mathlib.Data.List.Count
import Mathlib.Logic.Function.Basic

/-!
# Counting sort

Items with keys are put into an array in the order of their keys, those of a key in the order in which they come: the
first slot of a key is the number of the items with smaller keys (`base`), and one counter for each key says how many
of its items have been put (`put`). Every slot is written once, and the slots of a key have its items (`Placed`).
-/

namespace PromotionCache.Lib

variable {A : Type*}

/-- The items of a key. -/
def bucket (ps : List (A × ℕ)) (v : ℕ) : List A := (ps.filter (·.2 = v)).map Prod.fst

/-- The number of items with smaller keys. -/
def base (ps : List (A × ℕ)) (v : ℕ) : ℕ := ∑ u ∈ Finset.range v, (bucket ps u).length

/-- The array and the counters. -/
structure Slots (A : Type*) where
  array : ℕ → A
  offsets : ℕ → ℕ

/-- An item is put into the next slot of its key. -/
def Slots.put (starts : ℕ → ℕ) (s : Slots A) (p : A × ℕ) : Slots A where
  array := Function.update s.array (starts p.2 + s.offsets p.2) p.1
  offsets := Function.update s.offsets p.2 (s.offsets p.2 + 1)

variable {ps done rest : List (A × ℕ)} {p : A × ℕ} {n u v i j : ℕ} {s : Slots A} {unset : A}

/-- The bucket of two lists. -/
lemma bucket_append : bucket (ps ++ rest) v = bucket ps v ++ bucket rest v := by
  rw [bucket, List.filter_append, List.map_append]
  rfl

/-- One more element goes to the end of its bucket. -/
lemma bucket_concat_self : bucket (ps ++ [p]) p.2 = bucket ps p.2 ++ [p.1] := by
  rw [bucket_append]
  simp [bucket]

/-- It goes to no other. -/
lemma bucket_concat_of_ne (ne : p.2 ≠ v) : bucket (ps ++ [p]) v = bucket ps v := by
  rw [bucket_append]
  simp [bucket, ne]

/-- What is in a bucket has its key. -/
lemma mem_bucket {a : A} : a ∈ bucket ps v ↔ (a, v) ∈ ps := by
  rw [bucket, List.mem_map]
  constructor
  · rintro ⟨⟨b, w⟩, mem, rfl⟩
    obtain ⟨held, key⟩ := List.mem_filter.mp mem
    obtain rfl := of_decide_eq_true key
    exact held
  · intro mem
    exact ⟨(a, v), List.mem_filter.mpr ⟨mem, decide_eq_true rfl⟩, rfl⟩

/-- How often it is there. -/
lemma count_bucket [DecidableEq A] (a : A) : (bucket ps v).count a = ps.count (a, v) := by
  induction ps with
  | nil => rfl
  | cons p ps ih =>
    have cons : bucket (p :: ps) v = if p.2 = v then p.1 :: bucket ps v else bucket ps v := by
      rw [bucket, List.filter_cons, bucket]
      split <;> simp_all
    rw [cons, List.count_cons, ← ih]
    by_cases key : p.2 = v
    · rw [if_pos key, List.count_cons]
      congr 1
      obtain ⟨b, w⟩ := p
      obtain rfl : w = v := key
      simp
    · have ne : (p == (a, v)) = false := by
        rw [beq_eq_false_iff_ne]
        rintro rfl
        exact key rfl
      rw [if_neg key, ne]
      rfl

/-- Items that come in order are in order in their buckets. -/
lemma bucket_pairwise {r : A → A → Prop} (sorted : (ps.map Prod.fst).Pairwise r) : (bucket ps v).Pairwise r := by
  rw [bucket]
  exact sorted.sublist (List.filter_sublist.map _)

/-- The first bucket starts at 0. -/
lemma base_zero : base ps 0 = 0 := rfl

/-- The next one starts where it ends. -/
lemma base_succ : base ps (v + 1) = base ps v + (bucket ps v).length := Finset.sum_range_succ _ _

/-- The buckets start one after the other. -/
lemma base_le (le : u ≤ v) : base ps u ≤ base ps v := by
  induction v, le using Nat.le_induction with
  | base => exact Nat.le_refl _
  | succ v _ ih =>
    rw [base_succ]
    omega

/-- Before the first slot that no key has come all items. -/
lemma base_eq_length (keys : ∀ p ∈ ps, p.2 < n) : base ps n = ps.length := by
  induction ps with
  | nil =>
    rw [base]
    exact Finset.sum_eq_zero fun _ _ => rfl
  | cons p ps ih =>
    have length : ∀ u, (bucket (p :: ps) u).length = (if p.2 = u then 1 else 0) + (bucket ps u).length := by
      intro u
      rw [bucket, List.filter_cons, bucket]
      split <;> simp_all [Nat.add_comm]
    have own := keys p List.mem_cons_self
    rw [base, Finset.sum_congr rfl fun u _ => length u, Finset.sum_add_distrib, Finset.sum_ite_eq,
      if_pos (Finset.mem_range.mpr own), ← base, ih fun q mem => keys q (List.mem_cons_of_mem _ mem),
      List.length_cons, Nat.add_comm]

/-- Every slot is one of some key. -/
lemma exists_slot (lt : i < base ps n) : ∃ v < n, ∃ j < (bucket ps v).length, i = base ps v + j := by
  induction n with
  | zero => exact absurd lt (Nat.not_lt_zero i)
  | succ n ih =>
    rcases Nat.lt_or_ge i (base ps n) with before | here
    · obtain ⟨v, hv, slot⟩ := ih before
      exact ⟨v, Nat.lt_succ_of_lt hv, slot⟩
    · rw [base_succ] at lt
      exact ⟨n, Nat.lt_succ_self n, i - base ps n, by omega, by omega⟩

/-- Slots of different keys, and of different items, are different. -/
lemma slot_inj (hi : i < (bucket ps u).length) (hj : j < (bucket ps v).length)
    (same : base ps u + i = base ps v + j) : u = v ∧ i = j := by
  have disjoint : ∀ {u v i j : ℕ}, i < (bucket ps u).length → base ps u + i = base ps v + j → ¬ u < v := by
    intro u v i j hi same lt
    have le : base ps (u + 1) ≤ base ps v := base_le lt
    rw [base_succ] at le
    omega
  rcases Nat.lt_trichotomy u v with lt | rfl | gt
  · exact absurd lt (disjoint hi same)
  · exact ⟨rfl, by omega⟩
  · exact absurd gt (disjoint hj same.symm)

/-- After some of the items, the slots of a key have its items so far, and the others are unset. -/
structure Placed (ps done : List (A × ℕ)) (unset : A) (s : Slots A) : Prop where
  offsets : ∀ v, s.offsets v = (bucket done v).length
  slots : ∀ v, ∀ j < (bucket ps v).length, s.array (base ps v + j) = (bucket done v)[j]?.getD unset

/-- At the start nothing is placed. -/
lemma Placed.start : Placed ps [] unset ⟨fun _ => unset, fun _ => 0⟩ where
  offsets _ := rfl
  slots _ _ _ := rfl

/-- The next slot of a key that has an item left is one of its slots. -/
lemma Placed.lt (h : Placed ps done unset s) (all : ps = done ++ p :: rest) :
    s.offsets p.2 < (bucket ps p.2).length := by
  rw [h.offsets, all, List.append_cons, bucket_append, bucket_concat_self, List.length_append, List.length_append,
    List.length_singleton]
  omega

/-- One more element is placed. -/
lemma Placed.put (h : Placed ps done unset s) (all : ps = done ++ p :: rest) :
    Placed ps (done ++ [p]) unset (s.put (base ps) p) where
  offsets v := by
    show Function.update s.offsets p.2 _ v = _
    by_cases own : v = p.2
    · subst own
      rw [Function.update_self, bucket_concat_self, List.length_append, List.length_singleton, h.offsets]
    · rw [Function.update_of_ne own, bucket_concat_of_ne (Ne.symm own), h.offsets]
  slots v j hj := by
    have room := h.lt all
    show Function.update s.array _ _ _ = _
    by_cases own : v = p.2 ∧ j = s.offsets p.2
    · obtain ⟨rfl, rfl⟩ := own
      rw [Function.update_self, bucket_concat_self, h.offsets, List.getElem?_concat_length, Option.getD_some]
    · rw [Function.update_of_ne fun same => own (slot_inj hj room same), h.slots v j hj]
      by_cases key : v = p.2
      · subst key
        have ne : j ≠ (bucket done p.2).length := fun e => own ⟨rfl, by rw [e, h.offsets]⟩
        rw [bucket_concat_self, List.getElem?_append]
        rcases Nat.lt_or_gt_of_ne ne with lt | gt
        · rw [if_pos lt]
        · rw [if_neg (by omega), List.getElem?_eq_none (by omega), List.getElem?_eq_none]
          rw [List.length_singleton]
          omega
      · rw [bucket_concat_of_ne (Ne.symm key)]

/-- When all items are put, every slot has an item of some key. -/
lemma Placed.mem_array (h : Placed ps ps unset s) (lt : i < base ps n) : ∃ v < n, (s.array i, v) ∈ ps := by
  obtain ⟨v, hv, j, hj, rfl⟩ := exists_slot lt
  refine ⟨v, hv, ?_⟩
  rw [h.slots v j hj, List.getElem?_eq_getElem hj, Option.getD_some]
  exact mem_bucket.mp (List.getElem_mem hj)

/-- A key has all of its own. -/
lemma Placed.slice (h : Placed ps ps unset s) (v : ℕ) :
    (List.range' (base ps v) (bucket ps v).length).map s.array = bucket ps v := by
  refine List.ext_getElem (by rw [List.length_map, List.length_range']) fun j hj hj' => ?_
  rw [List.getElem_map, List.getElem_range', Nat.one_mul, h.slots v j hj', List.getElem?_eq_getElem hj',
    Option.getD_some]

end PromotionCache.Lib
