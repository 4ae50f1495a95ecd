import Mathlib.Data.List.Count
import Mathlib.Order.Basic

/-!
# Lists in ascending order

A property that holds of the elements before one that has it holds of a first part of the list, and their number is
the length of that part (`lt_countP_iff`). Between the numbers of the elements with smaller keys and of those whose
keys are not greater the elements with a key are found, in the order of the list (`slice_eq_filter`).
-/

namespace PromotionCache.Lib

variable {α : Type*} {p : α → Bool} {a : α} {as : List α} {f : α → ℕ} {i v : ℕ}

/-- The elements that have a property come first. -/
def Leads (p : α → Bool) (as : List α) : Prop := as.Pairwise fun a b => p b = true → p a = true

/-- Keys below a bound come first in ascending order. -/
lemma leads_lt (sorted : as.Pairwise fun a b => f a ≤ f b) (v : ℕ) : Leads (fun a => f a < v) as :=
  sorted.imp fun le lt => decide_eq_true (Nat.lt_of_le_of_lt le (of_decide_eq_true lt))

namespace Leads

/-- The rest of an ascending list. -/
lemma tail (h : Leads p (a :: as)) : Leads p as := (List.pairwise_cons.mp h).2

/-- No element has the property if the first one has not. -/
lemma none_of_head (h : Leads p (a :: as)) (not : ¬ p a = true) : ∀ b ∈ a :: as, ¬ p b = true := by
  intro b mem has
  rcases List.mem_cons.mp mem with rfl | mem
  · exact not has
  · exact not ((List.pairwise_cons.mp h).1 b mem has)

/-- An element is among the first ones if and only if the property holds of it. -/
lemma lt_countP_iff (h : Leads p as) (lt : i < as.length) : i < as.countP p ↔ p as[i] = true := by
  induction as generalizing i with
  | nil => exact absurd lt (Nat.not_lt_zero _)
  | cons a as ih =>
    by_cases first : p a = true
    · rw [List.countP_cons_of_pos first]
      cases i with
      | zero => exact iff_of_true (Nat.succ_pos _) first
      | succ i => rw [Nat.succ_lt_succ_iff, ih h.tail (Nat.lt_of_succ_lt_succ lt), List.getElem_cons_succ]
    · have none := h.none_of_head first
      rw [List.countP_eq_zero.mpr none]
      exact iff_of_false (Nat.not_lt_zero _) (none _ (List.getElem_mem lt))

/-- The first ones are those with the property. -/
lemma take_countP (h : Leads p as) : as.take (as.countP p) = as.filter p := by
  induction as with
  | nil => rfl
  | cons a as ih =>
    by_cases first : p a = true
    · rw [List.countP_cons_of_pos first, List.take_succ_cons, ih h.tail, List.filter_cons_of_pos first]
    · have none := h.none_of_head first
      rw [List.countP_eq_zero.mpr none, List.take_zero, List.filter_eq_nil_iff.mpr none]

/-- The last ones are those without it. -/
lemma drop_countP (h : Leads p as) : as.drop (as.countP p) = as.filter fun a => !p a := by
  induction as with
  | nil => rfl
  | cons a as ih =>
    by_cases first : p a = true
    · rw [List.countP_cons_of_pos first, List.drop_succ_cons, ih h.tail, List.filter_cons_of_neg (by simp [first])]
    · have none := h.none_of_head first
      rw [List.countP_eq_zero.mpr none, List.drop_zero, List.filter_eq_self.mpr]
      intro b mem
      simpa using none b mem

end Leads

/-- The elements with a key, between the counts of smaller keys and of keys that are not greater. -/
theorem slice_eq_filter (sorted : as.Pairwise fun a b => f a ≤ f b) (v : ℕ) :
    (as.take (as.countP (f · < v + 1))).drop (as.countP (f · < v)) = as.filter (f · = v) := by
  have below : as.countP (f · < v) = (as.filter (f · < v + 1)).countP (f · < v) := by
    rw [List.countP_filter]
    refine List.countP_congr fun a _ => ?_
    simp only [decide_eq_true_eq, Bool.and_eq_true]
    omega
  rw [(leads_lt sorted (v + 1)).take_countP, below, (leads_lt (sorted.filter _) v).drop_countP, List.filter_filter]
  refine List.filter_congr fun a _ => ?_
  rw [Bool.eq_iff_iff]
  simp only [decide_eq_true_eq, Bool.and_eq_true, Bool.not_eq_true', decide_eq_false_iff_not]
  omega

end PromotionCache.Lib
