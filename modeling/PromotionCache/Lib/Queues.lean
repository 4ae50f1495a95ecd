import Mathlib.Algebra.Order.BigOperators.Group.List
import Mathlib.Algebra.Order.Ring.Nat
import Mathlib.Data.List.Basic
import Mathlib.Logic.Function.Basic
import Mathlib.Tactic.Lemma

/-!
# Emptying several queues

A family of queues is emptied by taking the head of one of them at a time. `Drains` are the orders in
which the elements may come if a rule says which queues may be next; `rounds` is the order in which every
queue gives one element in each round.
-/

namespace PromotionCache.Lib

variable {K α : Type*}

/-- The queues give their elements in this order, each time the head of a queue that may be next. -/
inductive Drains [DecidableEq K] (may : (K → List α) → K → Prop) : (K → List α) → List α → Prop where
  | empty {q} :
    (∀ k, q k = []) →
    Drains may q []
  | take {q k x rest xs} :
    q k = x :: rest →
    may q k →
    Drains may (Function.update q k rest) xs →
    Drains may q (x :: xs)

/-- So many rounds over the queues. -/
def rounds (ks : List K) : ℕ → (K → List α) → List α
  | 0, _ => []
  | n + 1, q => (ks.filterMap fun k => (q k).head?) ++ rounds ks n fun k => (q k).tail

section
variable [DecidableEq K] {may : (K → List α) → K → Prop} {q : K → List α} {xs : List α} {x : α} {ks : List K} {n : ℕ}

/-- All elements come, whatever the rule. -/
lemma Drains.mem (h : Drains may q xs) : x ∈ xs ↔ ∃ k, x ∈ q k := by
  induction h with
  | empty none => simp [none]
  | @take q k y rest xs head _ _ ih =>
    rw [List.mem_cons, ih]
    constructor
    · rintro (rfl | ⟨k', mem⟩)
      · exact ⟨k, by rw [head]; exact List.mem_cons_self⟩
      · rcases eq_or_ne k' k with rfl | ne
        · rw [Function.update_self] at mem
          exact ⟨k', by rw [head]; exact List.mem_cons_of_mem _ mem⟩
        · rw [Function.update_of_ne ne] at mem
          exact ⟨k', mem⟩
    · intro ⟨k', mem⟩
      rcases eq_or_ne k' k with rfl | ne
      · rw [head] at mem
        refine (List.mem_cons.mp mem).imp_right fun mem => ⟨k', ?_⟩
        rw [Function.update_self]
        exact mem
      · refine .inr ⟨k', ?_⟩
        rw [Function.update_of_ne ne]
        exact mem

/-- What is left in the queues gets less with every head that is taken. -/
lemma sum_length_update {k : K} {rest : List α} (mem : k ∈ ks) (head : q k = x :: rest) :
    (ks.map fun k' => (Function.update q k rest k').length).sum < (ks.map fun k' => (q k').length).sum := by
  apply List.sum_lt_sum
  · intro k' _
    rcases eq_or_ne k' k with rfl | ne
    · rw [Function.update_self, head]
      exact Nat.le_succ _
    · rw [Function.update_of_ne ne]
  · refine ⟨k, mem, ?_⟩
    rw [Function.update_self, head]
    exact Nat.lt_succ_self _

/-- Finitely many queues have an order, if one may be next as long as there are elements. -/
theorem exists_drains (only : ∀ k, k ∉ ks → q k = [])
    (choose : ∀ q : K → List α, (∀ k, k ∉ ks → q k = []) → (∃ k, q k ≠ []) → ∃ k, q k ≠ [] ∧ may q k) :
    ∃ xs, Drains may q xs := by
  induction e : (ks.map fun k => (q k).length).sum using Nat.strongRecOn generalizing q with
  | _ n ih =>
    by_cases some : ∃ k, q k ≠ []
    · obtain ⟨k, ne, may⟩ := choose q only some
      obtain ⟨x, rest, head⟩ := List.exists_cons_of_ne_nil ne
      have mem : k ∈ ks := by
        by_contra out
        exact ne (only k out)
      have only' : ∀ k', k' ∉ ks → Function.update q k rest k' = [] := by
        intro k' out
        have other : k' ≠ k := fun e => out (e ▸ mem)
        rw [Function.update_of_ne other]
        exact only k' out
      obtain ⟨xs, drains⟩ := ih _ (e ▸ sum_length_update mem head) only' rfl
      exact ⟨x :: xs, .take head may drains⟩
    · exact ⟨[], .empty fun k => not_not.mp fun ne => some ⟨k, ne⟩⟩

omit [DecidableEq K] in
/-- Enough rounds give all elements. -/
lemma mem_rounds : x ∈ rounds ks n q ↔ ∃ k ∈ ks, x ∈ (q k).take n := by
  induction n generalizing q with
  | zero => simp [rounds]
  | succ n ih =>
    have split : ∀ l : List α, x ∈ l.take (n + 1) ↔ l.head? = some x ∨ x ∈ l.tail.take n := by
      intro l
      cases l with
      | nil => simp
      | cons y l =>
        rw [List.take_succ_cons, List.mem_cons, List.head?_cons, Option.some.injEq, List.tail_cons,
          eq_comm]
    simp only [rounds, List.mem_append, List.mem_filterMap, ih, split]
    constructor
    · rintro (⟨k, mem, head⟩ | ⟨k, mem, tail⟩)
      · exact ⟨k, mem, .inl head⟩
      · exact ⟨k, mem, .inr tail⟩
    · rintro ⟨k, mem, head | tail⟩
      · exact .inl ⟨k, mem, head⟩
      · exact .inr ⟨k, mem, tail⟩

omit [DecidableEq K] in
/-- The first of enough rounds. -/
lemma rounds_first (le : ∀ k ∈ ks, (q k).length ≤ n) :
    rounds ks n q = (ks.filterMap fun k => (q k).head?) ++ rounds ks (n - 1) fun k => (q k).tail := by
  cases n with
  | zero =>
    have none : (ks.filterMap fun k => (q k).head?) = [] := by
      rw [List.filterMap_eq_nil_iff]
      intro k hk
      rw [List.eq_nil_of_length_eq_zero (Nat.le_zero.mp (le k hk))]
      rfl
    rw [none]
    rfl
  | succ n => rfl

omit [DecidableEq K] in
/-- Rounds over empty queues. -/
lemma rounds_nil (none : ∀ k ∈ ks, q k = []) : rounds ks n q = [] := by
  apply List.eq_nil_iff_forall_not_mem.mpr
  intro x mem
  obtain ⟨k, hk, mem⟩ := mem_rounds.mp mem
  rw [none k hk] at mem
  simp at mem

end

end PromotionCache.Lib
