import Mathlib.Algebra.Order.BigOperators.Group.List
import Mathlib.Algebra.Order.Ring.Nat
import Mathlib.Data.List.SplitBy
import Mathlib.Tactic.Common

/-!
# Maximal runs

`List.splitBy` cuts a list into its maximal runs of related neighbours. A chain that stands in the list
stands in one run (`exists_run_of_infix`), and a loop that keeps the last run in its state and hands it on
where the next element does not go with it hands on all of them in their order (`foldl_splitBy`).
-/

namespace PromotionCache.Lib

variable {α β : Type*} {r : α → α → Bool} {l c : List α}

/-- What is cut from two lists lies in the first, in the second, or across. -/
lemma infix_append_cases {xs ys : List α} (h : c <:+: xs ++ ys) :
    c <:+: xs ∨ c <:+: ys ∨
      ∃ c₁ c₂, c₁ ≠ [] ∧ c₂ ≠ [] ∧ c = c₁ ++ c₂ ∧ c₁ <:+ xs ∧ c₂ <+: ys := by
  obtain ⟨pre, post, e⟩ := h
  rw [List.append_assoc] at e
  rcases List.append_eq_append_iff.mp e with ⟨rest, e₁, e₂⟩ | ⟨rest, _, e₂⟩
  · rcases List.append_eq_append_iff.mp e₂ with ⟨rest', e₃, _⟩ | ⟨rest', e₃, e₄⟩
    · refine .inl ⟨pre, rest', ?_⟩
      rw [e₁, e₃, List.append_assoc]
    · by_cases none : rest = []
      · refine .inr (.inl ⟨[], post, ?_⟩)
        rw [none, List.nil_append] at e₃
        rw [e₃, List.nil_append, e₄]
      · by_cases none' : rest' = []
        · refine .inl ⟨pre, [], ?_⟩
          rw [e₃, none', List.append_nil, List.append_nil, e₁]
        · exact .inr (.inr ⟨rest, rest', none, none', e₃, ⟨pre, e₁.symm⟩, ⟨post, e₄.symm⟩⟩)
  · exact .inr (.inl ⟨rest, post, by rw [List.append_assoc, e₂]⟩)

/-- A chain that stands in a list stands in one of its runs. -/
theorem exists_run_of_infix (chain : c.IsChain fun a b => r a b) (ne : c ≠ []) (h : c <:+: l) :
    ∃ g ∈ l.splitBy r, c <:+: g := by
  rw [← List.flatten_splitBy r l] at h
  have bounds := List.isChain_getLast_head_splitBy r l
  generalize l.splitBy r = runs at h bounds ⊢
  induction runs with
  | nil => exact absurd (List.infix_nil.mp h) ne
  | cons g gs ih =>
    rw [List.flatten_cons] at h
    rcases infix_append_cases h with here | later | ⟨c₁, c₂, ne₁, ne₂, rfl, ⟨xs, e₁⟩, ⟨ys, e₂⟩⟩
    · exact ⟨g, List.mem_cons_self, here⟩
    · obtain ⟨g', mem, within⟩ := ih later bounds.tail
      exact ⟨g', List.mem_cons_of_mem _ mem, within⟩
    · -- the chain would go on across the border of two runs
      cases gs with
      | nil =>
        rw [List.flatten_nil] at e₂
        exact absurd (List.append_eq_nil_iff.mp e₂).1 ne₂
      | cons g' gs =>
        obtain ⟨ne, ne', border⟩ := (List.isChain_cons_cons.mp bounds).1
        have last : c₁.getLast? = some (g.getLast ne) := by
          rw [← List.getLast?_eq_some_getLast, ← e₁, List.getLast?_append_of_ne_nil _ ne₁]
        have first : c₂.head? = some (g'.head ne') := by
          have whole : (c₂ ++ ys).head? = c₂.head? := List.head?_append_of_ne_nil c₂ ne₂
          rw [← List.head?_eq_some_head, ← whole, e₂, List.flatten_cons, List.head?_append_of_ne_nil g' ne']
        have related := (List.isChain_append.mp chain).2.2 _ last _ first
        rw [border] at related
        cases related

/-- A loop over a list with the last run in its state: `Holds s d g` says that `s` has handed on `d` and
    still holds `g`. -/
theorem foldl_splitBy {S D : Type*} {step : S → α → S} (push : D → List α → D)
    (Holds : S → D → List α → Prop) {s₀ : S} {d₀ : D} (ne : l ≠ [])
    (first : ∀ a, Holds (step s₀ a) d₀ [a])
    (same : ∀ s d g b a, g ++ [b] <:+: l → r b a = true → Holds s d (g ++ [b]) →
      Holds (step s a) d (g ++ [b] ++ [a]))
    (next : ∀ s d g b a, g ++ [b] <:+: l → r b a = false → Holds s d (g ++ [b]) →
      Holds (step s a) (push d (g ++ [b])) [a]) :
    ∃ gs g, l.splitBy r = gs ++ [g] ∧ Holds (l.foldl step s₀) (gs.foldl push d₀) g := by
  -- the recursion of `splitBy`, with the run it holds reversed
  have loop : ∀ (rest : List α) (b : α) (g : List α) (gs : List (List α)) (s : S),
      (∃ pre, l = pre ++ (g.reverse ++ [b] ++ rest)) →
      Holds s (gs.reverse.foldl push d₀) (g.reverse ++ [b]) →
      ∃ gs' g', List.splitBy.loop r rest b g gs = gs' ++ [g'] ∧
        Holds (rest.foldl step s) (gs'.foldl push d₀) g' := by
    intro rest
    induction rest with
    | nil =>
      intro b g gs s _ held
      exact ⟨gs.reverse, g.reverse ++ [b], by simp [List.splitBy.loop], held⟩
    | cons a rest ih =>
      intro b g gs s here held
      obtain ⟨pre, e⟩ := here
      have part : g.reverse ++ [b] <:+: l := by
        refine ⟨pre, a :: rest, ?_⟩
        rw [e, List.append_assoc]
      rw [List.splitBy.loop, List.foldl_cons]
      cases related : r b a with
      | true =>
        refine ih a (b :: g) gs (step s a) ⟨pre, by rw [e]; simp⟩ ?_
        rw [List.reverse_cons]
        exact same s _ _ b a part related held
      | false =>
        refine ih a [] ((b :: g).reverse :: gs) (step s a) ⟨pre ++ (g.reverse ++ [b]), by rw [e]; simp⟩ ?_
        rw [List.reverse_cons, List.foldl_append, List.reverse_cons]
        exact next s _ _ b a part related held
  cases l with
  | nil => exact absurd rfl ne
  | cons a rest => exact loop rest a [] [] (step s₀ a) ⟨[], rfl⟩ (first a)

/-- Equal concatenations of lists of which none is longer than its counterpart. -/
lemma eq_of_flatMap_eq {f h : β → List α} {gs : List β}
    (le : ∀ g ∈ gs, (f g).length ≤ (h g).length) (same : gs.flatMap f = gs.flatMap h) :
    ∀ g ∈ gs, f g = h g := by
  induction gs with
  | nil => exact fun g mem => absurd mem List.not_mem_nil
  | cons g gs ih =>
    obtain ⟨here, later⟩ := List.forall_mem_cons.mp le
    rw [List.flatMap_cons, List.flatMap_cons] at same
    have sums : (gs.flatMap f).length ≤ (gs.flatMap h).length := by
      rw [List.length_flatMap, List.length_flatMap]
      exact List.sum_le_sum later
    have total := congrArg List.length same
    rw [List.length_append, List.length_append] at total
    obtain ⟨first, rest⟩ := List.append_inj same (by omega)
    exact List.forall_mem_cons.mpr ⟨first, ih later rest⟩

end PromotionCache.Lib
