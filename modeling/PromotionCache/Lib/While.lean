import Mathlib.Data.Nat.Notation
import Mathlib.Order.Basic
import Mathlib.Tactic.Common

/-!
# While loops

`while (cond) body` over states in which the body may fault. The loop is a function of a bound on its
rounds. `Heads` are the states in which the condition is evaluated; an invariant of the body is one of all
heads (`Heads.inv`), and a variant makes the loop end (`whileLoop_total`).
-/

namespace PromotionCache.Lib

variable {S : Type*}

/-- `while (cond) body`, taking at most so many evaluations of the condition. -/
def whileLoop (cond : S → Bool) (body : S → Option S) : ℕ → S → Option S
  | 0, _ => none
  | fuel + 1, s => if cond s then (body s).bind (whileLoop cond body fuel) else some s

/-- The states in which a loop that starts in `s` evaluates its condition. -/
inductive Heads (cond : S → Bool) (body : S → Option S) (s : S) : S → Prop where
  | start : Heads cond body s s
  | round {t u} :
    Heads cond body s t →
    cond t = true →
    body t = some u →
    Heads cond body s u

variable {cond : S → Bool} {body : S → Option S} {s t u : S}

/-- The loop ends where its condition does not hold. -/
lemma whileLoop_done {fuel} (h : cond s = false) : whileLoop cond body (fuel + 1) s = some s := by
  simp [whileLoop, h]

/-- Where it holds, the loop goes on behind its body. -/
lemma whileLoop_round {fuel} (h : cond s = true) (hs : body s = some t) :
    whileLoop cond body (fuel + 1) s = whileLoop cond body fuel t := by
  simp [whileLoop, h, hs]

/-- What holds at the start and is kept by the body holds in every head. -/
theorem Heads.inv {Inv : S → Prop} (h : Heads cond body s t) (base : Inv s)
    (ind : ∀ t u, Inv t → cond t = true → body t = some u → Inv u) : Inv t := by
  induction h with
  | start => exact base
  | round _ c b ih => exact ind _ _ ih c b

/-- A loop ends in a head in which its condition fails. -/
theorem whileLoop_heads {fuel : ℕ} (h : whileLoop cond body fuel s = some t) :
    Heads cond body s t ∧ cond t = false := by
  suffices ∀ u, Heads cond body s u → whileLoop cond body fuel u = some t → Heads cond body s t ∧ cond t = false from
    this s .start h
  clear h
  induction fuel with
  | zero =>
    intro u _ h
    cases h
  | succ fuel ih =>
    intro u heads h
    cases hc : cond u with
    | false =>
      rw [whileLoop_done hc] at h
      obtain rfl := Option.some.inj h
      exact ⟨heads, hc⟩
    | true =>
      simp only [whileLoop, hc, if_true] at h
      obtain ⟨v, hv, h⟩ := Option.bind_eq_some_iff.mp h
      exact ih v (heads.round hc hv) h

/-- A loop whose body keeps an invariant and lowers a variant ends, within as many rounds as the variant
    allows, with the invariant and without the condition. -/
theorem whileLoop_enough (Inv : S → Prop) (variant : S → ℕ) (base : Inv s)
    (ind : ∀ s, Inv s → cond s = true → ∃ t, body s = some t ∧ Inv t ∧ variant t < variant s) {fuel : ℕ}
    (enough : variant s < fuel) :
    ∃ t, whileLoop cond body fuel s = some t ∧ Inv t ∧ cond t = false := by
  induction fuel generalizing s with
  | zero => cases enough
  | succ fuel ih =>
    rcases hc : cond s with _ | _
    · exact ⟨s, whileLoop_done hc, base, hc⟩
    · obtain ⟨t, ht, inv, lt⟩ := ind s base hc
      obtain ⟨u, hu, inv', hc'⟩ := ih inv (Nat.lt_of_lt_of_le lt (Nat.le_of_lt_succ enough))
      exact ⟨u, by rw [whileLoop_round hc ht, hu], inv', hc'⟩

/-- A loop ends whose variant goes down. -/
theorem whileLoop_total (Inv : S → Prop) (variant : S → ℕ) (base : Inv s)
    (ind : ∀ s, Inv s → cond s = true → ∃ t, body s = some t ∧ Inv t ∧ variant t < variant s) :
    ∃ fuel t, whileLoop cond body fuel s = some t ∧ Inv t ∧ cond t = false :=
  ⟨_, whileLoop_enough Inv variant base ind (Nat.lt_succ_self _)⟩

end PromotionCache.Lib
