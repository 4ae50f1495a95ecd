import Mathlib.Data.Nat.Notation
import Mathlib.Tactic.Common

/-!
# Programs that stop

A step returns the next state, or as an error the state in which the program stops: at a fault, or where a loop
has had its rounds. What every step keeps holds of the state in which a loop is left, in whichever way
(`Stays.loop`).
-/

namespace PromotionCache.Lib

variable {S A : Type*}

/-- The state in which a program is left. -/
def outcome : Except S S → S
  | .ok s => s
  | .error s => s

/-- `while (cond) body`, stopped after so many rounds. -/
def boundedLoop (cond : S → Bool) (body : S → Except S S) : ℕ → S → Except S S
  | 0, s => .error s
  | fuel + 1, s => if cond s then body s >>= boundedLoop cond body fuel else .ok s

/-- What holds of the state in which a program is left. -/
def Stays (Inv : S → Prop) (r : Except S S) : Prop := Inv (outcome r)

variable {Inv : S → Prop} {r : Except S S} {f : S → Except S S} {s : S}

/-- What two parts keep, both together keep, if the first does not stop. -/
lemma Stays.bind (h : Stays Inv r) (step : ∀ s, Inv s → Stays Inv (f s)) : Stays Inv (r >>= f) := by
  cases r with
  | ok s => exact step s h
  | error s => exact h

/-- A loop over a list keeps what its body keeps. -/
lemma Stays.foldlM {step : S → A → Except S S} {as : List A} (h : Inv s)
    (ind : ∀ s, ∀ a ∈ as, Inv s → Stays Inv (step s a)) : Stays Inv (as.foldlM step s) := by
  induction as generalizing s with
  | nil => exact h
  | cons a as ih =>
    rw [List.foldlM_cons]
    refine Stays.bind (ind s a List.mem_cons_self h) fun t ht => ?_
    exact ih ht fun s a mem => ind s a (List.mem_cons_of_mem _ mem)

/-- So does a bounded loop. -/
theorem Stays.loop {cond : S → Bool} {body : S → Except S S} {fuel : ℕ} (h : Inv s)
    (ind : ∀ s, Inv s → Stays Inv (body s)) : Stays Inv (boundedLoop cond body fuel s) := by
  induction fuel generalizing s with
  | zero => exact h
  | succ fuel ih =>
    rw [boundedLoop]
    split
    case isTrue => exact Stays.bind (ind s h) fun t ht => ih ht
    case isFalse => exact h

end PromotionCache.Lib
