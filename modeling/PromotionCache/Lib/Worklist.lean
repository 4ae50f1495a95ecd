import Mathlib.Tactic.Common
import Mathlib.Data.Nat.Notation

/-!
# Worklists

An array with an index of its next free slot, as the list of what is below the index. The capacity is
part of the type, `none` for an array without a bound; a list that does not fit cannot be built, and a
write past the end is an append that returns `none`.
-/

namespace PromotionCache.Lib

/-- What is below the index of an array of `cap` slots. -/
@[ext]
structure Worklist (A : Type*) (cap : Option ℕ) where
  entries : List A
  fits : ∀ c ∈ cap, entries.length ≤ c

namespace Worklist
variable {A : Type*} {cap : Option ℕ} {a : A} {wl wl' : Worklist A cap}

/-- The index at 0. -/
def empty : Worklist A cap := ⟨[], fun _ _ => Nat.zero_le _⟩

/-- The index, which is the slot of the next write. -/
def index (wl : Worklist A cap) : ℕ := wl.entries.length

/-- `wl[index] = a`, after `index + 1` is stored as the new index. -/
def push (wl : Worklist A cap) (a : A) : Option (Worklist A cap) :=
  if h : ∀ c ∈ cap, wl.index < c then
    some ⟨wl.entries ++ [a], fun c hc => by
      rw [List.length_append]
      exact h c hc⟩
  else none

/-- A new worklist has no entry. -/
@[simp] lemma empty_entries : (empty : Worklist A cap).entries = [] := rfl

/-- An append goes through where there is room. -/
lemma exists_push (h : ∀ c ∈ cap, wl.index < c) (a : A) :
    ∃ wl', wl.push a = some wl' ∧ wl'.entries = wl.entries ++ [a] := by
  refine ⟨_, dif_pos h, rfl⟩

end Worklist

end PromotionCache.Lib
