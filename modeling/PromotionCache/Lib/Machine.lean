import Mathlib.Algebra.Group.Nat.Defs
import Mathlib.Data.Nat.Notation
import Mathlib.Tactic.Lemma

/-!
# Machine integers

Values of `unsigned long` are numbers below `2 ^ 64`; `ulong` is the value that an exact result wraps
to. An `int` has no value from `intBound` on.
-/

namespace PromotionCache.Lib

/-- The first value that an `int` does not have. -/
def intBound : ℕ := 2 ^ 31

/-- The conversion to `unsigned long`. -/
def ulong (n : ℕ) : ℕ := n % 2 ^ 64

/-- A small number is its own word. -/
lemma ulong_of_lt {n : ℕ} (h : n < 2 ^ 64) : ulong n = n := Nat.mod_eq_of_lt h

end PromotionCache.Lib
