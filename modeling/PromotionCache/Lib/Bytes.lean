import Mathlib.Data.List.Basic
import Mathlib.Tactic.Common
import Mathlib.Tactic.IntervalCases
import Mathlib.Tactic.Ring

/-!
# Little-endian bytes

The bytes of a number, lowest first (`toBytes`), the number that some bytes say (`ofBytes`), and what a
word of eight bytes holds when its first bytes are written over (`overwrite`).
-/

namespace PromotionCache.Lib

/-- The first `w` bytes of a number. -/
def toBytes : ℕ → ℕ → List UInt8
  | 0, _ => []
  | w + 1, n => UInt8.ofNat n :: toBytes w (n / 256)

/-- The number that has these bytes. -/
def ofBytes : List UInt8 → ℕ
  | [] => 0
  | b :: bs => b.toNat + 256 * ofBytes bs

/-- A word with its first bytes written over. -/
def overwrite (word : UInt64) (bs : List UInt8) : UInt64 :=
  UInt64.ofNat (ofBytes bs + 256 ^ bs.length * (word.toNat / 256 ^ bs.length))

section
variable {w n : ℕ} {word : UInt64} {bs bs' : List UInt8}

/-- A number takes as many bytes as it is wide. -/
@[simp] lemma length_toBytes : (toBytes w n).length = w := by
  induction w generalizing n with
  | zero => rfl
  | succ w ih => rw [toBytes, List.length_cons, ih]

/-- A number is read as it was written, if it fits. -/
lemma ofBytes_toBytes : ofBytes (toBytes w n) = n % 256 ^ w := by
  induction w generalizing n with
  | zero => rw [toBytes, ofBytes, pow_zero, Nat.mod_one]
  | succ w ih =>
    have byte : (UInt8.ofNat n).toNat = n % 256 := rfl
    rw [toBytes, ofBytes, ih, byte, pow_succ, Nat.mul_comm (256 ^ w), Nat.mod_mul]

/-- The value of bytes behind others. -/
lemma ofBytes_append : ofBytes (bs ++ bs') = ofBytes bs + 256 ^ bs.length * ofBytes bs' := by
  induction bs with
  | nil => simp [ofBytes]
  | cons b bs ih =>
    rw [List.cons_append, ofBytes, ofBytes, ih, List.length_cons, pow_succ]
    ring

/-- Nothing is overwritten by nothing. -/
@[simp] lemma overwrite_nil : overwrite word [] = word := by
  simp [overwrite, ofBytes]

/-- Nothing is left of a word that is no longer than the bytes. -/
lemma overwrite_of_lt (h : word.toNat < 256 ^ bs.length) : overwrite word bs = UInt64.ofNat (ofBytes bs) := by
  rw [overwrite, Nat.div_eq_of_lt h, Nat.mul_zero, Nat.add_zero]

/-- What is written over zero is the number. -/
lemma overwrite_zero : overwrite 0 bs = UInt64.ofNat (ofBytes bs) := overwrite_of_lt (Nat.pow_pos (by decide))

end

end PromotionCache.Lib
