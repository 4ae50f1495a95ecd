import Mathlib.Data.List.Induction
import Mathlib.Data.Nat.Notation
import Mathlib.Logic.Function.Iterate
import Mathlib.Tactic.Common

/-!
# Sums by Horner's rule over words with exclusive or

Words with exclusive or as their addition. `shiftReduce` multiplies a polynomial over the field of two elements
by its variable and takes the remainder; it is linear, and so is every power of it. `horner` is the sum
`T^[n-1] w₀ ^^^ ⋯ ^^^ w_{n-1}`, computed from the left: it splits where its list does (`horner_append`), so that
a first part can be taken out of it again (`horner_drop`).
-/

namespace PromotionCache.Lib

variable {w k : ℕ} {x : BitVec w} {T : BitVec w → BitVec w} {as : List (BitVec w)}

/-- A map that commutes with exclusive or. -/
def XorLinear (T : BitVec w → BitVec w) : Prop := ∀ x y, T (x ^^^ y) = T x ^^^ T y

/-- A linear function takes 0 to 0. -/
lemma XorLinear.zero (h : XorLinear T) : T 0#w = 0#w := by
  have e := h 0#w 0#w
  rw [BitVec.xor_self, BitVec.xor_self] at e
  exact e

/-- The iterates of a linear function are linear. -/
lemma XorLinear.iterate (h : XorLinear T) (n : ℕ) : XorLinear T^[n] := by
  induction n with
  | zero => exact fun x y => rfl
  | succ n ih =>
    intro x y
    rw [Function.iterate_succ_apply, Function.iterate_succ_apply, Function.iterate_succ_apply, h, ih]

/-- Multiplication by the variable, modulo the polynomial whose lower coefficients are `irr`. -/
def shiftReduce (irr x : BitVec w) : BitVec w :=
  if x.msb then (x <<< 1) ^^^ irr else x <<< 1

/-- A shift with its reduction is linear. -/
lemma shiftReduce_linear (irr : BitVec w) : XorLinear (shiftReduce irr) := by
  intro x y
  unfold shiftReduce
  rw [BitVec.msb_xor, BitVec.shiftLeft_xor_distrib]
  cases x.msb with
  | false =>
    cases y.msb with
    | false => rfl
    | true => exact BitVec.xor_assoc _ _ _
  | true =>
    cases y.msb with
    | false =>
      change (x <<< 1 ^^^ y <<< 1) ^^^ irr = (x <<< 1 ^^^ irr) ^^^ y <<< 1
      rw [BitVec.xor_assoc, BitVec.xor_comm (y <<< 1), BitVec.xor_assoc]
    | true =>
      change x <<< 1 ^^^ y <<< 1 = (x <<< 1 ^^^ irr) ^^^ (y <<< 1 ^^^ irr)
      rw [BitVec.xor_comm (y <<< 1), BitVec.xor_assoc, ← BitVec.xor_assoc irr, BitVec.xor_self, BitVec.zero_xor]

/-- As long as nothing reaches the top, the powers of `shiftReduce` only shift. -/
lemma shiftReduce_iterate (irr : BitVec w) (clear : ∀ i, w ≤ i + k → x.getLsbD i = false) :
    (shiftReduce irr)^[k] x = x <<< k := by
  induction k with
  | zero => exact (BitVec.shiftLeft_zero x).symm
  | succ k ih =>
    have low : (x <<< k).msb = false := by
      rw [BitVec.msb_eq_getLsbD_last, BitVec.getLsbD_shiftLeft]
      rcases Nat.lt_or_ge (w - 1) k with short | long
      · rw [decide_eq_true short]
        simp
      · rw [clear (w - 1 - k) (by omega), Bool.and_false]
    rw [Function.iterate_succ_apply', ih fun i le => clear i (by omega)]
    unfold shiftReduce
    rw [low, BitVec.shiftLeft_add]
    rfl

/-- The sum `T^[n-1] w₀ ^^^ ⋯ ^^^ w_{n-1}`. -/
def horner (T : BitVec w → BitVec w) (bs : List (BitVec w)) : BitVec w :=
  bs.foldl (fun h b => T h ^^^ b) 0#w

/-- The value of nothing. -/
@[simp] lemma horner_nil : horner T [] = 0#w := rfl

/-- The value with one more digit. -/
@[simp] lemma horner_concat (b : BitVec w) : horner T (as ++ [b]) = T (horner T as) ^^^ b := by
  unfold horner
  rw [List.foldl_append]
  rfl

/-- A sum splits where its list does. -/
lemma horner_append (linear : XorLinear T) (as bs : List (BitVec w)) :
    horner T (as ++ bs) = T^[bs.length] (horner T as) ^^^ horner T bs := by
  induction bs using List.reverseRecOn with
  | nil => simp
  | append_singleton bs b ih =>
    rw [← List.append_assoc, horner_concat, ih, horner_concat, linear, List.length_append, List.length_singleton,
      Function.iterate_succ_apply', BitVec.xor_assoc]

/-- A first part is taken out of a sum. -/
lemma horner_drop (linear : XorLinear T) (k : ℕ) (bs : List (BitVec w)) :
    horner T (bs.drop k) = horner T bs ^^^ T^[bs.length - k] (horner T (bs.take k)) := by
  have split := horner_append linear (bs.take k) (bs.drop k)
  rw [List.take_append_drop, List.length_drop] at split
  rw [split, BitVec.xor_comm, ← BitVec.xor_assoc, BitVec.xor_self, BitVec.zero_xor]

end PromotionCache.Lib
