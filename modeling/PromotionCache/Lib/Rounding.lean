import Mathlib.Algebra.Order.Floor.Semiring
import Mathlib.Data.Int.Log
import Mathlib.Data.Rat.Floor
import Mathlib.Tactic.FieldSimp
import Mathlib.Tactic.Linarith
import Mathlib.Tactic.Positivity

/-!
# Rounding to a binary precision

The nearest number with `p` binary digits, ties to the even one, for numbers that are not negative and without
bounds on the exponent. What is lost is at most one part in `2 ^ p` (`fl_error`), and a natural number is kept
if and only if it is one of `p` digits and zeros after them (`fl_natCast_iff`).
-/

namespace PromotionCache.Lib

/-- The nearest integer, of two the even one. -/
def nearestEven (q : ℚ) : ℤ :=
  if 2 * (q - ⌊q⌋) < 1 ∨ (2 * (q - ⌊q⌋) = 1 ∧ ⌊q⌋ % 2 = 0) then ⌊q⌋ else ⌊q⌋ + 1

/-- The weight of the last of `p` digits. -/
def ulp (p : ℕ) (q : ℚ) : ℚ := 2 ^ (Int.log 2 q - (p - 1))

/-- Rounding to `p` digits. -/
def fl (p : ℕ) (q : ℚ) : ℚ := nearestEven (q / ulp p q) * ulp p q

/-- Rounding of a number with a sign. -/
def flSigned (p : ℕ) (q : ℚ) : ℚ := if q < 0 then -fl p (-q) else fl p q

/-- The integer part of a number with a sign. -/
def truncate (q : ℚ) : ℤ := if q < 0 then ⌈q⌉ else ⌊q⌋

/-- A natural number of `p` digits, and zeros after them. -/
def Representable (p n : ℕ) : Prop := ∃ m k, m < 2 ^ p ∧ n = m * 2 ^ k

section
variable {p n : ℕ} {q : ℚ}

/-- A natural number is its own nearest integer. -/
@[simp] lemma nearestEven_natCast (n : ℕ) : nearestEven n = n := by
  simp [nearestEven]

/-- Rounding to an integer is off by a half at most. -/
lemma nearestEven_error (q : ℚ) : |(nearestEven q : ℚ) - q| ≤ 1 / 2 := by
  have low := Int.floor_le q
  have high := Int.lt_floor_add_one q
  rw [abs_le, nearestEven]
  split
  case isTrue h =>
    rcases h with lt | ⟨eq, _⟩
    · constructor <;> linarith
    · constructor <;> linarith
  case isFalse h =>
    rw [not_or, not_lt] at h
    push_cast
    constructor <;> linarith [h.1]

/-- The unit in the last place is positive. -/
lemma ulp_pos (p : ℕ) (q : ℚ) : 0 < ulp p q := by
  exact zpow_pos two_pos _

/-- Zero is rounded to zero. -/
@[simp] lemma fl_zero : fl p 0 = 0 := by
  simp [fl, nearestEven]

/-- The relative error of rounding. -/
lemma fl_error (pos : 0 < q) : |fl p q - q| ≤ q / 2 ^ p := by
  have unit := ulp_pos p q
  have scaled : fl p q - q = (nearestEven (q / ulp p q) - q / ulp p q) * ulp p q := by
    rw [fl, sub_mul, div_mul_cancel₀ _ unit.ne']
  have low := Int.zpow_log_le_self (b := 2) (by decide) pos
  have half : 1 / 2 * ulp p q = 2 ^ Int.log 2 q / 2 ^ p := by
    rw [ulp, zpow_sub₀ two_ne_zero, zpow_sub₀ two_ne_zero, zpow_natCast, zpow_one]
    field_simp
  calc |fl p q - q| = |nearestEven (q / ulp p q) - q / ulp p q| * ulp p q := by
        rw [scaled, abs_mul, abs_of_pos unit]
    _ ≤ 1 / 2 * ulp p q := mul_le_mul_of_nonneg_right (nearestEven_error _) unit.le
    _ = 2 ^ Int.log 2 q / 2 ^ p := half
    _ ≤ q / 2 ^ p := by
      have h : (2 : ℚ) ^ Int.log 2 q ≤ q := by exact_mod_cast low
      gcongr

/-- What the last digit divides is kept. -/
lemma fl_of_multiple {m : ℕ} (h : q = m * ulp p q) : fl p q = q := by
  have e : q / ulp p q = m := by
    rw [div_eq_iff (ulp_pos p q).ne', ← h]
  rw [fl, e, nearestEven_natCast]
  exact_mod_cast h.symm

/-- The unit in the last place of a natural number. -/
lemma ulp_natCast (n : ℕ) : ulp p n = 2 ^ ((Nat.log 2 n : ℤ) - (p - 1)) := by
  rw [ulp, Int.log_natCast]

/-- The last digit of a number of more than `p` digits. -/
lemma ulp_of_le {k : ℕ} (h : Nat.log 2 n + 1 = p + k) : ulp p n = (2 ^ k : ℕ) := by
  have e : (Nat.log 2 n : ℤ) - (p - 1) = k := by omega
  rw [ulp_natCast, e, zpow_natCast]
  norm_cast

/-- A representable number is rounded to itself. -/
lemma fl_of_representable (h : Representable p n) : fl p n = n := by
  obtain ⟨m, k, lt, e⟩ := h
  rcases Nat.eq_zero_or_pos n with rfl | pos
  · exact fl_zero
  rcases Nat.le_total (Nat.log 2 n + 1) p with few | many
  · -- the last digit is one after the point
    obtain ⟨j, rfl⟩ := Nat.exists_eq_add_of_le few
    have unit : ulp (Nat.log 2 n + 1 + j) n = (2 ^ j)⁻¹ := by
      have e : (Nat.log 2 n : ℤ) - ((Nat.log 2 n + 1 + j : ℕ) - 1) = -(j : ℤ) := by
        push_cast
        omega
      rw [ulp_natCast, e, zpow_neg, zpow_natCast]
    refine fl_of_multiple (m := n * 2 ^ j) ?_
    rw [unit]
    push_cast
    field_simp
  · obtain ⟨j, hj⟩ := Nat.exists_eq_add_of_le many
    have size : 2 ^ Nat.log 2 n < 2 ^ (p + k) := by
      calc 2 ^ Nat.log 2 n ≤ n := Nat.pow_log_le_self 2 pos.ne'
        _ < 2 ^ p * 2 ^ k := by
          rw [e]
          exact Nat.mul_lt_mul_of_pos_right lt (Nat.two_pow_pos k)
        _ = 2 ^ (p + k) := (Nat.pow_add 2 p k).symm
    have exponents := (Nat.pow_lt_pow_iff_right (by decide)).mp size
    obtain ⟨i, rfl⟩ := Nat.exists_eq_add_of_le (show j ≤ k by omega)
    refine fl_of_multiple (m := m * 2 ^ i) ?_
    rw [ulp_of_le hj, e]
    push_cast
    ring

/-- The nearest integer is the one below or the one above. -/
lemma nearestEven_mem (q : ℚ) : nearestEven q = ⌊q⌋ ∨ nearestEven q = ⌊q⌋ + 1 := by
  rw [nearestEven]
  split
  · exact .inl rfl
  · exact .inr rfl

/-- A natural number is rounded to a natural number. -/
lemma exists_fl_natCast (pos : 0 < p) (n : ℕ) : ∃ m : ℕ, fl p n = m ∧ Representable p m := by
  rcases Nat.le_total (Nat.log 2 n + 1) p with few | many
  · have lt : n < 2 ^ p := by
      calc n < 2 ^ (Nat.log 2 n + 1) := Nat.lt_pow_succ_log_self (by decide) n
        _ ≤ 2 ^ p := Nat.pow_le_pow_right (by decide) few
    have whole : Representable p n := ⟨n, 0, lt, by simp⟩
    exact ⟨n, fl_of_representable whole, whole⟩
  · obtain ⟨k, hk⟩ := Nat.exists_eq_add_of_le many
    have unit : ulp p n = (2 ^ k : ℕ) := ulp_of_le hk
    have bound : (n : ℚ) / (2 ^ k : ℕ) < (2 ^ p : ℕ) := by
      rw [div_lt_iff₀ (by positivity)]
      have lt := Nat.lt_pow_succ_log_self (by decide : 1 < 2) n
      rw [Nat.succ_eq_add_one, hk, Nat.pow_add] at lt
      exact_mod_cast lt
    have low : (0 : ℤ) ≤ ⌊(n : ℚ) / (2 ^ k : ℕ)⌋ := Int.floor_nonneg.mpr (by positivity)
    have high : ⌊(n : ℚ) / (2 ^ k : ℕ)⌋ < (2 ^ p : ℕ) := Int.floor_lt.mpr (by exact_mod_cast bound)
    obtain ⟨r, hr, le⟩ : ∃ r : ℕ, nearestEven ((n : ℚ) / (2 ^ k : ℕ)) = r ∧ r ≤ 2 ^ p := by
      refine ⟨(nearestEven ((n : ℚ) / (2 ^ k : ℕ))).toNat, ?_, ?_⟩ <;>
        rcases nearestEven_mem ((n : ℚ) / (2 ^ k : ℕ)) with e | e <;> omega
    refine ⟨r * 2 ^ k, ?_, ?_⟩
    · rw [fl, unit, hr]
      push_cast
      rfl
    · rcases Nat.lt_or_eq_of_le le with lt | rfl
      · exact ⟨r, k, lt, rfl⟩
      · exact ⟨1, p + k, Nat.one_lt_two_pow pos.ne', by rw [Nat.one_mul, Nat.pow_add]⟩

/-- A natural number is kept if and only if it has few enough digits before its zeros. -/
theorem fl_natCast_iff (pos : 0 < p) : fl p n = n ↔ Representable p n := by
  constructor
  · intro kept
    obtain ⟨m, e, h⟩ := exists_fl_natCast pos n
    rw [kept] at e
    rwa [Nat.cast_injective e]
  · exact fl_of_representable

/-- A division by a power of two lowers the logarithm by the exponent. -/
lemma log_div_two_pow (pos : 0 < q) (k : ℕ) : Int.log 2 (q / 2 ^ k) = Int.log 2 q - k := by
  have shift : ∀ z : ℤ, (2 : ℚ) ^ z ≤ q / 2 ^ k ↔ (2 : ℚ) ^ (z + k) ≤ q := by
    intro z
    rw [le_div_iff₀ (by positivity), zpow_add₀ two_ne_zero, zpow_natCast]
  have scaled : 0 < q / 2 ^ k := by positivity
  have le : ∀ z : ℤ, z ≤ Int.log 2 (q / 2 ^ k) ↔ z ≤ Int.log 2 q - k := by
    intro z
    rw [← Int.zpow_le_iff_le_log (by decide) scaled, le_sub_iff_add_le,
      ← Int.zpow_le_iff_le_log (by decide) pos]
    exact_mod_cast shift z
  exact eq_of_forall_le_iff le

/-- Rounding goes along with a division by a power of two. -/
lemma fl_div_two_pow (nonneg : 0 ≤ q) (k : ℕ) : fl p (q / 2 ^ k) = fl p q / 2 ^ k := by
  rcases nonneg.eq_or_lt with rfl | pos
  · rw [zero_div, fl_zero, zero_div]
  · have unit : ulp p (q / 2 ^ k) = ulp p q / 2 ^ k := by
      rw [ulp, log_div_two_pow pos, ulp, sub_right_comm, zpow_sub₀ two_ne_zero, zpow_natCast]
    have scaled : q / 2 ^ k / (ulp p q / 2 ^ k) = q / ulp p q := by
      have := (ulp_pos p q).ne'
      field_simp
    rw [fl, unit, scaled, fl, mul_div_assoc]

end
end PromotionCache.Lib
