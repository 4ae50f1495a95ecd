import Mathlib.Data.Int.Log
import Mathlib.Data.List.DropRight
import Mathlib.Data.Rat.Floor
import Mathlib.Tactic.Linarith
import Mathlib.Tactic.NormNum
import Mathlib.Tactic.Positivity

/-!
# Numbers on an output stream

How an output stream prints a number that is not negative, as it is set at first: with six significant digits, the even
last digit in a tie, without zeros at the end, and with an exponent where that is below -4 or at least 6.
-/

namespace PromotionCache.Lib

/-- The nearest natural number, and the even one of two. -/
def nearest (x : ℚ) : ℕ :=
  let n := ⌊x⌋₊
  if x - n < 1 / 2 then n
  else if 1 / 2 < x - n then n + 1
  else if n % 2 = 0 then n else n + 1

/-- The digits of a positive number as one number, and the exponent of the first of them. -/
def significand (x : ℚ) : ℕ × ℤ :=
  let e := Int.log 10 x
  let digits := nearest (x / 10 ^ (e - 5))
  if digits = 10 ^ 6 then (10 ^ 5, e + 1) else (digits, e)

/-- The digits after the point, which is left out if there are none but zeros. -/
def fraction (ds : List Char) : List Char :=
  match ds.rdropWhile (· = '0') with
  | [] => []
  | d :: ds => '.' :: d :: ds

/-- The exponent has a sign and at least two digits. -/
def exponent (e : ℤ) : List Char :=
  'e' :: (if e < 0 then '-' else '+') ::
    if e.natAbs < 10 then '0' :: Nat.toDigits 10 e.natAbs else Nat.toDigits 10 e.natAbs

/-- What `<<` prints for a number that is not negative. -/
def ostream (x : ℚ) : List Char :=
  if x = 0 then ['0']
  else
    let (digits, e) := significand x
    let ds := Nat.toDigits 10 digits
    if e < -4 ∨ 6 ≤ e then ds.take 1 ++ (fraction (ds.drop 1) ++ exponent e)
    else if e < 0 then '0' :: fraction (List.replicate (-e - 1).toNat '0' ++ ds)
    else ds.take (e.toNat + 1) ++ fraction (ds.drop (e.toNat + 1))

example : ostream (2 / 3) = "0.666667".toList := by decide +kernel

example : ostream 1234567 = "1.23457e+06".toList := by decide +kernel

/-- The least number that is printed as `0.0001`. -/
def leastPlain : ℚ := 9999995 / 10 ^ 11

/-- The number is printed without a negative exponent. -/
def Plain (x : ℚ) : Prop := x = 0 ∨ leastPlain ≤ x

section
variable {x : ℚ} {e : ℤ} {ds : List Char}

/-- A number below `n + 1`, where `n` is odd, is rounded up to it from the middle on. -/
lemma nearest_eq_succ {n : ℕ} (odd : n % 2 = 1) (nonneg : 0 ≤ x) (lt : x < n + 1) :
    nearest x = n + 1 ↔ (n : ℚ) + 1 / 2 ≤ x := by
  have floor := Nat.floor_le nonneg
  have above := Nat.lt_floor_add_one x
  have le : ⌊x⌋₊ ≤ n := Nat.le_of_lt_succ ((Nat.floor_lt nonneg).mpr (by push_cast; exact lt))
  rcases Nat.eq_or_lt_of_le le with same | less
  · rw [nearest, same]
    split
    case isTrue below => exact iff_of_false (Nat.ne_of_lt (Nat.lt_succ_self n)) (by linarith)
    case isFalse above =>
      have half : (n : ℚ) + 1 / 2 ≤ x := by linarith
      split
      case isTrue => exact iff_of_true rfl half
      case isFalse =>
        rw [if_neg (by omega)]
        exact iff_of_true rfl half
  · have less' : (⌊x⌋₊ : ℚ) + 1 ≤ n := by exact_mod_cast less
    refine iff_of_false ?_ (by linarith)
    unfold nearest
    dsimp only
    split
    case isTrue => omega
    case isFalse => split <;> [omega; split <;> omega]

/-- When the exponent of a positive number is at least -4. -/
lemma significand_plain (pos : 0 < x) : -4 ≤ (significand x).2 ↔ leastPlain ≤ x := by
  have low : (10 : ℚ) ^ Int.log 10 x ≤ x := Int.zpow_log_le_self (by decide) pos
  have high : x < (10 : ℚ) ^ (Int.log 10 x + 1) := Int.lt_zpow_succ_log_self (by decide) x
  have grows : ∀ {i j : ℤ}, i ≤ j → (10 : ℚ) ^ i ≤ 10 ^ j := zpow_le_zpow_right₀ (by norm_num)
  have step : (significand x).2 = Int.log 10 x ∨ (significand x).2 = Int.log 10 x + 1 := by
    unfold significand
    dsimp only
    split
    case isTrue => exact .inr rfl
    case isFalse => exact .inl rfl
  rcases Int.lt_trichotomy (Int.log 10 x) (-5) with small | five | large
  · have lt : x < 10 ^ (-5 : ℤ) := high.trans_le (grows (by omega))
    refine iff_of_false (by omega) (not_le.mpr (lt.trans_le ?_))
    norm_num [leastPlain]
  · -- only rounding up to six digits more makes the exponent -4
    have scale : x / 10 ^ (Int.log 10 x - 5) = x * 10 ^ 10 := by
      rw [five, div_eq_mul_inv]
      norm_num
    have below : x * 10 ^ 10 < ((999999 : ℕ) : ℚ) + 1 := by
      rw [five] at high
      norm_num at high ⊢
      linarith
    have up := nearest_eq_succ (n := 999999) (by decide) (by positivity) below
    have exponent : (significand x).2 = if nearest (x * 10 ^ 10) = 10 ^ 6 then -4 else -5 := by
      unfold significand
      dsimp only
      rw [scale, five]
      split <;> rfl
    rw [exponent]
    have middle : ((999999 : ℕ) : ℚ) + 1 / 2 ≤ x * 10 ^ 10 ↔ leastPlain ≤ x := by
      unfold leastPlain
      norm_num
      constructor <;> intro h <;> linarith
    rw [← middle, ← up]
    split
    case isTrue e => exact iff_of_true (by decide) e
    case isFalse ne => exact iff_of_false (by decide) ne
  · refine iff_of_true (by omega) (le_trans ?_ ((grows (by omega : (-4 : ℤ) ≤ Int.log 10 x)).trans low))
    norm_num [leastPlain]

/-- A fraction that is printed has a point and digits. -/
lemma fraction_form (digits : ∀ c ∈ ds, c.isDigit = true) :
    fraction ds = [] ∨ ∃ ds', fraction ds = '.' :: ds' ∧ ∀ c ∈ ds', c.isDigit = true := by
  have digits' : ∀ c ∈ ds.rdropWhile (· = '0'), c.isDigit = true :=
    fun c mem => digits c ((List.rdropWhile_prefix (· = '0') ds).subset mem)
  unfold fraction
  split
  case h_1 => exact .inl rfl
  case h_2 d ds' e => exact .inr ⟨d :: ds', rfl, e ▸ digits'⟩

/-- What is printed are digits, perhaps a point and more digits, and perhaps an exponent. -/
theorem ostream_form (x : ℚ) : ∃ int frac, int ≠ [] ∧ (∀ c ∈ int, c.isDigit = true) ∧
    (frac = [] ∨ ∃ ds, frac = '.' :: ds ∧ ∀ c ∈ ds, c.isDigit = true) ∧
    ostream x = int ++ (frac ++ if x ≠ 0 ∧ ((significand x).2 < -4 ∨ 6 ≤ (significand x).2) then
      exponent (significand x).2 else []) := by
  set ds := Nat.toDigits 10 (significand x).1 with hds
  set e := (significand x).2 with he
  have digits : ∀ c ∈ ds, c.isDigit = true := fun c mem => Nat.isDigit_of_mem_toDigits (by decide) (by decide) mem
  have some : ∀ n, ds.take (n + 1) ≠ [] := by
    intro n
    cases cons : ds with
    | nil => exact absurd cons Nat.toDigits_ne_nil
    | cons d ds => exact List.cons_ne_nil _ _
  have zero : ∀ c ∈ ['0'], c.isDigit = true := by
    intro c mem
    rw [List.mem_singleton.mp mem]
    rfl
  have taken : ∀ n, ∀ c ∈ ds.take n, c.isDigit = true := fun n c mem => digits c (List.mem_of_mem_take mem)
  have dropped : ∀ n, ∀ c ∈ ds.drop n, c.isDigit = true := fun n c mem => digits c (List.mem_of_mem_drop mem)
  unfold ostream
  split
  case isTrue nil =>
    refine ⟨['0'], [], List.cons_ne_nil _ _, zero, .inl rfl, ?_⟩
    rw [if_neg fun h => h.1 nil]
    rfl
  case isFalse ne =>
    dsimp only
    rw [← hds, ← he]
    by_cases far : e < -4 ∨ 6 ≤ e
    · rw [if_pos far, if_pos ⟨ne, far⟩]
      exact ⟨ds.take 1, fraction (ds.drop 1), some 0, taken 1, fraction_form (dropped 1), rfl⟩
    · have near : ¬ (x ≠ 0 ∧ (e < -4 ∨ 6 ≤ e)) := fun h => far h.2
      rw [if_neg far, if_neg near]
      split
      case isTrue =>
        refine ⟨['0'], fraction (List.replicate (-e - 1).toNat '0' ++ ds), List.cons_ne_nil _ _, zero,
          fraction_form ?_, ?_⟩
        · intro c mem
          rcases List.mem_append.mp mem with zeros | later
          · exact zero c (List.mem_singleton.mpr (List.eq_of_mem_replicate zeros))
          · exact digits c later
        · rw [List.append_nil]
          rfl
      case isFalse =>
        refine ⟨ds.take (e.toNat + 1), fraction (ds.drop (e.toNat + 1)), some _, taken _,
          fraction_form (dropped _), ?_⟩
        rw [List.append_nil]

end

end PromotionCache.Lib
