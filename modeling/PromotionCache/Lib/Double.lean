import PromotionCache.Lib.Rounding

/-!
# Rounding with a least exponent

The numbers of a binary format that are not negative have `p` digits, none of them below `2 ^ least`. Rounding to them
keeps the order (`flFrom_mono`) and the numbers of the format (`flFrom_idem`), and a number of the format divided by a
natural number has the integer part that it has without rounding (`floor_flFrom_div`). Numbers too large for the format
are not considered.
-/

namespace PromotionCache.Lib

/-- The exponent of the last digit of a number. -/
def lastExponent (p : ℕ) (least : ℤ) (q : ℚ) : ℤ := max least (Int.log 2 q - (p - 1))

/-- Rounding to `p` digits, none of them below `2 ^ least`. -/
def flFrom (p : ℕ) (least : ℤ) (q : ℚ) : ℚ :=
  nearestEven (q / 2 ^ lastExponent p least q) * 2 ^ lastExponent p least q

/-- The `double` next to a number, of two the one with an even last digit. -/
def double (q : ℚ) : ℚ := flFrom 53 (-1074) q

example : double (9 / 10) = 8106479329266893 / 2 ^ 53 := by decide +kernel

example : double (1 / 2 ^ 1074 / 2 + 1 / 2 ^ 1080) = 1 / 2 ^ 1074 := by decide +kernel

section
variable {p d : ℕ} {least : ℤ} {q r : ℚ}

/-- Integers are rounded to themselves. -/
@[simp] lemma nearestEven_intCast (m : ℤ) : nearestEven m = m := by
  simp [nearestEven]

/-- Rounding to an integer keeps the order. -/
lemma nearestEven_mono (le : q ≤ r) : nearestEven q ≤ nearestEven r := by
  rcases (Int.floor_le_floor le).lt_or_eq with less | same
  · rcases nearestEven_mem q with hq | hq <;> rcases nearestEven_mem r with hr | hr <;> omega
  · -- the smaller one is rounded down if the larger one is
    unfold nearestEven
    rw [same]
    split
    case isTrue => split <;> omega
    case isFalse up =>
      rw [if_neg]
      intro down
      apply up
      rcases down with lt | ⟨middle, even⟩
      · exact .inl (by linarith)
      · rcases le.lt_or_eq with lt | rfl
        · exact .inl (by linarith)
        · exact .inr ⟨middle, even⟩

/-- A power of two is a multiple of a smaller one. -/
lemma two_zpow_eq {j k : ℤ} (le : j ≤ k) : (2 : ℚ) ^ k = ((2 ^ (k - j).toNat : ℤ) : ℚ) * 2 ^ j := by
  have e : k = ((k - j).toNat : ℤ) + j := by omega
  rw [Int.cast_pow, Int.cast_ofNat, ← zpow_natCast, ← zpow_add₀ two_ne_zero, ← e]

/-- No number of the format lies between a number and what it is rounded to, seen from below. -/
lemma flFrom_le {m : ℤ} (le : q ≤ m * 2 ^ lastExponent p least q) :
    flFrom p least q ≤ m * 2 ^ lastExponent p least q := by
  have unit : (0 : ℚ) < 2 ^ lastExponent p least q := zpow_pos two_pos _
  have whole := nearestEven_mono ((div_le_iff₀ unit).mpr le)
  rw [nearestEven_intCast] at whole
  exact mul_le_mul_of_nonneg_right (by exact_mod_cast whole) unit.le

/-- No number of the format lies between a number and what it is rounded to, seen from above. -/
lemma le_flFrom {m : ℤ} (le : m * 2 ^ lastExponent p least q ≤ q) :
    m * 2 ^ lastExponent p least q ≤ flFrom p least q := by
  have unit : (0 : ℚ) < 2 ^ lastExponent p least q := zpow_pos two_pos _
  have whole := nearestEven_mono ((le_div_iff₀ unit).mpr le)
  rw [nearestEven_intCast] at whole
  exact mul_le_mul_of_nonneg_right (by exact_mod_cast whole) unit.le

/-- Rounding does not lead past a power of two above. -/
lemma flFrom_le_zpow {k : ℤ} (le : q ≤ 2 ^ k) (last : lastExponent p least q ≤ k) :
    flFrom p least q ≤ 2 ^ k := by
  rw [two_zpow_eq last] at le ⊢
  exact flFrom_le le

/-- Rounding does not lead past a power of two below. -/
lemma zpow_le_flFrom {k : ℤ} (le : 2 ^ k ≤ q) (last : lastExponent p least q ≤ k) :
    2 ^ k ≤ flFrom p least q := by
  rw [two_zpow_eq last] at le ⊢
  exact le_flFrom le

/-- What is not negative stays so. -/
lemma flFrom_nonneg (nonneg : 0 ≤ q) : 0 ≤ flFrom p least q := by
  have h : ((0 : ℤ) : ℚ) * 2 ^ lastExponent p least q ≤ flFrom p least q := le_flFrom (by simpa using nonneg)
  simpa using h

/-- The number is between two powers of two. -/
lemma log_bounds (pos : 0 < q) : (2 : ℚ) ^ Int.log 2 q ≤ q ∧ q < 2 ^ (Int.log 2 q + 1) :=
  ⟨by exact_mod_cast Int.zpow_log_le_self (b := 2) (by decide) pos,
    by exact_mod_cast Int.lt_zpow_succ_log_self (b := 2) (by decide) q⟩

/-- Rounding keeps the order. -/
theorem flFrom_mono (digits : 0 < p) (nonneg : 0 ≤ q) (le : q ≤ r) : flFrom p least q ≤ flFrom p least r := by
  rcases nonneg.eq_or_lt with rfl | pos
  · refine le_trans ?_ (flFrom_nonneg le)
    have h : flFrom p least 0 ≤ ((0 : ℤ) : ℚ) * 2 ^ lastExponent p least 0 := flFrom_le (by simp)
    simpa using h
  have logs : Int.log 2 q ≤ Int.log 2 r := Int.log_mono_right pos le
  rcases eq_or_ne (lastExponent p least q) (lastExponent p least r) with same | other
  · have unit : (0 : ℚ) < 2 ^ lastExponent p least r := zpow_pos two_pos _
    have whole := nearestEven_mono (div_le_div_of_nonneg_right le unit.le)
    rw [flFrom, flFrom, same]
    exact mul_le_mul_of_nonneg_right (by exact_mod_cast whole) unit.le
  · -- a power of two lies between the two numbers, and none of them is rounded past it
    have between : q ≤ 2 ^ Int.log 2 r := by
      refine (log_bounds pos).2.le.trans (zpow_le_zpow_right₀ (by norm_num) ?_)
      unfold lastExponent at other
      omega
    refine (flFrom_le_zpow between ?_).trans (zpow_le_flFrom (log_bounds (pos.trans_le le)).1 ?_)
    · unfold lastExponent at other ⊢
      omega
    · unfold lastExponent at other ⊢
      omega

/-- The numbers of the format are the multiples of their last digits. -/
lemma flFrom_eq_self (h : ∃ m : ℤ, q = m * 2 ^ lastExponent p least q) : flFrom p least q = q := by
  obtain ⟨m, e⟩ := h
  exact le_antisymm ((flFrom_le e.le).trans_eq e.symm) (e.le.trans (le_flFrom e.ge))

/-- Rounding twice is rounding once. -/
theorem flFrom_idem (digits : 0 < p) (nonneg : 0 ≤ q) :
    flFrom p least (flFrom p least q) = flFrom p least q := by
  apply flFrom_eq_self
  rcases nonneg.eq_or_lt with rfl | pos
  · refine ⟨0, ?_⟩
    have e : flFrom p least 0 = 0 := by simp [flFrom, nearestEven]
    rw [e]
    simp
  have rounded : 0 ≤ flFrom p least q := flFrom_nonneg nonneg
  rcases rounded.eq_or_lt with zero | pos'
  · exact ⟨0, by rw [← zero]; simp⟩
  -- all digits of the number together
  have bound : q ≤ 2 ^ (lastExponent p least q + p) := by
    refine (log_bounds pos).2.le.trans (zpow_le_zpow_right₀ (by norm_num) ?_)
    unfold lastExponent
    omega
  have within : flFrom p least q ≤ 2 ^ (lastExponent p least q + p) := flFrom_le_zpow bound (by omega)
  rcases within.eq_or_lt with power | less
  · rw [power]
    refine ⟨_, two_zpow_eq ?_⟩
    have log : Int.log 2 ((2 : ℚ) ^ (lastExponent p least q + p)) = lastExponent p least q + p := by
      exact_mod_cast Int.log_zpow (R := ℚ) (b := 2) (by decide) (lastExponent p least q + p)
    rw [lastExponent, log]
    unfold lastExponent
    omega
  · have log : Int.log 2 (flFrom p least q) < lastExponent p least q + p := by
      have low := (log_bounds pos').1.trans_lt less
      exact (zpow_lt_zpow_iff_right₀ (by norm_num)).mp low
    have finer : lastExponent p least (flFrom p least q) ≤ lastExponent p least q := by
      rw [lastExponent]
      refine max_le (le_max_left _ _) (by omega)
    refine ⟨nearestEven (q / 2 ^ lastExponent p least q) *
      2 ^ (lastExponent p least q - lastExponent p least (flFrom p least q)).toNat, ?_⟩
    rw [Int.cast_mul, mul_assoc, ← two_zpow_eq finer]
    rfl

/-- The last digit of a number below `2 ^ p` does not lie before the point. -/
lemma lastExponent_nonpos (low : least ≤ 0) (pos : 0 < q) (lt : q < 2 ^ p) : lastExponent p least q ≤ 0 := by
  have log : Int.log 2 q < p := by
    have h := (log_bounds pos).1.trans_lt lt
    rw [← zpow_natCast] at h
    exact (zpow_lt_zpow_iff_right₀ (by norm_num)).mp h
  unfold lastExponent
  omega

/-- A natural number is a multiple of a digit after the point. -/
lemma natCast_eq {k : ℤ} (le : k ≤ 0) (n : ℕ) : (n : ℚ) = ((n * 2 ^ (0 - k).toNat : ℤ) : ℚ) * 2 ^ k := by
  rw [Int.cast_mul, mul_assoc, ← two_zpow_eq le, zpow_zero, mul_one, Int.cast_natCast]

/-- Natural numbers of `p` digits are kept. -/
lemma flFrom_natCast {n : ℕ} (low : least ≤ 0) (lt : n < 2 ^ p) : flFrom p least n = n := by
  rcases Nat.eq_zero_or_pos n with rfl | pos
  · simp [flFrom, nearestEven]
  · exact flFrom_eq_self ⟨_, natCast_eq (lastExponent_nonpos low (by exact_mod_cast pos) (by exact_mod_cast lt)) n⟩

/-- What is lost is at most one part in `2 ^ p`, where no digit is cut off at the least exponent. -/
lemma flFrom_error (pos : 0 < q) (normal : least ≤ Int.log 2 q - (p - 1)) :
    flFrom p least q ≤ q + q / 2 ^ p := by
  have unit : (2 : ℚ) ^ lastExponent p least q = ulp p q := by
    rw [ulp, lastExponent, max_eq_right normal]
  have same : flFrom p least q = fl p q := by
    rw [flFrom, unit, fl]
  have := (abs_le.mp (fl_error (p := p) pos)).2
  rw [same]
  linarith

/-- A quotient by a natural number is not rounded up to an integer. -/
lemma flFrom_div_lt {n : ℕ} (digits : 0 < p) (low : least ≤ -p) (nonneg : 0 ≤ q) (kept : flFrom p least q = q)
    (pos : 0 < d) (lt : q / d < n) (small : n * d ≤ 2 ^ p) : flFrom p least (q / d) < n := by
  have dpos : (0 : ℚ) < d := by exact_mod_cast pos
  have quotient : 0 ≤ q / d := div_nonneg nonneg dpos.le
  rcases le_or_gt (q / d) (2 ^ (-1 : ℤ)) with half | more
  · -- a quotient of at most one half
    have one : (1 : ℚ) ≤ n := by
      have : (0 : ℚ) < n := quotient.trans_lt lt
      exact_mod_cast this
    have kept : flFrom p least (2 ^ (-1 : ℤ)) ≤ 2 ^ (-1 : ℤ) := by
      refine flFrom_le_zpow le_rfl ?_
      have log : Int.log 2 ((2 : ℚ) ^ (-1 : ℤ)) = -1 := by
        exact_mod_cast Int.log_zpow (R := ℚ) (b := 2) (by decide) (-1)
      rw [lastExponent, log]
      omega
    have le := (flFrom_mono digits quotient half).trans kept
    norm_num at le ⊢
    linarith
  · have pos' : 0 < q / d := lt_trans (by positivity) more
    have qpos : 0 < q := (div_pos_iff_of_pos_right dpos).mp pos'
    have less : q / d ≤ q := div_le_self nonneg (by exact_mod_cast pos)
    have log : -1 ≤ Int.log 2 (q / d) := by
      have h := more.trans (log_bounds pos').2
      have := (zpow_lt_zpow_iff_right₀ (by norm_num : (1 : ℚ) < 2)).mp h
      omega
    have log' : Int.log 2 (q / d) ≤ Int.log 2 q := Int.log_mono_right pos' less
    have last : lastExponent p least q = Int.log 2 q - (p - 1) := by
      unfold lastExponent
      omega
    -- the product is at least one unit of the last digit away
    have product : q < (n * d : ℕ) := by
      rw [div_lt_iff₀ dpos] at lt
      exact_mod_cast lt
    have after : lastExponent p least q ≤ 0 :=
      lastExponent_nonpos (by omega) qpos (product.trans_le (by exact_mod_cast small))
    have unit : (0 : ℚ) < 2 ^ lastExponent p least q := zpow_pos two_pos _
    have step : q + 2 ^ lastExponent p least q ≤ n * d := by
      have whole : q = nearestEven (q / 2 ^ lastExponent p least q) * 2 ^ lastExponent p least q := kept.symm
      have cast := natCast_eq after (n * d)
      have multiples := (whole.symm.trans_lt product).trans_eq cast
      have succ := Int.add_one_le_iff.mpr (Int.cast_lt.mp ((mul_lt_mul_iff_left₀ unit).mp multiples))
      have le := mul_le_mul_of_nonneg_right (Int.cast_le (R := ℚ).mpr succ) unit.le
      rw [← cast] at le
      push_cast at le
      linarith
    -- the error is less than that
    have error : q / 2 ^ p < 2 ^ lastExponent p least q := by
      rw [div_lt_iff₀ (by positivity), last, ← zpow_natCast, ← zpow_add₀ two_ne_zero]
      refine (log_bounds qpos).2.trans_eq ?_
      congr 1
      omega
    refine (flFrom_error pos' (by omega)).trans_lt ?_
    have scaled : q / d + q / d / 2 ^ p = (q + q / 2 ^ p) / d := by ring
    rw [scaled, div_lt_iff₀ dpos]
    linarith

/-- The integer part of a quotient by a natural number is not changed by rounding. -/
theorem floor_flFrom_div (digits : 0 < p) (low : least ≤ -p) (nonneg : 0 ≤ q) (kept : flFrom p least q = q)
    (pos : 0 < d) (small : (⌊q / d⌋₊ + 1) * d ≤ 2 ^ p) : ⌊flFrom p least (q / d)⌋ = ⌊q / d⌋ := by
  have quotient : 0 ≤ q / d := div_nonneg nonneg (by positivity)
  have floor : (⌊q / d⌋₊ : ℤ) = ⌊q / d⌋ := Int.natCast_floor_eq_floor quotient
  have fits : ⌊q / d⌋₊ < 2 ^ p := by
    have : ⌊q / d⌋₊ + 1 ≤ (⌊q / d⌋₊ + 1) * d := Nat.le_mul_of_pos_right _ pos
    omega
  have above := flFrom_div_lt digits low nonneg kept pos (by exact_mod_cast Nat.lt_floor_add_one (q / d)) small
  have below : flFrom p least ⌊q / d⌋₊ ≤ flFrom p least (q / d) :=
    flFrom_mono digits (by positivity) (Nat.floor_le quotient)
  rw [flFrom_natCast (by omega) fits] at below
  rw [← floor, Int.floor_eq_iff]
  push_cast at above ⊢
  exact ⟨below, above⟩

/-- Rounding to doubles keeps the order. -/
lemma double_mono (nonneg : 0 ≤ q) (le : q ≤ r) : double q ≤ double r := flFrom_mono (by decide) nonneg le

/-- A double is rounded to itself. -/
lemma double_double (nonneg : 0 ≤ q) : double (double q) = double q := flFrom_idem (by decide) nonneg

/-- The natural numbers that are doubles whatever their digits are. -/
lemma double_natCast {n : ℕ} (lt : n < 2 ^ 53) : double n = n := flFrom_natCast (by decide) lt

end
end PromotionCache.Lib
