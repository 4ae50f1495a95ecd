import PromotionCache.Pcc.SingleSpec

/-!
# When the passes run

`pcc_track_access` runs a pass at the counts that are congruent to `ACCESS_INTERVAL` or to zero
modulo the period `FACTOR*ACCESS_INTERVAL`. With a factor of 1 these are the multiples of
`ACCESS_INTERVAL`; otherwise two passes fall into each period, and the distance between them is
never the period.
-/

namespace PromotionCache.Pcc.Single
open Lib Tlb Sim

/-- The `k`-th access of a trace runs a pass. -/
def PassAt (cfg : Config) (as : List UInt64) (k : Nat) : Prop :=
  ∃ pre a s t, pre ++ [a] <+: as ∧ k = pre.length + 1 ∧ simulate cfg pre = some s ∧
    pccTrackAccess cfg s a = some t ∧ s.passes none < t.passes none

/-- Any two consecutive passes are `FACTOR*ACCESS_INTERVAL` accesses apart. -/
def EvenlySpaced (cfg : Config) (as : List UInt64) : Prop :=
  ∀ i j, PassAt cfg as i → PassAt cfg as j → i < j → (∀ k, i < k → k < j → ¬ PassAt cfg as k) →
    j = i + cfg.factor.toNat * cfg.accessInterval.toNat

section
variable {cfg : Config} {g : Geometry} {s t : Sim} {as : List UInt64} {n : Nat}

/-- The counter has the length of the trace, as far as it fits. -/
lemma simulate_count (h : simulate cfg as = some s) : s.totalNumAccesses = word as.length := by
  have pos := simulate_pos h
  refine simulate_inv (fun bs s => s.totalNumAccesses = word bs.length) ?_ ?_ h
  · intro s hinit
    obtain ⟨_, _, _, shared⟩ := promotionCacheInit_spec pos hinit
    rw [shared]
    rfl
  · intro bs a _ u v hu count st
    obtain ⟨m, hm, htrack⟩ := pccTrackAccess_inv st
    obtain ⟨g, val⟩ := simulate_valid pos hu
    obtain ⟨val', _, _, _, _, passed⟩ := countAccess_spec val hm
    obtain ⟨_, _, total, _⟩ := trackAccess_spec val' htrack
    have total' : m.totalNumAccesses = word (u.totalNumAccesses + 1) := passed.totalNumAccesses
    rw [total, total', count, word_succ, List.length_append]
    rfl

/-- The number of an access, when it has been counted. -/
lemma countAccess_count {m : Sim} (h : simulate cfg as = some s) (hm : countAccess cfg s = some m) :
    m.totalNumAccesses = word (as.length + 1) := by
  obtain ⟨g, val⟩ := simulate_valid (simulate_pos h) h
  obtain ⟨_, _, _, _, _, passed⟩ := countAccess_spec val hm
  have total : m.totalNumAccesses = word (s.totalNumAccesses + 1) := passed.totalNumAccesses
  rw [total, simulate_count h, word_succ]

/-- An access adds a pass if one is due. -/
lemma passes_step {a : UInt64} (val : s.toCore.Valid g) (st : pccTrackAccess cfg s a = some t) :
    t.passes none = s.passes none + if passDue cfg (word (s.totalNumAccesses + 1)) then 1 else 0 := by
  obtain ⟨m, hm, htrack⟩ := pccTrackAccess_inv st
  obtain ⟨val', head, bases, _, hhead, passed⟩ := countAccess_spec val hm
  obtain ⟨_, _, _, cout, _⟩ := trackAccess_spec val' htrack
  obtain ⟨lines, cout', listed⟩ := passed.cout
  have e : t.cout = s.cout ++ head ++ lines := cout.trans cout'
  rw [Shared.passes, Shared.passes, e, List.countP_append, List.countP_append, countP_listed listed, hhead,
    Nat.add_zero]
  congr 1
  show List.countP _ (if passDue cfg (word (s.totalNumAccesses + 1)) then _ else _) = _
  split <;> rfl

/-- The accesses of a trace that run a pass. -/
lemma passAt_iff (h : simulate cfg as = some s) {k : Nat} :
    PassAt cfg as k ↔ 1 ≤ k ∧ k ≤ as.length ∧ passDue cfg (word k) = true := by
  have pos := simulate_pos h
  -- a step of the trace runs a pass if one is due
  have step : ∀ pre a u v, simulate cfg pre = some u → pccTrackAccess cfg u a = some v →
      (u.passes none < v.passes none ↔ passDue cfg (word (pre.length + 1)) = true) := by
    intro pre a u v hu st
    obtain ⟨g, val⟩ := simulate_valid pos hu
    rw [passes_step val st, simulate_count hu, word_succ]
    split
    case isTrue due => simp [due]
    case isFalse due => simp [due]
  constructor
  · rintro ⟨pre, a, u, v, hpre, rfl, hu, st, lt⟩
    have len := hpre.length_le
    rw [List.length_append] at len
    exact ⟨Nat.le_add_left _ _, len, (step pre a u v hu st).mp lt⟩
  · rintro ⟨one, len, due⟩
    obtain ⟨k, rfl⟩ : ∃ i, k = i + 1 := ⟨k - 1, by omega⟩
    have pre : as.take k ++ [as[k]] <+: as := by
      rw [List.take_append_getElem]
      exact List.take_prefix _ _
    obtain ⟨v, hv⟩ := simulate_prefix pre h
    obtain ⟨u, hu, st⟩ := simulate_snoc.mp hv
    have count : k + 1 = (as.take k).length + 1 := by
      rw [List.length_take]
      omega
    refine ⟨as.take k, as[k], u, v, pre, count, hu, st, ?_⟩
    rw [step _ _ u v hu st, ← count]
    exact due

/-- The access that runs the second pass of a trace, in a period longer than one
    `ACCESS_INTERVAL`; the counter wraps around at `2 ^ 64`. -/
def secondPass (cfg : Config) : Nat :=
  if 1 < cfg.factor.toNat ∧ cfg.accessInterval.toNat < cfg.period then cfg.period
  else min (2 * cfg.period) (2 ^ 64)

/-- A pass is due twice in a period, or once if the factor is 1. -/
lemma passDue_iff {c : Nat} : passDue cfg c = true ↔
    (1 < cfg.factor.toNat ∧ c % cfg.period = cfg.accessInterval.toNat) ∨ c % cfg.period = 0 := by
  simp [passDue]

/-- The period is at most the product, which may wrap around. -/
lemma period_le (cfg : Config) :
    cfg.period ≤ cfg.factor.toNat * cfg.accessInterval.toNat := Nat.mod_le _ _

/-- With the factor 1, the period is the interval. -/
lemma period_one (one : cfg.factor.toNat = 1) : cfg.period = cfg.accessInterval.toNat := by
  rw [Config.period, one, Nat.one_mul]
  exact Nat.mod_eq_of_lt cfg.accessInterval.toNat_lt

/-- From a multiple of `d` to the next one it is `d`. -/
lemma next_multiple {d i j : Nat} (hi : d ∣ i) (hj : d ∣ j) (lt : i < j)
    (none : ∀ k, i < k → k < j → ¬ d ∣ k) : j = i + d := by
  have le : d ≤ j - i := Nat.le_of_dvd (by omega) (Nat.dvd_sub hj hi)
  by_contra ne
  have pos : 0 < d := by
    rcases Nat.eq_zero_or_pos d with rfl | pos
    · rw [Nat.zero_dvd] at hi hj
      omega
    · exact pos
  exact none (i + d) (by omega) (by omega) (Nat.dvd_add hi (Nat.dvd_refl d))

/-- A trace gets past its first access only if the period is not zero. -/
lemma simulate_period (h : simulate cfg as = some s) (ne : as ≠ []) : 0 < cfg.period := by
  cases as with
  | nil => exact absurd rfl ne
  | cons a as =>
    have pre : [a] <+: a :: as := ⟨as, rfl⟩
    obtain ⟨t, ht⟩ := simulate_prefix pre h
    rw [← List.nil_append [a]] at ht
    obtain ⟨u, _, st⟩ := simulate_snoc.mp ht
    obtain ⟨m, hm, _⟩ := pccTrackAccess_inv st
    exact Nat.pos_of_ne_zero (countAccess_inv hm).1

/-- What is due within one turn of the counter if both conditions do not name two residues. -/
lemma due_dvd {c : Nat} (pos : 0 < cfg.period)
    (no : ¬ (1 < cfg.factor.toNat ∧ cfg.accessInterval.toNat < cfg.period))
    (due : passDue cfg c = true) : cfg.period ∣ c := by
  rcases passDue_iff.mp due with ⟨gt, e⟩ | e
  · exact absurd ⟨gt, e ▸ Nat.mod_lt c pos⟩ no
  · exact Nat.dvd_of_mod_eq_zero e

/-- There are no two passes before the second. -/
lemma secondPass_le {i j : Nat} (pos : 0 < cfg.period) (one : 1 ≤ i) (lt : i < j)
    (hi : passDue cfg (word i) = true) (hj : passDue cfg (word j) = true) :
    secondPass cfg ≤ j := by
  have period := period_lt cfg
  rcases Nat.lt_or_ge j (2 ^ 64) with small | big
  · rw [word_of_lt (by omega)] at hi hj
    unfold secondPass
    split
    case isTrue both =>
      -- below the period only `ACCESS_INTERVAL` itself is due
      by_contra lt'
      rw [passDue_iff, Nat.mod_eq_of_lt (by omega)] at hi hj
      omega
    case isFalse no =>
      obtain ⟨a, rfl⟩ := due_dvd pos no hi
      obtain ⟨b, rfl⟩ := due_dvd pos no hj
      have a1 : 0 < a := Nat.pos_of_mul_pos_left one
      have ab : a < b := Nat.lt_of_mul_lt_mul_left lt
      have two : cfg.period * 2 ≤ cfg.period * b := Nat.mul_le_mul_left _ (by omega)
      omega
  · unfold secondPass
    split <;> omega

/-- The first pass of a trace. -/
def firstPass (cfg : Config) : Nat :=
  if 1 < cfg.factor.toNat ∧ cfg.accessInterval.toNat < cfg.period then cfg.accessInterval.toNat
  else cfg.period

/-- The first pass is due, and before the second. -/
lemma firstPass_spec (pos : 0 < cfg.period) (hI : 1 ≤ cfg.accessInterval.toNat) :
    1 ≤ firstPass cfg ∧ firstPass cfg < secondPass cfg ∧
      passDue cfg (word (firstPass cfg)) = true := by
  have period := period_lt cfg
  unfold firstPass secondPass
  split
  case isTrue both =>
    refine ⟨hI, both.2, passDue_iff.mpr (.inl ⟨both.1, ?_⟩)⟩
    rw [word_of_lt (by omega)]
    exact Nat.mod_eq_of_lt both.2
  case isFalse =>
    refine ⟨pos, by omega, passDue_iff.mpr (.inr ?_)⟩
    rw [word_of_lt period]
    exact Nat.mod_self _

/-- The second pass is due. -/
lemma secondPass_due : passDue cfg (word (secondPass cfg)) = true := by
  have period := period_lt cfg
  apply passDue_iff.mpr
  right
  unfold secondPass
  split
  case isTrue =>
    rw [word_of_lt period]
    exact Nat.mod_self _
  case isFalse =>
    rcases Nat.lt_or_ge (2 * cfg.period) (2 ^ 64) with lt | ge
    · rw [Nat.min_eq_left lt.le, word_of_lt lt]
      exact Nat.mul_mod_left _ _
    · rw [Nat.min_eq_right ge, word, Nat.mod_self, Nat.zero_mod]

/-- With a factor of 1 the counter is due at the multiples of `ACCESS_INTERVAL`. -/
lemma passDue_one {c : Nat} (one : cfg.factor.toNat = 1) :
    passDue cfg c = true ↔ cfg.accessInterval.toNat ∣ c := by
  rw [passDue_iff, period_one one, Nat.dvd_iff_mod_eq_zero]
  omega

/-- With a larger factor the first two passes are closer than the period. -/
lemma secondPass_lt (hI : 1 ≤ cfg.accessInterval.toNat) (gt : 1 < cfg.factor.toNat) :
    secondPass cfg < firstPass cfg + cfg.factor.toNat * cfg.accessInterval.toNat := by
  have le := period_le cfg
  have lt : cfg.accessInterval.toNat < cfg.factor.toNat * cfg.accessInterval.toNat :=
    (Nat.lt_mul_iff_one_lt_left hI).mpr gt
  unfold firstPass secondPass
  split
  case isTrue => omega
  case isFalse no =>
    have small : cfg.period ≤ cfg.accessInterval.toNat := Nat.le_of_not_lt fun h => no ⟨gt, h⟩
    omega

/-- The last multiple of `ACCESS_INTERVAL` before the counter wraps around, if it is none itself,
    is closer to that than `ACCESS_INTERVAL`. -/
lemma wrap_gap {d : Nat} (pos : 0 < d) (lt : d < 2 ^ 64) (no : ¬ d ∣ 2 ^ 64) :
    ∃ i, 1 ≤ i ∧ i < 2 ^ 64 ∧ d ∣ i ∧ 2 ^ 64 < i + d ∧
      ∀ k, i < k → k < 2 ^ 64 → ¬ d ∣ k := by
  have e := Nat.div_add_mod (2 ^ 64) d
  have rest : 0 < 2 ^ 64 % d := Nat.emod_pos_of_not_dvd no
  have small := Nat.mod_lt (2 ^ 64) pos
  have one : d * 1 ≤ d * (2 ^ 64 / d) := Nat.mul_le_mul_left d ((Nat.one_le_div_iff pos).mpr lt.le)
  refine ⟨d * (2 ^ 64 / d), by omega, by omega, Nat.dvd_mul_right _ _, by omega, ?_⟩
  intro k hk hk' dvd
  have next := Nat.le_of_dvd (by omega) (Nat.dvd_sub dvd (Nat.dvd_mul_right d (2 ^ 64 / d)))
  omega

/-- With a factor of 1 consecutive passes are a period apart while the counter does not wrap around,
    or if it does so at a multiple of `ACCESS_INTERVAL`. -/
lemma evenlySpaced_of_one (h : simulate cfg as = some s) (one : cfg.factor.toNat = 1)
    (fits : as.length < 2 ^ 64 ∨ cfg.accessInterval.toNat ∣ 2 ^ 64) : EvenlySpaced cfg as := by
  have at_iff : ∀ k, PassAt cfg as k ↔
      1 ≤ k ∧ k ≤ as.length ∧ cfg.accessInterval.toNat ∣ k := by
    intro k
    rw [passAt_iff h, passDue_one one]
    refine and_congr_right fun _ => and_congr_right fun len => ?_
    rcases fits with small | dvd
    · rw [word_of_lt (by omega)]
    · exact Nat.dvd_mod_iff dvd
  intro i j hi hj lt none
  obtain ⟨one_i, _, dvd_i⟩ := (at_iff i).mp hi
  obtain ⟨_, len_j, dvd_j⟩ := (at_iff j).mp hj
  rw [one, Nat.one_mul]
  apply next_multiple dvd_i dvd_j lt
  intro k hk hk' dvd
  exact none k hk hk' ((at_iff k).mpr ⟨by omega, by omega, dvd⟩)

/-- Otherwise the last pass before the counter wraps around and the one at that access are too
    close. -/
lemma not_evenlySpaced_wrap (h : simulate cfg as = some s) (one : cfg.factor.toNat = 1)
    (hI : 1 ≤ cfg.accessInterval.toNat) (len : 2 ^ 64 ≤ as.length)
    (ndvd : ¬ cfg.accessInterval.toNat ∣ 2 ^ 64) : ¬ EvenlySpaced cfg as := by
  intro even
  obtain ⟨i, hi, lt, dvd, close, none⟩ := wrap_gap hI cfg.accessInterval.toNat_lt ndvd
  have before : PassAt cfg as i := by
    refine (passAt_iff h).mpr ⟨hi, by omega, ?_⟩
    rw [word_of_lt lt]
    exact (passDue_one one).mpr dvd
  have wrapped : PassAt cfg as (2 ^ 64) := by
    refine (passAt_iff h).mpr ⟨by omega, len, ?_⟩
    rw [word, Nat.mod_self]
    exact (passDue_one one).mpr (Nat.dvd_zero _)
  have e := even i (2 ^ 64) before wrapped lt ?_
  · rw [one, Nat.one_mul] at e
    omega
  · intro k hk hk' at_k
    have due := ((passAt_iff h).mp at_k).2.2
    rw [word_of_lt hk'] at due
    exact none k hk hk' ((passDue_one one).mp due)

/-- With a larger factor the first two passes are. -/
lemma not_evenlySpaced_two (h : simulate cfg as = some s) (ne : as ≠ [])
    (gt : 1 < cfg.factor.toNat) (hI : 1 ≤ cfg.accessInterval.toNat)
    (two : secondPass cfg ≤ as.length) : ¬ EvenlySpaced cfg as := by
  intro even
  have pos := simulate_period h ne
  obtain ⟨one, lt, due⟩ := firstPass_spec pos hI
  have close := secondPass_lt hI gt
  have first : PassAt cfg as (firstPass cfg) := (passAt_iff h).mpr ⟨one, by omega, due⟩
  have second : PassAt cfg as (secondPass cfg) :=
    (passAt_iff h).mpr ⟨by omega, two, secondPass_due⟩
  have e := even _ _ first second lt ?_
  · omega
  · intro k hk hk' at_k
    obtain ⟨_, _, due'⟩ := (passAt_iff h).mp at_k
    have le := secondPass_le pos one hk due due'
    omega

/-- A trace that ends before the second pass has no two passes. -/
lemma evenlySpaced_of_short (h : simulate cfg as = some s) (ne : as ≠ [])
    (short : as.length < secondPass cfg) : EvenlySpaced cfg as := by
  intro i j hi hj lt
  obtain ⟨one, _, due⟩ := (passAt_iff h).mp hi
  obtain ⟨_, len, due'⟩ := (passAt_iff h).mp hj
  have le := secondPass_le (simulate_period h ne) one lt due due'
  omega

/-- Consecutive passes are a period apart if and only if the trace is too short for a second pass,
    or the factor is 1 and the counter either does not wrap around or does so at a multiple of
    `ACCESS_INTERVAL`. -/
theorem evenlySpaced_iff (hF : 1 ≤ cfg.factor.toNat) (hI : 1 ≤ cfg.accessInterval.toNat)
    (h : simulate cfg as = some s) :
    EvenlySpaced cfg as ↔ as = [] ∨
      (cfg.factor.toNat = 1 ∧ (as.length < 2 ^ 64 ∨ cfg.accessInterval.toNat ∣ 2 ^ 64)) ∨
      as.length < secondPass cfg := by
  rcases eq_or_ne as [] with rfl | ne
  · simp only [true_or, iff_true]
    intro i j hi
    obtain ⟨one, len, _⟩ := (passAt_iff h).mp hi
    simp at len
    omega
  constructor
  · intro even
    by_contra no
    push Not at no
    obtain ⟨_, no, two⟩ := no
    rcases Nat.eq_or_lt_of_le hF with one | gt
    · obtain ⟨len, ndvd⟩ := no one.symm
      exact not_evenlySpaced_wrap h one.symm hI len ndvd even
    · exact not_evenlySpaced_two h ne gt hI two even
  · rintro (nil | ⟨one, fits⟩ | short)
    · exact absurd nil ne
    · exact evenlySpaced_of_one h one fits
    · exact evenlySpaced_of_short h ne short

/-- With a factor of 2 and a pass due at every access: consecutive passes are one access apart. -/
theorem passes_too_close :
    ∃ s, simulate ⟨1, 2, 1, 0.9⟩ [0, 0] = some s ∧ PassAt ⟨1, 2, 1, 0.9⟩ [0, 0] 1 ∧
      PassAt ⟨1, 2, 1, 0.9⟩ [0, 0] 2 ∧ ¬ EvenlySpaced ⟨1, 2, 1, 0.9⟩ [0, 0] := by
  have run : (simulate ⟨1, 2, 1, 0.9⟩ [0, 0]).isSome = true := by decide +kernel
  obtain ⟨s, h⟩ := Option.isSome_iff_exists.mp run
  have first : PassAt ⟨1, 2, 1, 0.9⟩ [0, 0] 1 := (passAt_iff h).mpr ⟨by decide, by decide, by decide⟩
  have second : PassAt ⟨1, 2, 1, 0.9⟩ [0, 0] 2 := (passAt_iff h).mpr ⟨by decide, by decide, by decide⟩
  refine ⟨s, h, first, second, ?_⟩
  intro even
  have e := even 1 2 first second (by decide) (by omega)
  revert e
  decide

/-- With a factor of 1 and an interval of 2: four accesses have passes at the second and at the fourth. -/
theorem evenlySpaced_iff_four :
    ∃ s, simulate ⟨1, 1, 2, 0.9⟩ [0, 0, 0, 0] = some s ∧ PassAt ⟨1, 1, 2, 0.9⟩ [0, 0, 0, 0] 2 ∧
      PassAt ⟨1, 1, 2, 0.9⟩ [0, 0, 0, 0] 4 ∧ EvenlySpaced ⟨1, 1, 2, 0.9⟩ [0, 0, 0, 0] := by
  have run : (simulate ⟨1, 1, 2, 0.9⟩ [0, 0, 0, 0]).isSome = true := by decide +kernel
  obtain ⟨s, h⟩ := Option.isSome_iff_exists.mp run
  refine ⟨s, h, (passAt_iff h).mpr ⟨by decide, by decide, by decide⟩,
    (passAt_iff h).mpr ⟨by decide, by decide, by decide⟩, ?_⟩
  exact (evenlySpaced_iff (by decide) (by decide) h).mpr (.inr (.inl ⟨rfl, .inl (by decide)⟩))

end
end PromotionCache.Pcc.Single
