import PromotionCache.Pcc.MultiSpec

/-!
# Passes of the multithread simulator

When the passes of a thread run, and which regions they promote. The counter of a thread has 32
bits, the period has 64: as long as neither wraps around, a pass runs once per period, except that
with a factor of 1 it never does. A pass promotes what the promotion cache holds, used or not.
-/

namespace PromotionCache.Pcc.Multi
open Lib Tlb Sim

section
variable {cfg : Config} {s t : Mt} {n tid : Nat} {as : List (UInt64 × Nat)}

/-- The passes of a thread run at the accesses of that thread whose true number is congruent to
    `ACCESS_INTERVAL` modulo the true `FACTOR*ACCESS_INTERVAL`, and at no other access. -/
def OnTime (cfg : Config) (n tid : Nat) (as : List (UInt64 × Nat)) : Prop :=
  ∀ pre x s t, pre ++ [x] <+: as → simulate cfg n pre = some s → pccTrackAccess cfg s x = some t →
    (s.passes (some tid) < t.passes (some tid) ↔ x.2 = tid ∧
      accessesOf tid (pre ++ [x]) % (cfg.factor.toNat * cfg.accessInterval.toNat) =
        cfg.accessInterval.toNat % (cfg.factor.toNat * cfg.accessInterval.toNat))

/-- How many accesses after the counter wrapped around the residue is not off by a pass. -/
def wrapMargin (cfg : Config) : Nat :=
  let rest := 2 ^ 32 % (cfg.factor.toNat * cfg.accessInterval.toNat)
  if rest ≤ cfg.accessInterval.toNat then cfg.accessInterval.toNat - rest
  else cfg.accessInterval.toNat

/-- A pass is due once in a period. -/
lemma passDue_iff {c : Nat} :
    passDue cfg c = true ↔ c % cfg.period = cfg.accessInterval.toNat := by
  simp [passDue]

/-- A step of a trace runs a pass of the thread if it is one of its accesses and one is due. -/
lemma passes_step {pre : List (UInt64 × Nat)} {x : UInt64 × Nat} (hs : simulate cfg n pre = some s)
    (st : pccTrackAccess cfg s x = some t) :
    s.passes (some tid) < t.passes (some tid) ↔
      x.2 = tid ∧ passDue cfg (accessesOf tid (pre ++ [x]) % 2 ^ 32) = true := by
  obtain ⟨_, _, _, count, hcount, passes⟩ := pccTrackAccess_spec (simulate_valid hs) st
  rw [passes tid]
  rw [numAccesses_counted] at hcount
  obtain ⟨old, hold, rfl⟩ := Option.map_eq_some_iff.mp hcount
  rw [if_pos rfl]
  by_cases own : x.2 = tid
  · rw [own] at hold
    rw [accessesOf_snoc, simulate_counts hs old hold, if_pos own, Nat.mod_add_mod]
    split
    case isTrue due => exact iff_of_true (Nat.lt_succ_self _) due
    case isFalse due => exact iff_of_false (Nat.lt_irrefl _) due
  · simp [own]

/-- At the `k`-th access of a thread the residue of its counter says what that of `k` does. -/
def Agrees (cfg : Config) (k : Nat) : Prop :=
  k % 2 ^ 32 % cfg.period = cfg.accessInterval.toNat ↔
    k % (cfg.factor.toNat * cfg.accessInterval.toNat) =
      cfg.accessInterval.toNat % (cfg.factor.toNat * cfg.accessInterval.toNat)

/-- The counts of a thread along a trace. -/
lemma onTime_iff_counts (h : simulate cfg n as = some s) :
    OnTime cfg n tid as ↔ ∀ k, 1 ≤ k → k ≤ accessesOf tid as → Agrees cfg k := by
  constructor
  · intro onTime k pos le
    obtain ⟨pre, x, hpre, own, count⟩ := exists_prefix_countP pos le
    have own : x.2 = tid := of_decide_eq_true own
    have count : accessesOf tid (pre ++ [x]) = k := count
    obtain ⟨v, hv⟩ := simulate_prefix hpre h
    obtain ⟨u, hu, st⟩ := simulate_snoc.mp hv
    have iff := onTime pre x u v hpre hu st
    rw [passes_step hu st, count, passDue_iff] at iff
    simpa [Agrees, own] using iff
  · intro counts pre x u v hpre hu st
    rw [passes_step hu st, passDue_iff]
    apply and_congr_right
    intro own
    have one : 1 ≤ accessesOf tid (pre ++ [x]) := by
      rw [accessesOf_snoc, if_pos own]
      exact Nat.le_add_left _ _
    exact counts _ one (hpre.sublist.countP_le)

/-- Below `ACCESS_INTERVAL` the counter is not due. -/
lemma not_due {c : Nat} (lt : c < cfg.accessInterval.toNat) :
    c % cfg.period ≠ cfg.accessInterval.toNat := by
  have le := Nat.mod_le c cfg.period
  omega

/-- Where the counter reaches `ACCESS_INTERVAL` the product does not overflow. -/
lemma period_eq (lt : cfg.accessInterval.toNat < 2 ^ 32) :
    cfg.period = cfg.factor.toNat * cfg.accessInterval.toNat := by
  have factor := cfg.factor.toNat_lt
  apply Nat.mod_eq_of_lt
  calc cfg.factor.toNat * cfg.accessInterval.toNat
      ≤ 2 ^ 32 * cfg.accessInterval.toNat := Nat.mul_le_mul_right _ factor.le
    _ < 2 ^ 32 * 2 ^ 32 := Nat.mul_lt_mul_of_pos_left lt (by decide)
    _ = 2 ^ 64 := by decide

/-- The interval is below the period. -/
lemma interval_lt (hI : 1 ≤ cfg.accessInterval.toNat) (gt : 1 < cfg.factor.toNat) :
    cfg.accessInterval.toNat < cfg.factor.toNat * cfg.accessInterval.toNat :=
  (Nat.lt_mul_iff_one_lt_left hI).mpr gt

/-- The residues agree at the counts up to the first `ACCESS_INTERVAL`. -/
lemma agree_start {k : Nat} (hF : 1 ≤ cfg.factor.toNat) (pos : 1 ≤ k)
    (lt : k < cfg.accessInterval.toNat) : Agrees cfg k := by
  unfold Agrees
  have small := Nat.mod_le k (2 ^ 32)
  have code : k % 2 ^ 32 % cfg.period ≠ cfg.accessInterval.toNat := not_due (by omega)
  refine iff_of_false code ?_
  rcases Nat.eq_or_lt_of_le hF with one | gt
  · rw [← one, Nat.one_mul, Nat.mod_self, Nat.mod_eq_of_lt lt]
    omega
  · have := interval_lt (by omega) gt
    rw [Nat.mod_eq_of_lt this, Nat.mod_eq_of_lt (by omega)]
    omega

/-- The residues agree as long as the counter does not wrap around, and after that at the counts
    before the margin is used up. -/
lemma agree_wrap {k : Nat} (hI : 1 ≤ cfg.accessInterval.toNat) (gt : 1 < cfg.factor.toNat)
    (small : cfg.accessInterval.toNat < 2 ^ 32) (lt : k < 2 ^ 32 + wrapMargin cfg) :
    Agrees cfg k := by
  unfold Agrees
  have big := interval_lt hI gt
  rw [Nat.mod_eq_of_lt big]
  rcases Nat.lt_or_ge k (2 ^ 32) with before | after
  · rw [Nat.mod_eq_of_lt before, period_eq small]
  · obtain ⟨r, rfl⟩ := Nat.exists_eq_add_of_le after
    have margin : r < wrapMargin cfg := by omega
    unfold wrapMargin at margin
    dsimp only at margin
    generalize cfg.factor.toNat * cfg.accessInterval.toNat = m at *
    have rest := Nat.mod_lt (2 ^ 32) (y := m) (by omega)
    have rlt : r < cfg.accessInterval.toNat := by
      split at margin <;> omega
    have wrapped : (2 ^ 32 + r) % 2 ^ 32 = r := by
      rw [Nat.add_mod_left, Nat.mod_eq_of_lt (by omega)]
    rw [wrapped]
    refine iff_of_false (not_due rlt) ?_
    rw [← Nat.mod_add_mod]
    generalize 2 ^ 32 % m = q at *
    rcases Nat.lt_or_ge (q + r) m with fits | past
    · rw [Nat.mod_eq_of_lt fits]
      split at margin <;> omega
    · rw [Nat.mod_eq_sub_mod past, Nat.mod_eq_of_lt (by omega)]
      omega

/-- They agree for good if the counter wraps around at a multiple of the period. -/
lemma agree_dvd {k : Nat} (hI : 1 ≤ cfg.accessInterval.toNat) (gt : 1 < cfg.factor.toNat)
    (small : cfg.accessInterval.toNat < 2 ^ 32)
    (dvd : cfg.factor.toNat * cfg.accessInterval.toNat ∣ 2 ^ 32) : Agrees cfg k := by
  unfold Agrees
  rw [Nat.mod_eq_of_lt (interval_lt hI gt), period_eq small, Nat.mod_mod_of_dvd k dvd]

/-- At `ACCESS_INTERVAL` a pass should run, and none does if the factor is 1 or the counter does not
    get there. -/
lemma disagree_start (no : ¬ (1 < cfg.factor.toNat ∧ cfg.accessInterval.toNat < 2 ^ 32))
    (hF : 1 ≤ cfg.factor.toNat) (hI : 1 ≤ cfg.accessInterval.toNat) :
    cfg.accessInterval.toNat % 2 ^ 32 % cfg.period ≠ cfg.accessInterval.toNat := by
  rcases Nat.lt_or_ge cfg.accessInterval.toNat (2 ^ 32) with small | large
  · have one : cfg.factor.toNat = 1 := by omega
    rw [Nat.mod_eq_of_lt small, period_eq small, one, Nat.one_mul, Nat.mod_self]
    omega
  · have := Nat.mod_lt cfg.accessInterval.toNat (y := 2 ^ 32) (by decide)
    exact not_due (by omega)

/-- When the margin is used up a pass is missing or one runs that should not. -/
lemma disagree_wrap (hI : 1 ≤ cfg.accessInterval.toNat) (gt : 1 < cfg.factor.toNat)
    (small : cfg.accessInterval.toNat < 2 ^ 32)
    (ndvd : ¬ cfg.factor.toNat * cfg.accessInterval.toNat ∣ 2 ^ 32) :
    ¬ Agrees cfg (2 ^ 32 + wrapMargin cfg) := by
  unfold Agrees
  have big := interval_lt hI gt
  have period := period_eq small
  rw [Nat.mod_eq_of_lt big]
  unfold wrapMargin
  dsimp only
  generalize cfg.factor.toNat * cfg.accessInterval.toNat = m at *
  have rest := Nat.mod_lt (2 ^ 32) (y := m) (by omega)
  have pos : 0 < 2 ^ 32 % m := Nat.emod_pos_of_not_dvd ndvd
  have wrapped : ∀ r, r < 2 ^ 32 → (2 ^ 32 + r) % 2 ^ 32 = r := by
    intro r hr
    rw [Nat.add_mod_left, Nat.mod_eq_of_lt hr]
  split
  case isTrue le =>
    -- the true count is congruent, the counter is below `ACCESS_INTERVAL`
    rw [wrapped _ (by omega)]
    have code : (cfg.accessInterval.toNat - 2 ^ 32 % m) % cfg.period ≠ cfg.accessInterval.toNat :=
      not_due (by omega)
    intro iff
    apply code
    apply iff.mpr
    rw [← Nat.mod_add_mod, Nat.add_sub_cancel' le]
    exact Nat.mod_eq_of_lt big
  case isFalse gt' =>
    -- the counter is congruent, the true count is off by the rest
    rw [wrapped _ small, period, Nat.mod_eq_of_lt big]
    intro iff
    have true_count := iff.mp rfl
    rw [← Nat.mod_add_mod] at true_count
    generalize 2 ^ 32 % m = q at *
    rcases Nat.lt_or_ge (q + cfg.accessInterval.toNat) m with fits | past
    · rw [Nat.mod_eq_of_lt fits] at true_count
      omega
    · rw [Nat.mod_eq_sub_mod past, Nat.mod_eq_of_lt (by omega)] at true_count
      omega

/-- The passes of a thread run when they should if and only if it makes less than `ACCESS_INTERVAL`
    accesses; or the factor is larger than 1 and the counter reaches `ACCESS_INTERVAL`, and it wraps
    around at a multiple of the period, or the thread ends before a pass is missing or runs too
    early after that. -/
theorem onTime_iff (hF : 1 ≤ cfg.factor.toNat) (hI : 1 ≤ cfg.accessInterval.toNat)
    (h : simulate cfg n as = some s) :
    OnTime cfg n tid as ↔ accessesOf tid as < cfg.accessInterval.toNat ∨
      (1 < cfg.factor.toNat ∧ cfg.accessInterval.toNat < 2 ^ 32 ∧
        (cfg.factor.toNat * cfg.accessInterval.toNat ∣ 2 ^ 32 ∨
          accessesOf tid as < 2 ^ 32 + wrapMargin cfg)) := by
  rw [onTime_iff_counts h]
  constructor
  · intro agree
    by_contra no
    push Not at no
    obtain ⟨reached, no⟩ := no
    by_cases both : 1 < cfg.factor.toNat ∧ cfg.accessInterval.toNat < 2 ^ 32
    · obtain ⟨gt, small⟩ := both
      obtain ⟨ndvd, long⟩ := no gt small
      exact disagree_wrap hI gt small ndvd (agree _ (by omega) long)
    · exact disagree_start both hF hI ((agree _ hI reached).mpr rfl)
  · rintro (short | ⟨gt, small, dvd | short⟩) k pos le
    · exact agree_start hF pos (by omega)
    · exact agree_dvd hI gt small dvd
    · exact agree_wrap hI gt small (by omega)

/-- With a factor of 1 and a pass due at every access none runs. -/
theorem pass_missing :
    ∃ s, simulate ⟨1, 1, 1, 0.9⟩ 1 [(0, 0)] = some s ∧ s.passes (some 0) = 0 ∧
      ¬ OnTime ⟨1, 1, 1, 0.9⟩ 1 0 [(0, 0)] := by
  have run : ((simulate ⟨1, 1, 1, 0.9⟩ 1 [(0, 0)]).map fun s => s.passes (some 0)) = some 0 := by
    decide +kernel
  obtain ⟨s, h, hs⟩ := Option.map_eq_some_iff.mp run
  refine ⟨s, h, hs, ?_⟩
  rw [onTime_iff_counts h]
  intro counts
  have e := counts 1 (by decide) (by decide)
  unfold Agrees at e
  revert e
  decide

/-- With a factor of 2 and an interval of 1: thread 0 makes three accesses, between two of thread 1, and has passes at
    the first and at the third. -/
theorem onTime_iff_two :
    ∃ s, simulate ⟨1, 2, 1, 0.9⟩ 2 [(0, 0), (0, 1), (0, 0), (0, 0), (0, 1)] = some s ∧ s.passes (some 0) = 2 ∧
      OnTime ⟨1, 2, 1, 0.9⟩ 2 0 [(0, 0), (0, 1), (0, 0), (0, 0), (0, 1)] := by
  have run : ((simulate ⟨1, 2, 1, 0.9⟩ 2 [(0, 0), (0, 1), (0, 0), (0, 0), (0, 1)]).map fun s =>
      s.passes (some 0)) = some 2 := by decide +kernel
  obtain ⟨s, h, passes⟩ := Option.map_eq_some_iff.mp run
  refine ⟨s, h, passes, (onTime_iff (by decide) (by decide) h).mpr (.inr ⟨by decide, by decide, .inl ?_⟩)⟩
  decide

/-- The states in which `summarize_promotions(tid)` may be called: in `pcc_track_access`, when the access has been
    counted, or in `summarize`, which the program has for the end of a run but does not call. -/
inductive CallsPass (cfg : Config) (n tid : Nat) : Mt → Prop where
  | access {as : List (UInt64 × Nat)} {s : Mt} : simulate cfg n as = some s →
    CallsPass cfg n tid (counted s tid)
  | summary {as : List (UInt64 × Nat)} {s : Mt} : simulate cfg n as = some s → CallsPass cfg n tid s

/-- The state at a pass is valid. -/
lemma CallsPass.valid (h : CallsPass cfg n tid s) : s.Valid := by
  cases h with
  | access hs => exact counted_valid (simulate_valid hs) tid
  | summary hs => exact simulate_valid hs

/-- `promotion_caches[tid]->getFreq(base*PAGE_SIZE)` -/
def Thread.freq (th : Thread) (base : Nat) : Option Nat :=
  th.promotionCache.getFreq (word (base * pageSize)) false

/-- What the promotion cache of the thread holds has a frequency. -/
lemma freq_resident {g : Geometry} {th : Thread} {base : Nat} (val : th.toCore.Valid g)
    (held : th.promotionCache.Resident base) : ∃ f, th.freq base = some f :=
  Sim.freq_resident (s := ⟨th.toCore, initShared⟩) val held

/-- A pass of a thread from `s` to `t` promotes only regions that are used: those it adds to the
    promotions have a frequency above zero in its promotion cache, and a region that has frequency
    zero there is not promoted after it. -/
structure PromotesUsed (th : Thread) (s t : Mt) : Prop where
  added : ∀ b, t.promoted b = true → s.promoted b = true ∨
    (th.promotionCache.Resident b ∧ ∃ f, th.freq b = some f ∧ 0 < f)
  unused : ∀ b, th.promotionCache.Resident b → th.freq b = some 0 → t.promoted b = false

/-- A pass promotes only regions that are used if and only if its promotion cache holds no other. -/
theorem promotesUsed_iff {th : Thread} (call : CallsPass cfg n tid s)
    (hth : s.threads[tid]? = some th) (h : summarizePromotions s tid = some t) :
    PromotesUsed th s t ↔ ∀ b, th.promotionCache.Resident b → th.freq b ≠ some 0 := by
  obtain ⟨_, th', bases, _, hth', mem, _, _, _, promoted⟩ := summarizePromotions_spec call.valid h
  obtain rfl := Option.some.inj (hth.symm.trans hth')
  obtain ⟨g, val⟩ := call.valid th (List.mem_of_getElem? hth)
  constructor
  · intro used b held zero
    -- whatever the pass lists is a member of the promotions after it
    have member : t.promoted b = true := (promoted b).mpr (.inr ((mem b).mpr held))
    rw [used.unused b held zero] at member
    cases member
  · intro all
    constructor
    case added =>
      intro b hb
      rcases (promoted b).mp hb with old | listed
      · exact .inl old
      · have held := (mem b).mp listed
        obtain ⟨f, hf⟩ := freq_resident val held
        refine .inr ⟨held, f, hf, Nat.pos_of_ne_zero ?_⟩
        rintro rfl
        exact all b held hf
    case unused => exact fun b held zero => absurd zero (all b held)

/-- The second access takes region 1 into the promotion cache, where it is not used; the pass at the
    third one promotes it. -/
theorem unused_promoted :
    ∃ s th t, simulate ⟨1, 2, 3, 0.9⟩ 1 [(2097152, 0), (2101248, 0)] = some s ∧
      countAccess ⟨1, 2, 3, 0.9⟩ s 0 = some t ∧ (counted s 0).threads[0]? = some th ∧
      summarizePromotions (counted s 0) 0 = some t ∧ th.freq 1 = some 0 ∧
      s.promoted 1 = false ∧ t.promoted 1 = true ∧ ¬ PromotesUsed th (counted s 0) t := by
  have run : ((simulate ⟨1, 2, 3, 0.9⟩ 1 [(2097152, 0), (2101248, 0)]).bind fun s =>
      (countAccess ⟨1, 2, 3, 0.9⟩ s 0).bind fun t => (counted s 0).threads[0]?.map fun th =>
        (decide (th.promotionCache.Resident 1), th.numAccesses, th.freq 1, s.promoted 1,
          t.promoted 1)) = some (true, 3, some 0, false, true) := by decide +kernel
  obtain ⟨s, h, hs⟩ := Option.bind_eq_some_iff.mp run
  obtain ⟨t, ht, hth⟩ := Option.bind_eq_some_iff.mp hs
  obtain ⟨th, hth, e⟩ := Option.map_eq_some_iff.mp hth
  simp only [Prod.mk.injEq, decide_eq_true_eq] at e
  obtain ⟨held, three, zero, before, after⟩ := e
  have pass := (countAccess_due hth (by decide) (by rw [three]; decide)).symm.trans ht
  refine ⟨s, th, t, h, ht, hth, pass, zero, before, after, ?_⟩
  intro used
  rw [used.unused 1 held zero] at after
  cases after

/-- Three accesses to region 1 leave it in the promotion cache with frequency 1; the pass at the fourth one promotes
    it. -/
theorem promotesUsed_iff_used :
    ∃ s th t, simulate ⟨1, 2, 4, 0.9⟩ 1 [(2097152, 0), (2101248, 0), (2105344, 0)] = some s ∧
      countAccess ⟨1, 2, 4, 0.9⟩ s 0 = some t ∧ (counted s 0).threads[0]? = some th ∧ th.freq 1 = some 1 ∧
      s.promoted 1 = false ∧ t.promoted 1 = true ∧ PromotesUsed th (counted s 0) t := by
  have run : ((simulate ⟨1, 2, 4, 0.9⟩ 1 [(2097152, 0), (2101248, 0), (2105344, 0)]).bind fun s =>
      (counted s 0).threads[0]?.map fun th =>
        (th.promotionCache.getEntries, th.freq 1, th.numAccesses, s.promoted 1)) =
      some (some [1], some 1, 4, false) := by decide +kernel
  obtain ⟨s, h, hs⟩ := Option.bind_eq_some_iff.mp run
  obtain ⟨th, hth, e⟩ := Option.map_eq_some_iff.mp hs
  simp only [Prod.mk.injEq] at e
  obtain ⟨entries, one, four, before⟩ := e
  have val := counted_valid (simulate_valid h) 0
  obtain ⟨g, valTh⟩ := val th (List.mem_of_getElem? hth)
  have held : ∀ b, b ∈ [1] ↔ th.promotionCache.Resident b := (valTh.entries entries).2
  obtain ⟨t, ht⟩ := summarizePromotions_some val hth
  obtain ⟨_, th', _, _, hth', mem, _, _, _, promoted⟩ := summarizePromotions_spec val ht
  obtain rfl := Option.some.inj (hth.symm.trans hth')
  have after : t.promoted 1 = true :=
    (promoted 1).mpr (.inr ((mem 1).mpr ((held 1).mp List.mem_cons_self)))
  have pass : countAccess ⟨1, 2, 4, 0.9⟩ s 0 = some t := by
    rw [countAccess_due hth (by decide) (by rw [four]; decide)]
    exact ht
  refine ⟨s, th, t, h, pass, hth, one, before, after, (promotesUsed_iff (.access h) hth ht).mpr ?_⟩
  intro b resident
  obtain rfl := List.mem_singleton.mp ((held b).mpr resident)
  rw [one]
  decide

end
end PromotionCache.Pcc.Multi
