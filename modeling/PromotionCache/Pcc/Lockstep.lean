import PromotionCache.Pcc.TrackSpec

/-!
# Two states side by side

Two states with the same caches and the same promotions take an access the same way: the globals
that the out-parameters write are read for the reuse map only. `Alike` is the relation; each step
has one lemma that follows it in the second state. The parameter `p` says when the globals of the
4KB L1 TLB agree too, which nothing but the reset of a reuse entry depends on.
-/

namespace PromotionCache.Pcc
open Lib Tlb

/-- The same evicted address, by tag and offset. -/
def SameVictim (e e' : Evicted) : Prop :=
  e'.evictedTag = e.evictedTag ∧ e'.evictedOffset = e.evictedOffset

/-- A reuse map in which the entry of a region, if one is named, was reset. -/
def resetting (m : UnorderedMap Nat Reuse) : Option Nat → UnorderedMap Nat Reuse
  | none => m
  | some r => m.set r {}

/-- The entry of a region after `TRACK_REUSE`. -/
def nextReuse (alpha : Float) (now : Nat) (r : Reuse) : Reuse :=
  if r.last = 0 then { r with last := now }
  else
    let reuseDist := (UInt64.ofNat (now + (2 ^ 64 - r.last))).toFloat
    let ema := if r.ema == 0 then reuseDist else r.ema * alpha + reuseDist * (1 - alpha)
    { last := now
      sumSq := r.sumSq + Float.pow (ema - reuseDist) 2
      numDataPts := word (r.numDataPts + 1)
      ema := ema }

/-- The reuse map after `TRACK_REUSE` for region `base`. -/
def reuseTracked (m : UnorderedMap Nat Reuse) (alpha : Float) (now base : Nat) :
    UnorderedMap Nat Reuse :=
  m.set base (nextReuse alpha now (m.get base {}))

namespace Sim

/-- The same caches and promotions and, if `p` holds, the same address in the globals of the 4KB L1
    TLB. -/
structure Alike (p : Prop) (s s' : Sim) : Prop where
  l1Tlb4k : s'.l1Tlb4k = s.l1Tlb4k
  l1Tlb2m : s'.l1Tlb2m = s.l1Tlb2m
  l2Tlb : s'.l2Tlb = s.l2Tlb
  promotionCache : s'.promotionCache = s.promotionCache
  pccPromotions : s'.pccPromotions = s.pccPromotions
  victim : p → SameVictim s.l1_4k s'.l1_4k

section
variable {p : Prop} {g : Geometry} {s s' t t' : Sim} {a : Nat}

/-- Of two states alike, the one is valid if the other is. -/
lemma Alike.valid (alike : Alike p s s') (val : s.toCore.Valid g) : s'.toCore.Valid g where
  geometry := val.geometry
  l1Tlb4k := alike.l1Tlb4k ▸ val.l1Tlb4k
  l1Tlb2m := alike.l1Tlb2m ▸ val.l1Tlb2m
  l2Tlb := alike.l2Tlb ▸ val.l2Tlb
  promotionCache := alike.promotionCache ▸ val.promotionCache
  clear2m := alike.l1Tlb2m ▸ val.clear2m
  clearL2 := alike.l2Tlb ▸ val.clearL2
  clearPcc := alike.promotionCache ▸ val.clearPcc
  small := alike.promotionCache ▸ val.small

/-- Two states alike have promoted the same regions. -/
lemma Alike.promoted (alike : Alike p s s') (base : Nat) : s'.promoted base = s.promoted base := by
  rw [Sim.promoted, alike.pccPromotions]
  rfl

/-- What a cache reports names the same address if the out-parameters did. -/
lemma reported_same {c : FunctionalCache} {is2m : Bool} {e e' : Evicted} (same : SameVictim e e') :
    SameVictim (c.reported is2m a e) (c.reported is2m a e') := by
  unfold FunctionalCache.reported
  cases c.victim is2m a with
  | none => exact same
  | some l => exact ⟨rfl, rfl⟩

/-- An insertion into the L1 TLB for 4KB pages keeps two states alike. -/
lemma insertL1Tlb4k_alike (alike : Alike p s s') (val : s.toCore.Valid g) (ha : a < 2 ^ 64)
    (h : s.insertL1Tlb4k a = some t) : ∃ t', s'.insertL1Tlb4k a = some t' ∧ Alike p t t' := by
  simp only [insertL1Tlb4k, Option.bind_eq_bind, Option.bind_eq_some_iff] at h
  obtain ⟨⟨c, e⟩, hins, h⟩ := h
  obtain rfl := Option.some.inj h
  have hins' := val.l1Tlb4k.insert_out fits4k ha hins s'.l1_4k
  obtain ⟨_, _, report, _⟩ := val.l1Tlb4k.insert fits4k ha hins
  refine ⟨{ s' with l1Tlb4k := c, l1_4k := s.l1Tlb4k.reported false a s'.l1_4k }, ?_, ?_⟩
  · simp only [insertL1Tlb4k, alike.l1Tlb4k, hins', Option.bind_eq_bind, Option.bind_some]
  · refine { alike with l1Tlb4k := rfl, victim := fun hp => ?_ }
    rw [report]
    exact reported_same (alike.victim hp)

/-- So does one into the L1 TLB for 2MB pages. -/
lemma insertL1Tlb2m_alike (alike : Alike p s s') (val : s.toCore.Valid g) (ha : a < 2 ^ 64)
    (h : s.insertL1Tlb2m a = some t) : ∃ t', s'.insertL1Tlb2m a = some t' ∧ Alike p t t' := by
  simp only [insertL1Tlb2m, Option.bind_eq_bind, Option.bind_eq_some_iff] at h
  obtain ⟨⟨c, e⟩, hins, h⟩ := h
  obtain rfl := Option.some.inj h
  have hins' := val.l1Tlb2m.insert_out fits2m ha hins s'.l1_2m
  refine ⟨{ s' with l1Tlb2m := c, l1_2m := s.l1Tlb2m.reported false a s'.l1_2m }, ?_, ?_⟩
  · simp only [insertL1Tlb2m, alike.l1Tlb2m, hins', Option.bind_eq_bind, Option.bind_some]
  · exact { alike with l1Tlb2m := rfl }

/-- So does one into the L2 TLB. -/
lemma insertL2Tlb_alike {is2m} (alike : Alike p s s') (val : s.toCore.Valid g) (ha : a < 2 ^ 64)
    (h : s.insertL2Tlb a is2m = some t) : ∃ t', s'.insertL2Tlb a is2m = some t' ∧ Alike p t t' := by
  simp only [insertL2Tlb, Option.bind_eq_bind, Option.bind_eq_some_iff] at h
  obtain ⟨⟨c, e⟩, hins, h⟩ := h
  obtain rfl := Option.some.inj h
  have hins' := val.l2Tlb.insert_out fitsL2 ha hins s'.l2
  refine ⟨{ s' with l2Tlb := c, l2 := s.l2Tlb.reported is2m a s'.l2 }, ?_, ?_⟩
  · simp only [insertL2Tlb, alike.l2Tlb, hins', Option.bind_eq_bind, Option.bind_some]
  · exact { alike with l2Tlb := rfl }

/-- A lookup in the L1 TLBs has the same result in two states alike, and keeps them alike. -/
lemma lookupL1_alike {hit} (alike : Alike p s s') (h : s.lookupL1 a = some (hit, t)) :
    ∃ t', s'.lookupL1 a = some (hit, t') ∧ Alike p t t' := by
  simp only [lookupL1, Option.bind_eq_bind, Option.bind_eq_some_iff] at h
  obtain ⟨⟨hit4k, c⟩, hacc, ⟨hit2m, c'⟩, hacc', h⟩ := h
  obtain ⟨rfl, rfl⟩ := Prod.mk.inj (Option.some.inj h)
  refine ⟨{ s' with l1Tlb4k := c, l1Tlb2m := c' }, ?_, ?_⟩
  · simp only [lookupL1, alike.l1Tlb4k, alike.l1Tlb2m, hacc, hacc', Option.bind_eq_bind,
      Option.bind_some]
  · exact { alike with l1Tlb4k := rfl, l1Tlb2m := rfl }

/-- So does a lookup in the L2 TLB. -/
lemma lookupL2_alike {hit is2m} (alike : Alike p s s') (h : s.lookupL2 a is2m = some (hit, t)) :
    ∃ t', s'.lookupL2 a is2m = some (hit, t') ∧ Alike p t t' := by
  simp only [lookupL2, Option.bind_eq_bind, Option.bind_eq_some_iff] at h
  obtain ⟨⟨hit', c⟩, hacc, h⟩ := h
  obtain ⟨rfl, rfl⟩ := Prod.mk.inj (Option.some.inj h)
  refine ⟨{ s' with l2Tlb := c }, ?_, { alike with l2Tlb := rfl }⟩
  simp only [lookupL2, alike.l2Tlb, hacc, Option.bind_eq_bind, Option.bind_some]

/-- Filling the TLBs after a miss keeps two states alike. -/
lemma fillTlbs_alike (alike : Alike p s s') (val : s.toCore.Valid g) (ha : a < 2 ^ 64)
    (miss : s.MissesTlbs a) (h : s.fillTlbs a = some t) :
    ∃ t', s'.fillTlbs a = some t' ∧ Alike p t t' := by
  simp only [fillTlbs, Option.bind_eq_bind, Option.bind_eq_some_iff] at h
  obtain ⟨s₁, hl2, s₂, hl1, h⟩ := h
  obtain ⟨s₁', hl2', alike₁⟩ := insertL2Tlb_alike alike val ha hl2
  obtain ⟨missL1, miss4k, miss2m⟩ := miss
  have missL2 : ¬ s.HitsL2 a (s.promoted (a / hugePageSize)) := by
    cases s.promoted (a / hugePageSize) with
    | false => exact miss4k
    | true => exact miss2m
  obtain ⟨val₁, _, _, eq2m₁⟩ := insertL2Tlb_spec val ha missL2 hl2
  -- the insertion that depends on whether the region is promoted
  have mid : s₂.toCore.Valid g ∧ ∃ s₂', (if s.promoted (a / hugePageSize)
      then s₁'.insertL1Tlb2m a else s₁'.insertL1Tlb4k a) = some s₂' ∧ Alike p s₂ s₂' := by
    split at hl1
    case isTrue prom =>
      have miss' : ¬ s₁.l1Tlb2m.Resident (a / hugePageSize) := by
        rw [eq2m₁]
        exact fun r => missL1 (.inr r)
      rw [if_pos prom]
      exact ⟨(insertL1Tlb2m_spec val₁ ha miss' hl1).1, insertL1Tlb2m_alike alike₁ val₁ ha hl1⟩
    case isFalse prom =>
      rw [if_neg prom]
      exact ⟨(insertL1Tlb4k_spec val₁ ha hl1).1, insertL1Tlb4k_alike alike₁ val₁ ha hl1⟩
  obtain ⟨val₂, s₂', hl1', alike₂⟩ := mid
  obtain ⟨t', h', alike₃⟩ := insertL1Tlb4k_alike alike₂ val₂ ha h
  refine ⟨t', ?_, alike₃⟩
  simp only [fillTlbs, alike.promoted, hl2', hl1', h', Option.bind_eq_bind, Option.bind_some]

/-- Both states hit in the same TLB. -/
lemma tlbHierarchy_alike {miss} (alike : Alike p s s') (val : s.toCore.Valid g) (ha : a < 2 ^ 64)
    (h : s.tlbHierarchy a = some (miss, t)) :
    ∃ t', s'.tlbHierarchy a = some (miss, t') ∧ Alike p t t' := by
  simp only [tlbHierarchy, Option.bind_eq_bind, Option.bind_eq_some_iff] at h
  obtain ⟨⟨l1Hit, s₁⟩, hl1, h⟩ := h
  obtain ⟨s₁', hl1', alike₁⟩ := lookupL1_alike alike hl1
  obtain ⟨val₁, hit₁, look₁⟩ := lookupL1_spec val ha hl1
  cases l1Hit with
  | true =>
    obtain ⟨rfl, rfl⟩ := Prod.mk.inj (Option.some.inj h)
    refine ⟨s₁', ?_, alike₁⟩
    simp [tlbHierarchy, hl1']
  | false =>
    simp only [Bool.false_eq_true, if_false, Option.bind_eq_some_iff] at h
    obtain ⟨⟨l2Hit, s₂⟩, hl2, h⟩ := h
    obtain ⟨s₂', hl2', alike₂⟩ := lookupL2_alike alike₁ hl2
    obtain ⟨val₂, hit₂, look₂⟩ := lookupL2_spec val₁ ha look₁ hl2
    cases l2Hit with
    | true =>
      simp only [if_true, Option.bind_eq_some_iff] at h
      obtain ⟨s₃, hins, h⟩ := h
      obtain ⟨rfl, rfl⟩ := Prod.mk.inj (Option.some.inj h)
      obtain ⟨s₃', hins', alike₃⟩ := insertL1Tlb4k_alike alike₂ val₂ ha hins
      refine ⟨s₃', ?_, alike₃⟩
      simp [tlbHierarchy, hl1', hl2', hins']
    | false =>
      simp only [Bool.false_eq_true, if_false, Option.bind_eq_some_iff] at h
      obtain ⟨⟨l2Hit', s₃⟩, hl2m, h⟩ := h
      obtain ⟨s₃', hl2m', alike₃⟩ := lookupL2_alike alike₂ hl2m
      obtain ⟨val₃, hit₃, look₃⟩ := lookupL2_spec val₂ ha look₂ hl2m
      cases l2Hit' with
      | true =>
        simp only [if_true, Option.bind_eq_some_iff] at h
        obtain ⟨s₄, hins, h⟩ := h
        obtain ⟨rfl, rfl⟩ := Prod.mk.inj (Option.some.inj h)
        obtain ⟨s₄', hins', alike₄⟩ := insertL1Tlb2m_alike alike₃ val₃ ha hins
        refine ⟨s₄', ?_, alike₄⟩
        simp [tlbHierarchy, hl1', hl2', hl2m', hins']
      | false =>
        simp only [Bool.false_eq_true, if_false, Option.bind_eq_some_iff] at h
        obtain ⟨s₄, hfill, h⟩ := h
        obtain ⟨rfl, rfl⟩ := Prod.mk.inj (Option.some.inj h)
        have misses : s₃.MissesTlbs a := by
          refine ⟨?_, ?_, ?_⟩
          · rw [look₃.hitsL1, ← hit₁]
            exact Bool.false_ne_true
          · rw [look₃.hitsL2, ← hit₂]
            exact Bool.false_ne_true
          · rw [look₃.hitsL2, ← hit₃]
            exact Bool.false_ne_true
        obtain ⟨s₄', hfill', alike₄⟩ := fillTlbs_alike alike₃ val₃ ha misses hfill
        refine ⟨s₄', ?_, alike₄⟩
        simp [tlbHierarchy, hl1', hl2', hl2m', hfill']

/-- A reset keeps the promotion cache and the globals that it goes by. -/
lemma resetEvicted_same (s : Sim) :
    s.resetEvicted.promotionCache = s.promotionCache ∧ s.resetEvicted.l1_4k = s.l1_4k := by
  unfold resetEvicted
  split <;> exact ⟨rfl, rfl⟩

/-- Resetting the entry of an evicted region keeps two states alike. -/
lemma resetEvicted_alike (alike : Alike p s s') : Alike p s.resetEvicted s'.resetEvicted := by
  obtain ⟨pcc, victim⟩ := resetEvicted_same s
  obtain ⟨pcc', victim'⟩ := resetEvicted_same s'
  have frame := resetEvicted_frame s
  have frame' := resetEvicted_frame s'
  constructor
  case l1Tlb4k => rw [frame.l1Tlb4k, frame'.l1Tlb4k, alike.l1Tlb4k]
  case l1Tlb2m => rw [frame.l1Tlb2m, frame'.l1Tlb2m, alike.l1Tlb2m]
  case l2Tlb => rw [frame.l2Tlb, frame'.l2Tlb, alike.l2Tlb]
  case promotionCache => rw [pcc, pcc', alike.promotionCache]
  case pccPromotions => rw [frame.pccPromotions, frame'.pccPromotions, alike.pccPromotions]
  case victim =>
    rw [victim, victim']
    exact alike.victim

/-- The promotion cache logic keeps two states alike. -/
lemma promotionCacheLogic_alike {base : Nat} (alike : Alike p s s') (val : s.toCore.Valid g)
    (hb : base < 2 ^ 43) (h : s.promotionCacheLogic base = some t) :
    ∃ t', s'.promotionCacheLogic base = some t' ∧ Alike p t t' := by
  have ha := region_address_lt hb
  obtain ⟨hit, c, hacc, step⟩ := promotionCacheLogic_inv hb h
  have hacc' : s'.promotionCache.access (base * pageSize) true (s'.promoted base) =
      some (hit, c) := by
    rw [alike.promotionCache, alike.promoted]
    exact hacc
  obtain ⟨v, _⟩ := val.promotionCache.access val.geometry.fits ha hacc
  rcases step with ⟨rfl, rfl⟩ | ⟨rfl, c', e, n, hins, rfl⟩
  · refine ⟨{ s' with promotionCache := c }, ?_, { alike with promotionCache := rfl }⟩
    simp [promotionCacheLogic, word_region hb, hacc']
  · have hins' := v.insert_out val.geometry.fits ha hins s'.l1_4k
    rw [← alike.promoted] at hins'
    have found : ∃ n', s'.promotionCacheLogic base = some (resetEvicted { s' with
        num2mbPtw := n'
        promotionCache := c'
        l1_4k := c.reported (s'.promoted base) (base * pageSize) s'.l1_4k }) := by
      simp only [promotionCacheLogic, word_region hb, hacc', hins', Option.bind_eq_bind,
        Option.bind_some, Bool.false_eq_true, if_false]
      exact ⟨_, rfl⟩
    obtain ⟨n', hn'⟩ := found
    refine ⟨_, hn', ?_⟩
    apply resetEvicted_alike
    refine { alike with promotionCache := rfl, victim := fun hp => ?_ }
    obtain ⟨_, _, report, _⟩ := v.insert val.geometry.fits ha hins
    rw [report, alike.promoted]
    exact reported_same (alike.victim hp)

/-- The bookkeeping of reuse distances is no matter of the caches. -/
lemma trackReuse_alike {alpha : Float} {now now' base : Nat} (alike : Alike p s s') :
    Alike p (s.trackReuse alpha now base) (s'.trackReuse alpha now' base) := by
  obtain ⟨r, e⟩ := s.trackReuse_spec alpha now base
  obtain ⟨r', e'⟩ := s'.trackReuse_spec alpha now' base
  rw [e, e']
  exact { alike with }

/-- Both states go to the promotion cache if their reuse maps know the same regions. -/
lemma trackMiss_alike {alpha : Float} {now base : Nat} (now' : Nat) (alike : Alike p s s')
    (val : s.toCore.Valid g) (hb : base < 2 ^ 43)
    (keys : s'.reuseMap.contains base = s.reuseMap.contains base)
    (h : s.trackMiss alpha now base = some t) :
    ∃ t', s'.trackMiss alpha now' base = some t' ∧ Alike p t t' := by
  unfold trackMiss at h ⊢
  rw [keys]
  split at h
  case isTrue known =>
    simp only [Option.bind_eq_bind, Option.bind_eq_some_iff] at h
    obtain ⟨u, hlogic, h⟩ := h
    obtain rfl := Option.some.inj h
    obtain ⟨u', hlogic', alike'⟩ := promotionCacheLogic_alike alike val hb hlogic
    refine ⟨u'.trackReuse alpha now' base, ?_, trackReuse_alike alike'⟩
    simp [known, hlogic']
  case isFalse unknown =>
    obtain rfl := Option.some.inj h
    exact ⟨_, if_neg unknown, { alike with }⟩

/-- The path of an access through the caches. -/
lemma trackAccess_alike {alpha : Float} {now : Nat} (now' : Nat) {a : UInt64} (alike : Alike p s s')
    (val : s.toCore.Valid g)
    (keys : s'.reuseMap.contains (a.toNat / hugePageSize) =
      s.reuseMap.contains (a.toNat / hugePageSize))
    (h : s.trackAccess alpha now a.toNat = some t) :
    ∃ t', s'.trackAccess alpha now' a.toNat = some t' ∧ Alike p t t' := by
  obtain ⟨miss, u, hh, htail⟩ := trackAccess_inv h
  obtain ⟨u', hh', alike₁⟩ := tlbHierarchy_alike alike val a.toNat_lt hh
  obtain ⟨val₁, frame, _⟩ := tlbHierarchy_spec val a.toNat_lt hh
  obtain ⟨_, frame', _⟩ := tlbHierarchy_spec (alike.valid val) a.toNat_lt hh'
  simp only [trackAccess, hh', Option.bind_eq_bind, Option.bind_some]
  cases miss with
  | true =>
    rw [← frame.reuseMap, ← frame'.reuseMap] at keys
    exact trackMiss_alike now' alike₁ val₁ (region_lt a) keys htail
  | false =>
    obtain rfl := Option.some.inj htail
    exact ⟨u', rfl, alike₁⟩

section
variable {m : UnorderedMap Nat Reuse} {lost : Option Nat} {alpha : Float} {now now' base : Nat}

/-- Tracking the reuse of a region touches the reuse map alone. -/
lemma trackReuse_eq (s : Sim) (alpha : Float) (now base : Nat) :
    s.trackReuse alpha now base = { s with reuseMap := reuseTracked s.reuseMap alpha now base } := by
  unfold trackReuse reuseTracked nextReuse
  split <;> simp_all

/-- What a map holds after one of its entries may have been reset. -/
lemma find_resetting (k : Nat) :
    (resetting m lost).find k = if lost = some k then some {} else m.find k := by
  cases lost with
  | none => simp [resetting]
  | some r => simp [resetting, eq_comm]

/-- The entry that is reset is in the map afterwards. -/
lemma contains_resetting (k : Nat) :
    (resetting m lost).contains k = (decide (lost = some k) || m.contains k) := by
  rw [UnorderedMap.contains, find_resetting]
  by_cases e : lost = some k <;> simp [e, UnorderedMap.contains]

/-- What follows a miss in all TLBs, as the reuse map sees it. -/
lemma trackMiss_reuse (val : s.toCore.Valid g) (hb : base < 2 ^ 43)
    (h : s.trackMiss alpha now base = some t) :
    t.reuseMap = if s.reuseMap.contains base
      then reuseTracked (resetting s.reuseMap (s.resetRegion base)) alpha now base
      else s.reuseMap.set base {} := by
  unfold trackMiss at h
  split at h
  case isTrue known =>
    simp only [Option.bind_eq_bind, Option.bind_eq_some_iff] at h
    obtain ⟨w, hlogic, h⟩ := h
    obtain rfl := Option.some.inj h
    have reuse : w.reuseMap = resetting s.reuseMap (s.resetRegion base) := by
      apply UnorderedMap.ext
      intro r
      rw [(promotionCacheLogic_spec val hb hlogic).reuseMap, find_resetting]
    rw [if_pos known, trackReuse_eq, reuse]
  case isFalse unknown =>
    obtain rfl := Option.some.inj h
    rw [if_neg unknown]

/-- Two states alike reset the same entry. -/
lemma resetRegion_alike (alike : Alike True s s') : s'.resetRegion base = s.resetRegion base := by
  have same : SameVictim (s.pccReport base) (s'.pccReport base) := by
    unfold pccReport
    rw [alike.promoted, alike.promotionCache]
    exact reported_same (alike.victim trivial)
  unfold resetRegion pccPage evictedAddrOf
  rw [alike.promoted, alike.promotionCache, same.1, same.2]

/-- Where the reuse maps know the same regions before an access, they do after it. -/
lemma trackAccess_keys {a : UInt64} (alike : Alike True s s') (val : s.toCore.Valid g)
    (keys : ∀ b, s'.reuseMap.contains b = s.reuseMap.contains b)
    (h : s.trackAccess alpha now a.toNat = some t)
    (h' : s'.trackAccess alpha now' a.toNat = some t') (b : Nat) :
    t'.reuseMap.contains b = t.reuseMap.contains b := by
  obtain ⟨miss, u, hh, htail⟩ := trackAccess_inv h
  obtain ⟨u', hh', alike₁⟩ := tlbHierarchy_alike alike val a.toNat_lt hh
  obtain ⟨val₁, frame, _⟩ := tlbHierarchy_spec val a.toNat_lt hh
  obtain ⟨val₁', frame', _⟩ := tlbHierarchy_spec (alike.valid val) a.toNat_lt hh'
  obtain ⟨_, w, hw, htail'⟩ := trackAccess_inv h'
  obtain ⟨rfl, rfl⟩ := Prod.mk.inj (Option.some.inj (hh'.symm.trans hw))
  have keys₁ : ∀ b, u'.reuseMap.contains b = u.reuseMap.contains b := by
    rw [frame.reuseMap, frame'.reuseMap]
    exact keys
  cases miss with
  | true =>
    rw [trackMiss_reuse val₁ (region_lt a) htail, trackMiss_reuse val₁' (region_lt a) htail',
      keys₁, resetRegion_alike alike₁]
    split
    case isTrue =>
      simp only [reuseTracked, UnorderedMap.contains_set, contains_resetting, keys₁]
    case isFalse => simp only [UnorderedMap.contains_set, keys₁]
  | false =>
    obtain rfl := Option.some.inj htail
    obtain rfl := Option.some.inj htail'
    exact keys₁ b

end

/-- Flushing a page keeps two states alike. -/
lemma flushPage_alike (alike : Alike p s s') (h : s.flushPage a = some t) :
    ∃ t', s'.flushPage a = some t' ∧ Alike p t t' := by
  simp only [flushPage, Option.bind_eq_bind, Option.bind_eq_some_iff] at h
  obtain ⟨⟨c, d⟩, hinv, ⟨c', d'⟩, hinv', h⟩ := h
  obtain rfl := Option.some.inj h
  obtain ⟨d₁, hinv₁⟩ := FunctionalCache.invalidate_out hinv s'.l1_4k.dirtyEvict
  obtain ⟨d₂, hinv₂⟩ := FunctionalCache.invalidate_out hinv' s'.l2.dirtyEvict
  refine ⟨{ s' with
    l1Tlb4k := c, l1_4k := { s'.l1_4k with dirtyEvict := d₁ }
    l2Tlb := c', l2 := { s'.l2 with dirtyEvict := d₂ } }, ?_, ?_⟩
  · simp only [flushPage, alike.l1Tlb4k, alike.l2Tlb, hinv₁, hinv₂, Option.bind_eq_bind,
      Option.bind_some]
  · exact { alike with l1Tlb4k := rfl, l2Tlb := rfl, victim := alike.victim }

/-- So does flushing several. -/
lemma flushPages_alike {as : List Nat} (alike : Alike p s s') (h : as.foldlM flushPage s = some t) :
    ∃ t', as.foldlM flushPage s' = some t' ∧ Alike p t t' := by
  induction as generalizing s s' with
  | nil =>
    obtain rfl := Option.some.inj h
    exact ⟨s', rfl, alike⟩
  | cons a as ih =>
    simp only [List.foldlM_cons, Option.bind_eq_bind, Option.bind_eq_some_iff] at h
    obtain ⟨u, hpage, h⟩ := h
    obtain ⟨u', hpage', alike₁⟩ := flushPage_alike alike hpage
    obtain ⟨t', h', alike₂⟩ := ih alike₁ h
    refine ⟨t', ?_, alike₂⟩
    simp only [List.foldlM_cons, hpage', h', Option.bind_eq_bind, Option.bind_some]

/-- A promotion keeps two states alike. -/
lemma promote_alike {base : Nat} (alike : Alike p s s') (h : s.promote base = some t) :
    ∃ t', s'.promote base = some t' ∧ Alike p t t' := by
  have start : Alike p
      { s with pccPromotions := s.pccPromotions.set base 0, reuseMap := s.reuseMap.erase base }
      { s' with pccPromotions := s'.pccPromotions.set base 0, reuseMap := s'.reuseMap.erase base } :=
    { alike with pccPromotions := congrArg (·.set base 0) alike.pccPromotions }
  unfold promote at h ⊢
  exact flushPages_alike start h

/-- Evicting a candidate keeps two states alike. -/
lemma evictCandidate_alike {base : Nat} (alike : Alike p s s')
    (h : s.evictCandidate base = some t) :
    ∃ t', s'.evictCandidate base = some t' ∧ Alike p t t' := by
  simp only [evictCandidate, Option.bind_eq_bind, Option.bind_eq_some_iff] at h
  obtain ⟨⟨c, d⟩, hev, h⟩ := h
  obtain rfl := Option.some.inj h
  refine ⟨{ s' with promotionCache := c, l1_2m := { s'.l1_2m with dirtyEvict := d } }, ?_, ?_⟩
  · simp only [evictCandidate, alike.promotionCache, hev, Option.bind_eq_bind, Option.bind_some]
  · exact { alike with promotionCache := rfl }

end
end Sim

end PromotionCache.Pcc
