import PromotionCache.Pcc.TrackSpec

/-!
# Accesses succeed

From a state with valid caches, whose promotion cache has a set, the path of an access through the
caches gets to its end.
-/

namespace PromotionCache.Pcc
open Lib Tlb

namespace Sim

section
variable {g : Geometry} {s t : Sim} {a : Nat}

/-- An insertion into the L1 TLB for 4KB pages does not fail. -/
lemma insertL1Tlb4k_some (v : s.l1Tlb4k.Valid geometry4k) (a : Nat) :
    ∃ t, s.insertL1Tlb4k a = some t := by
  obtain ⟨r, hins⟩ := v.insert_some fits4k (by decide) a true s.l1_4k false
  simp only [insertL1Tlb4k, hins, Option.bind_eq_bind, Option.bind_some]
  exact ⟨_, rfl⟩

/-- Neither does one into the L1 TLB for 2MB pages. -/
lemma insertL1Tlb2m_some (v : s.l1Tlb2m.Valid geometry2m) (a : Nat) :
    ∃ t, s.insertL1Tlb2m a = some t := by
  obtain ⟨r, hins⟩ := v.insert_some fits2m (by decide) a true s.l1_2m false
  simp only [insertL1Tlb2m, hins, Option.bind_eq_bind, Option.bind_some]
  exact ⟨_, rfl⟩

/-- Neither does one into the L2 TLB. -/
lemma insertL2Tlb_some (v : s.l2Tlb.Valid geometryL2) (a : Nat) (is2m : Bool) :
    ∃ t, s.insertL2Tlb a is2m = some t := by
  obtain ⟨r, hins⟩ := v.insert_some fitsL2 (by decide) a true s.l2 is2m
  simp only [insertL2Tlb, hins, Option.bind_eq_bind, Option.bind_some]
  exact ⟨_, rfl⟩

/-- The lookups in the L1 TLBs do not fail. -/
lemma lookupL1_some (val : s.toCore.Valid g) (a : Nat) : ∃ r, s.lookupL1 a = some r := by
  obtain ⟨r, hacc⟩ := val.l1Tlb4k.access_some fits4k (by decide) a true false
  obtain ⟨r', hacc'⟩ := val.l1Tlb2m.access_some fits2m (by decide) a true false
  simp only [lookupL1, hacc, hacc', Option.bind_eq_bind, Option.bind_some]
  exact ⟨_, rfl⟩

/-- Neither does one in the L2 TLB. -/
lemma lookupL2_some (val : s.toCore.Valid g) (a : Nat) (is2m : Bool) :
    ∃ r, s.lookupL2 a is2m = some r := by
  obtain ⟨r, hacc⟩ := val.l2Tlb.access_some fitsL2 (by decide) a true is2m
  simp only [lookupL2, hacc, Option.bind_eq_bind, Option.bind_some]
  exact ⟨_, rfl⟩

/-- The TLBs can be filled after a miss. -/
lemma fillTlbs_some (val : s.toCore.Valid g) (ha : a < 2 ^ 64) (miss : s.MissesTlbs a) :
    ∃ t, s.fillTlbs a = some t := by
  obtain ⟨missL1, miss4k, miss2m⟩ := miss
  obtain ⟨s₁, hl2⟩ := insertL2Tlb_some val.l2Tlb a (s.promoted (a / hugePageSize))
  have missL2 : ¬ s.HitsL2 a (s.promoted (a / hugePageSize)) := by
    cases s.promoted (a / hugePageSize)
    · exact miss4k
    · exact miss2m
  obtain ⟨val₁, _, _, eq2m⟩ := insertL2Tlb_spec val ha missL2 hl2
  have step : ∃ s₂, (if s.promoted (a / hugePageSize) = true then s₁.insertL1Tlb2m a
      else s₁.insertL1Tlb4k a) = some s₂ ∧ s₂.l1Tlb4k.Valid geometry4k := by
    split
    case isTrue =>
      obtain ⟨s₂, hl1⟩ := insertL1Tlb2m_some val₁.l1Tlb2m a
      have miss' : ¬ s₁.l1Tlb2m.Resident (a / hugePageSize) := by
        rw [eq2m]
        exact fun r => missL1 (.inr r)
      exact ⟨s₂, hl1, (insertL1Tlb2m_spec val₁ ha miss' hl1).1.l1Tlb4k⟩
    case isFalse =>
      obtain ⟨s₂, hl1⟩ := insertL1Tlb4k_some val₁.l1Tlb4k a
      exact ⟨s₂, hl1, (insertL1Tlb4k_spec val₁ ha hl1).1.l1Tlb4k⟩
  obtain ⟨s₂, hl1, v₂⟩ := step
  obtain ⟨t, ht⟩ := insertL1Tlb4k_some v₂ a
  refine ⟨t, ?_⟩
  simp only [fillTlbs, hl2, Option.bind_eq_bind, Option.bind_some]
  rw [hl1]
  exact ht

/-- The TLB hierarchy comes to its end. -/
lemma tlbHierarchy_some (val : s.toCore.Valid g) (ha : a < 2 ^ 64) :
    ∃ r, s.tlbHierarchy a = some r := by
  obtain ⟨⟨l1Hit, s₁⟩, hl1⟩ := lookupL1_some val a
  obtain ⟨val₁, hit₁, look₁⟩ := lookupL1_spec val ha hl1
  simp only [tlbHierarchy, hl1, Option.bind_eq_bind, Option.bind_some]
  split
  case isTrue => exact ⟨_, rfl⟩
  case isFalse missed₁ =>
    obtain ⟨⟨l2Hit, s₂⟩, hl2⟩ := lookupL2_some val₁ a false
    obtain ⟨val₂, hit₂, look₂⟩ := lookupL2_spec val₁ ha look₁ hl2
    simp only [hl2, Option.bind_some]
    split
    case isTrue =>
      obtain ⟨t, ht⟩ := insertL1Tlb4k_some val₂.l1Tlb4k a
      exact ⟨_, by rw [ht]; rfl⟩
    case isFalse missed₂ =>
      obtain ⟨⟨l2Hit', s₃⟩, hl2'⟩ := lookupL2_some val₂ a true
      obtain ⟨val₃, hit₃, look₃⟩ := lookupL2_spec val₂ ha look₂ hl2'
      simp only [hl2', Option.bind_some]
      split
      case isTrue =>
        obtain ⟨t, ht⟩ := insertL1Tlb2m_some val₃.l1Tlb2m a
        exact ⟨_, by rw [ht]; rfl⟩
      case isFalse missed₃ =>
        have misses : s₃.MissesTlbs a := by
          refine ⟨?_, ?_, ?_⟩
          · rw [look₃.hitsL1]
            exact fun hits => missed₁ (hit₁.mpr hits)
          · rw [look₃.hitsL2]
            exact fun hits => missed₂ (hit₂.mpr hits)
          · rw [look₃.hitsL2]
            exact fun hits => missed₃ (hit₃.mpr hits)
        obtain ⟨t, ht⟩ := fillTlbs_some val₃ ha misses
        exact ⟨_, by rw [ht]; rfl⟩

/-- So does the promotion cache logic, if the promotion cache has a set. -/
lemma promotionCacheLogic_some {base : Nat} (val : s.toCore.Valid g) (sets : 1 ≤ g.sets)
    (hb : base < 2 ^ 43) : ∃ t, s.promotionCacheLogic base = some t := by
  have fits := val.geometry.fits
  have enough : 2 ^ g.logSets ≤ g.sets := by
    rw [val.geometry.logSets]
    exact sets
  obtain ⟨⟨hit, c⟩, hacc⟩ :=
    val.promotionCache.access_some fits enough (base * pageSize) true (s.promoted base)
  obtain ⟨v, _⟩ := val.promotionCache.access fits (region_address_lt hb) hacc
  obtain ⟨r, hins⟩ := v.insert_some fits enough (base * pageSize) true s.l1_4k (s.promoted base)
  simp only [promotionCacheLogic, word_region hb, hacc, Option.bind_eq_bind, Option.bind_some]
  split
  case isTrue => exact ⟨_, rfl⟩
  case isFalse => exact ⟨_, by rw [hins]; rfl⟩

/-- The path of an access gets to its end. -/
lemma trackAccess_some (val : s.toCore.Valid g) (sets : 1 ≤ g.sets) (alpha : Float) (now : Nat)
    (a : UInt64) : ∃ t, s.trackAccess alpha now a.toNat = some t := by
  obtain ⟨⟨miss, u⟩, hh⟩ := tlbHierarchy_some val a.toNat_lt
  obtain ⟨val₁, _⟩ := tlbHierarchy_spec val a.toNat_lt hh
  simp only [trackAccess, hh, Option.bind_eq_bind, Option.bind_some]
  split
  case isFalse => exact ⟨_, rfl⟩
  case isTrue =>
    unfold trackMiss
    split
    case isTrue =>
      obtain ⟨t, ht⟩ := promotionCacheLogic_some val₁ sets (region_lt a)
      exact ⟨_, by rw [ht]; rfl⟩
    case isFalse => exact ⟨_, rfl⟩

end
end Sim

end PromotionCache.Pcc
