import PromotionCache.Pcc.Demotions
import PromotionCache.Pcc.Progress

/-!
# The shootdown of a demoted region

The demotion of the `i`-th candidate of a pass looks up the address of its `i`-th 4KB page as a 2MB page.
From position 512 on that page lies in the next region, whose translations are removed in place of those
of the candidate.
-/

namespace PromotionCache.Tlb.FunctionalCache

section
variable {c c' : FunctionalCache} {g : Geometry} {a n : Nat} {is2M d d' : Bool}

/-- What is done for one page leaves the others with the insertions they are resident by. -/
lemma invalidate_owner (h : c.invalidate a is2M d = some (c', d'))
    (ne : pageNumber g.logLine is2M a ≠ n) :
    owner g.logLine n c'.history = owner g.logLine n c.history := by
  simp only [FunctionalCache.invalidate, FunctionalCache.access, Option.bind_eq_bind,
    Option.bind_eq_some_iff] at h
  obtain ⟨⟨hit, c₁⟩, ⟨s, _, ⟨res, s'⟩, _, e⟩, h⟩ := h
  obtain ⟨rfl, rfl⟩ := Prod.mk.inj (Option.some.inj e)
  split at h
  case isTrue =>
    simp only [FunctionalCache.evict, Option.bind_eq_bind, Option.bind_eq_some_iff] at h
    obtain ⟨_, _, ⟨_, _⟩, _, e⟩ := h
    obtain ⟨rfl, _⟩ := Prod.mk.inj (Option.some.inj e)
    rw [owner, if_neg ne, owner]
  case isFalse =>
    obtain ⟨rfl, _⟩ := Prod.mk.inj (Option.some.inj h)
    rw [owner]

end
end PromotionCache.Tlb.FunctionalCache

namespace PromotionCache.Pcc.Single
open Lib Tlb Sim

/-- Neither TLB has a 2MB translation of the region: none in the 2MB L1 TLB, and none in the L2 TLB that
    was inserted for a 2MB page. -/
def Untranslated (s : Sim) (base : Nat) : Prop :=
  ¬ s.l1Tlb2m.Resident base ∧ ∀ a, owner 12 base s.l2Tlb.history ≠ some (a, true)

section
variable {cfg : Config} {g : Geometry} {s t u v w : Sim} {as : List UInt64} {base i : Nat}

/-- The region whose translations the demotion of a candidate removes. -/
lemma demote_region (base i : Nat) :
    word (base * hugePageSize + i * pageSize) / hugePageSize = (base + i / 512) % 2 ^ 43 := by
  have e : base * 2097152 + i * 4096 = (base + i / 512) * 2097152 + i % 512 * 4096 := by omega
  simp only [word, hugePageSize, pageSize]
  rw [e]
  omega

/-- The demotion of a candidate leaves no 2MB translation of it if its page lies in it, or if there was
    none. -/
lemma demote_untranslated (val : s.toCore.Valid g) (hb : base < 2 ^ 43) (hi : i < 2 ^ 43)
    (h : demote s base i = some t) :
    Untranslated t base ↔ i < 512 ∨ Untranslated s base := by
  simp only [demote, Option.bind_eq_bind, Option.bind_eq_some_iff] at h
  obtain ⟨⟨c, d⟩, hinv, ⟨c', d'⟩, hinv', h⟩ := h
  obtain rfl := Option.some.inj h
  obtain ⟨_, res, _⟩ := val.l1Tlb2m.invalidate fits2m (word_lt _) hinv
  obtain ⟨v', res', _⟩ := val.l2Tlb.invalidate fitsL2 (word_lt _) hinv'
  simp only [pageNumber_true, demote_region base i] at res res'
  by_cases own : i < 512
  · -- the page lies in the region
    have here : (base + i / 512) % 2 ^ 43 = base := by omega
    rw [here] at res res'
    refine iff_of_true ⟨?_, ?_⟩ (.inl own)
    · intro held
      exact ((res base).mp held).1 rfl
    · intro a own
      have held : c'.Resident base := by
        rw [v'.tracked, show owner geometryL2.logLine base c'.history = _ from own]
        rfl
      exact ((res' base).mp held).1 rfl
  · have other : (base + i / 512) % 2 ^ 43 ≠ base := by omega
    have page : pageNumber geometryL2.logLine true (word (base * hugePageSize + i * pageSize)) ≠ base := by
      rw [pageNumber_true, demote_region]
      exact other
    have owners : owner 12 base c'.history = owner 12 base s.l2Tlb.history :=
      FunctionalCache.invalidate_owner hinv' page
    rw [or_iff_right own]
    unfold Untranslated
    rw [res, owners, and_iff_right (Ne.symm other)]

/-- The turn of a promoted candidate. -/
lemma summarizeEntry_untranslated (val : s.toCore.Valid g) (hb : base < 2 ^ 43) (hi : i < 2 ^ 43)
    (prom : s.promoted base = true) (h : summarizeEntry s i base = some t) :
    Untranslated t base ↔ i < 512 ∨ Untranslated s base := by
  obtain ⟨f, u, _, hstep, hev⟩ := summarizeEntry_eq_some.mp h
  have val₁ := valid_afterListing base f (s.promoted base) val
  have prom₁ : (s.afterListing base f (s.promoted base)).promoted base = true := prom
  rw [branch, if_pos prom₁] at hstep
  simp only [evictCandidate, Option.bind_eq_bind, Option.bind_eq_some_iff] at hev
  obtain ⟨_, _, hev⟩ := hev
  obtain rfl := Option.some.inj hev
  have step : Untranslated u base ↔ i < 512 ∨ Untranslated (s.afterListing base f (s.promoted base)) base :=
    demote_untranslated val₁ hb hi hstep
  exact step

/-- What differs and is below a bound is not more than the bound. -/
lemma length_le_of_nodup {bases : List Nat} {n : Nat} (nodup : bases.Nodup) (lt : ∀ b ∈ bases, b < n) :
    bases.length ≤ n := by
  have sub : bases ⊆ List.range n := fun b hb => List.mem_range.mpr (lt b hb)
  have le := (List.subperm_of_subset nodup sub).length_le
  rwa [List.length_range] at le

/-- The state in which the loop of a pass starts. -/
def passStart (s : Sim) : Sim := { s with cout := s.cout ++ [.regions s.totalNumAccesses none] }

/-- A pass in any state of a trace, at the turn of a candidate that is promoted: its demotion leaves no
    2MB translation of the region if and only if the candidate is one of the first 512, or the TLBs
    hold none when its turn comes. -/
theorem demotion_shootsDown_iff {bases xs ys : List Nat} (h : simulate cfg as = some s)
    (here : u = s ∨ u = counted s) (hget : u.promotionCache.getEntries = some bases)
    (split : bases = xs ++ base :: ys) (prom : u.promoted base = true)
    (hv : summarizeFrom (passStart u) 0 xs = some v) (hw : summarizeEntry v xs.length base = some w) :
    Untranslated w base ↔ xs.length < 512 ∨ Untranslated v base := by
  obtain ⟨g, val⟩ := simulate_valid (simulate_pos h) h
  have valU : u.toCore.Valid g := by
    rcases here with rfl | rfl
    · exact val
    · exact val
  obtain ⟨nodup, mem⟩ := valU.entries hget
  have small : ∀ b ∈ bases, b < 2 ^ 43 := fun b hb => valU.small b ((mem b).mp hb)
  subst split
  obtain ⟨nodupX, _, disjoint⟩ := List.nodup_append'.mp nodup
  have smallX : ∀ b ∈ xs, b < 2 ^ 43 := fun b hb => small b (List.mem_append_left _ hb)
  have fresh : base ∉ xs := fun hb => disjoint hb List.mem_cons_self
  have valP : (passStart u).toCore.Valid g := valU
  obtain ⟨valV, _⟩ := summarizeFrom_spec valP hv
  obtain ⟨_, _, rest⟩ := summarizeFrom_exact valP nodupX smallX hv
  have promV : v.promoted base = true := (rest base fresh).trans prom
  have hbase := small base (List.mem_append_right _ List.mem_cons_self)
  have len : xs.length < 2 ^ 43 := by
    have le := length_le_of_nodup nodup small
    rw [List.length_append, List.length_cons] at le
    omega
  exact summarizeEntry_untranslated valV hbase len promV hw

/-- The pass of the fifteenth access demotes region 0, its only candidate, which has a 2MB translation. -/
theorem demotion_shootsDown_iff_alternating :
    ∃ s m v w, simulate ⟨1, 1, 5, 0.9⟩ alternating = some s ∧ countAccess ⟨1, 1, 5, 0.9⟩ s = some m ∧
      (counted s).promotionCache.getEntries = some [0] ∧ s.l1Tlb2m.Resident 0 ∧
      summarizeFrom (passStart (counted s)) 0 [] = some v ∧ summarizeEntry v 0 0 = some w ∧ Untranslated w 0 := by
  have run : (simulate ⟨1, 1, 5, 0.9⟩ alternating).map (fun s =>
      (s.promotionCache.getEntries, decide (s.l1Tlb2m.Resident 0), s.promoted 0)) = some (some [0], true, true) := by
    decide +kernel
  obtain ⟨s, h, e⟩ := Option.map_eq_some_iff.mp run
  simp only [Prod.mk.injEq, decide_eq_true_eq] at e
  obtain ⟨entries, translated, prom⟩ := e
  obtain ⟨g, val⟩ := simulate_valid (by decide) h
  have valU : (counted s).toCore.Valid g := val
  have valP : (passStart (counted s)).toCore.Valid g := val
  have held : (passStart (counted s)).promotionCache.Resident 0 :=
    ((val.entries entries).2 0).mp (List.mem_singleton_self 0)
  obtain ⟨w, hw⟩ := summarizeEntry_some (i := 0) valP held
  obtain ⟨m, hm, _⟩ := summarizePromotions_effect valU
  have due : passDue ⟨1, 1, 5, 0.9⟩ (counted s).totalNumAccesses = true := by
    show passDue _ (word (s.totalNumAccesses + 1)) = true
    rw [simulate_count h]
    decide
  have pass := (countAccess_due (by decide) due).trans hm
  refine ⟨s, m, _, w, h, pass, entries, translated, rfl, hw, ?_⟩
  have position : ([0] : List Nat) = [] ++ 0 :: [] := rfl
  exact (demotion_shootsDown_iff h (.inr rfl) entries position prom rfl hw).mpr (.inl (by decide))

end
end PromotionCache.Pcc.Single
