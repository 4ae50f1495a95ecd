import PromotionCache.Pcc.Listings
import PromotionCache.Pcc.Tags

/-!
# Demotions of regions that were not accessed

A pass demotes a promoted region if the promotion cache has a line under its number. Between two passes
such a line comes from a promoted region whose number, read as that of a 4KB page, lies in the region.
Region 0 lies in itself; any other region is demoted by accesses to other regions only.
-/

namespace PromotionCache.Pcc.Single
open Lib Tlb Sim

/-- The `i`-th access of a trace goes to region `n` and misses both TLB levels. -/
def MissesAt (cfg : Config) (as : List UInt64) (i n : Nat) : Prop :=
  ∃ pre a s m, pre ++ [a] <+: as ∧ i = pre.length + 1 ∧ simulate cfg pre = some s ∧
    countAccess cfg s = some m ∧ a.toNat / hugePageSize = n ∧ m.MissesTlbs a.toNat

/-- Region `n` was accessed and missed both TLB levels since it was last promoted. -/
def MissedSince (cfg : Config) (as : List UInt64) (n : Nat) : Prop :=
  ∃ j, Inserts cfg as j n ∧ (∀ j', j < j' → ¬ Inserts cfg as j' n) ∧ ∃ i, j ≤ i ∧ MissesAt cfg as i n

/-- The access to `a` after the accesses `pre`, from the state `m` on, takes no line into the promotion
    cache that stands for a promoted region which has not missed since its promotion. -/
def EntersOwn (cfg : Config) (pre : List UInt64) (a : UInt64) (m : Sim) : Prop :=
  m.MissesTlbs a.toNat → m.reuseMap.contains (a.toNat / hugePageSize) = true →
    m.promoted (a.toNat / hugePageSize) = true →
    m.promoted (a.toNat / hugePageSize / 512) = true →
    ¬ m.promotionCache.Resident (a.toNat / hugePageSize / 512) →
    MissedSince cfg (pre ++ [a]) (a.toNat / hugePageSize / 512)

section
variable {cfg : Config} {g : Geometry} {s t m : Sim} {as bs : List UInt64} {a : UInt64} {i j n : Nat}

/-- A miss stays one when the trace goes on. -/
lemma MissesAt.mono (pre : as <+: bs) (h : MissesAt cfg as i n) : MissesAt cfg bs i n := by
  obtain ⟨p, a, s, m, hp, rest⟩ := h
  exact ⟨p, a, s, m, hp.trans pre, rest⟩

/-- A promotion stays one when the trace goes on. -/
lemma Inserts.mono (pre : as <+: bs) (h : Inserts cfg as j n) : Inserts cfg bs j n := by
  obtain ⟨p, a, s, t, hp, rest⟩ := h
  exact ⟨p, a, s, t, hp.trans pre, rest⟩

/-- Insertions come with the passes. -/
lemma Inserts.due (h : simulate cfg as = some s) (ins : Inserts cfg as j n) :
    1 ≤ j ∧ j ≤ as.length ∧ passDue cfg (word j) = true := by
  obtain ⟨m, ⟨pass, _⟩, _⟩ := (inserts_iff h).mp ins
  obtain ⟨one, len⟩ := pass.le
  have total := pass.total
  obtain ⟨_, _, _, _, _, _, _, due⟩ := pass
  rw [total] at due
  exact ⟨one, len, due⟩

/-- With one more access, the new promotions are those of the pass that is due then. -/
lemma inserts_snoc (hs : simulate cfg as = some s) (hm : countAccess cfg s = some m) :
    Inserts cfg (as ++ [a]) j n ↔ Inserts cfg as j n ∨
      (j = as.length + 1 ∧ s.promoted n = false ∧ m.promoted n = true) := by
  constructor
  · intro ⟨pre, b, u, v, hpre, hj, hu, hv, before, after⟩
    rcases List.prefix_concat_iff.mp hpre with e | hpre
    · obtain ⟨rfl, _⟩ := List.append_inj' e rfl
      obtain rfl := Option.some.inj (hs.symm.trans hu)
      obtain rfl := Option.some.inj (hm.symm.trans hv)
      exact .inr ⟨hj, before, after⟩
    · exact .inl ⟨pre, b, u, v, hpre, hj, hu, hv, before, after⟩
  · intro h
    cases h with
    | inl earlier =>
      obtain ⟨pre, b, u, v, hpre, rest⟩ := earlier
      exact ⟨pre, b, u, v, hpre.trans (List.prefix_append as [a]), rest⟩
    | inr last =>
      obtain ⟨hj, before, after⟩ := last
      exact ⟨as, a, s, m, List.prefix_refl _, hj, hs, hm, before, after⟩

/-- What missed since its promotion still did after one more access. -/
lemma MissedSince.snoc (h : MissedSince cfg as n) (hs : simulate cfg as = some s)
    (hm : countAccess cfg s = some m) (prom : s.promoted n = true) : MissedSince cfg (as ++ [a]) n := by
  obtain ⟨j, ins, last, i, le, misses⟩ := h
  refine ⟨j, (inserts_snoc hs hm).mpr (.inl ins), ?_, i, le,
    misses.mono (List.prefix_append as [a])⟩
  intro j' lt ins'
  rcases (inserts_snoc hs hm).mp ins' with earlier | ⟨_, unprom, _⟩
  · exact last j' lt earlier
  · rw [prom] at unprom
    cases unprom

/-- Every line that stands for a promoted region is of one that missed since its promotion. -/
def OwnLines (cfg : Config) (as : List UInt64) (s : Sim) : Prop :=
  ∀ n, s.promotionCache.Resident n → s.promoted n = true → MissedSince cfg as n

/-- An access keeps this if what it takes in does. -/
lemma OwnLines.step (own : OwnLines cfg as s) (hs : simulate cfg as = some s)
    (hm : countAccess cfg s = some m) (enters : EntersOwn cfg as a m)
    (ht : m.trackAccess cfg.alpha m.totalNumAccesses a.toNat = some t) :
    OwnLines cfg (as ++ [a]) t := by
  obtain ⟨g, val⟩ := simulate_valid (simulate_pos hs) hs
  obtain ⟨val', _⟩ := countAccess_spec val hm
  obtain ⟨_, prom, _, _, _, _, gains⟩ := trackAccess_spec val' ht
  have same : ∀ b, t.promoted b = m.promoted b := by
    intro b
    rw [Sim.promoted, prom]
    rfl
  intro n hn promoted
  rw [same] at promoted
  rcases gains n hn with old | ⟨e, misses, known, fresh⟩
  · -- a line from before the access, so that there was no pass
    rcases countAccess_empty val hm with ⟨_, empty⟩ | rfl
    · exact absurd old (empty n)
    · exact (own n old promoted).snoc hs hm promoted
  · unfold pccPage at e
    split at e
    case isTrue base =>
      subst e
      exact enters misses known base promoted fresh
    case isFalse base =>
      rw [e] at promoted
      exact absurd promoted base

/-- If every promoted region enters the promotion cache under its own number, so it stands there. -/
lemma simulate_ownLines (h : simulate cfg as = some s)
    (enters : ∀ pre a, pre ++ [a] <+: as → ∀ t m, simulate cfg pre = some t →
      countAccess cfg t = some m → EntersOwn cfg pre a m) : OwnLines cfg as s := by
  refine simulate_inv (OwnLines cfg) ?_ ?_ h
  · intro s hinit n hn
    obtain ⟨_, _, fresh, _⟩ := promotionCacheInit_spec (simulate_pos h) hinit
    exact absurd hn (fresh.promotionCache n)
  · intro bs a pre u v hu own st
    obtain ⟨m, hm, htrack⟩ := pccTrackAccess_inv st
    exact own.step hu hm (enters bs a pre u m hu hm) htrack

/-- Along each trace whose accesses take in no line for a promoted region that has not missed since its
    promotion, every region that a pass erases from `pcc_promotions` was itself accessed, and missed both
    TLB levels, between its promotion and the pass. This goes for the passes that come with an access
    and for one after the end. -/
theorem own_demotions
    (enters : ∀ pre a, pre ++ [a] <+: as → ∀ t m, simulate cfg pre = some t →
      countAccess cfg t = some m → EntersOwn cfg pre a m) :
    ∀ pre s u t n, pre <+: as → simulate cfg pre = some s → u = s ∨ u = counted s →
      summarizePromotions u = some t → u.promoted n = true → t.promoted n = false →
      MissedSince cfg pre n := by
  intro pre s u t n hpre hs here ht before after
  have own : OwnLines cfg pre s := by
    apply simulate_ownLines hs
    intro bs b hbs
    exact enters bs b (hbs.trans hpre)
  obtain ⟨g, val⟩ := simulate_valid (simulate_pos hs) hs
  have valU : u.toCore.Valid g := by
    rcases here with rfl | rfl
    · exact val
    · exact val
  obtain ⟨t', ht', _, prom, _⟩ := summarizePromotions_effect valU
  obtain rfl := Option.some.inj (ht.symm.trans ht')
  have listed : u.promotionCache.Resident n := by
    by_contra free
    have kept := prom n
    rw [if_neg free, before, after] at kept
    cases kept.mpr rfl
  rcases here with rfl | rfl
  · exact own n listed before
  · exact own n listed before

/-- Regions 1 and 0 are promoted by the eighth access; those after it go to region 1. -/
def neighbours : List UInt64 :=
  [pageOf 1 2, pageOf 1 3, pageOf 1 4, pageOf 0 1, pageOf 0 17, pageOf 0 33, pageOf 2 5, pageOf 2 6,
    pageOf 1 7, pageOf 1 7, pageOf 1 7, pageOf 1 7, pageOf 1 7, pageOf 1 7, pageOf 1 7]

/-- The pass of the sixteenth access demotes region 0, which no access has touched since it was promoted:
    region 1 is in the promotion cache under number 0. -/
theorem demoted_untouched :
    ∃ s t, simulate ⟨4, 1, 8, 0.9⟩ neighbours = some s ∧ countAccess ⟨4, 1, 8, 0.9⟩ s = some t ∧
      s.promoted 0 = true ∧ t.promoted 0 = false ∧
      ¬ MissedSince ⟨4, 1, 8, 0.9⟩ neighbours 0 := by
  have run : ((simulate ⟨4, 1, 8, 0.9⟩ neighbours).bind fun s =>
      (countAccess ⟨4, 1, 8, 0.9⟩ s).map fun t => (s.promoted 0, t.promoted 0)) = some (true, false) := by
    decide +kernel
  obtain ⟨s, h, hs⟩ := Option.bind_eq_some_iff.mp run
  obtain ⟨t, ht, e⟩ := Option.map_eq_some_iff.mp hs
  obtain ⟨before, after⟩ := Prod.mk.inj e
  refine ⟨s, t, h, ht, before, after, ?_⟩
  intro ⟨j, ins, _, i, le, pre, a, _, _, hpre, hi, _, _, region, _⟩
  -- the only pass before comes with the eighth access
  obtain ⟨one, len, due⟩ := ins.due h
  have passes : ∀ j ≤ 15, 1 ≤ j → passDue ⟨4, 1, 8, 0.9⟩ (word j) = true → j = 8 := by decide
  obtain rfl := passes j len one due
  -- and the accesses from there on go to regions 2 and 1
  have elsewhere : ∀ k < 15, 7 ≤ k → neighbours[k]?.all (fun b => b.toNat / hugePageSize != 0) = true := by decide
  obtain ⟨lt, _, last⟩ := snoc_prefix hpre
  have found := elsewhere pre.length lt (by omega)
  rw [last, Option.all_some, region] at found
  cases found

/-- Pages of region 0, between pages of region 2. -/
def alternating : List UInt64 :=
  [pageOf 0 16, pageOf 0 17, pageOf 2 0, pageOf 2 1, pageOf 0 18, pageOf 0 19, pageOf 0 19, pageOf 0 19, pageOf 0 19,
    pageOf 2 2, pageOf 0 20, pageOf 0 20, pageOf 0 20, pageOf 0 20]

/-- With a pass at every fifth access: the second one promotes region 0, the access after it misses there, and the third
    one demotes the region. -/
theorem own_demotions_alternating :
    ∃ s t, simulate ⟨1, 1, 5, 0.9⟩ alternating = some s ∧ countAccess ⟨1, 1, 5, 0.9⟩ s = some t ∧
      s.promoted 0 = true ∧ t.promoted 0 = false ∧ MissedSince ⟨1, 1, 5, 0.9⟩ alternating 0 := by
  -- the run, its first pass, and that only region 0 is taken in while it is promoted, from the tenth access on
  obtain ⟨run, second, checked⟩ :
      ((simulate ⟨1, 1, 5, 0.9⟩ alternating).bind fun s =>
          (countAccess ⟨1, 1, 5, 0.9⟩ s).map fun t => (s.promoted 0, t.promoted 0)) = some (true, false) ∧
        ((simulate ⟨1, 1, 5, 0.9⟩ (alternating.take 9)).bind fun s =>
          (countAccess ⟨1, 1, 5, 0.9⟩ s).map fun t => (s.promoted 0, t.promoted 0)) = some (false, true) ∧
        arrives ⟨1, 1, 5, 0.9⟩ (fun m a =>
          (a.toNat / hugePageSize = 0 && 10 ≤ m.totalNumAccesses) ||
            !(m.promoted (a.toNat / hugePageSize) && decide (m.MissesTlbs a.toNat))) alternating = true := by
    decide +kernel
  obtain ⟨s, h, hs⟩ := Option.bind_eq_some_iff.mp run
  obtain ⟨t, ht, e⟩ := Option.map_eq_some_iff.mp hs
  obtain ⟨before, after⟩ := Prod.mk.inj e
  obtain ⟨u, hu, hv⟩ := Option.bind_eq_some_iff.mp second
  obtain ⟨v, hv, e⟩ := Option.map_eq_some_iff.mp hv
  obtain ⟨unpromoted, promoted⟩ := Prod.mk.inj e
  have tenth : Inserts ⟨1, 1, 5, 0.9⟩ (alternating.take 10) 10 0 :=
    ⟨alternating.take 9, pageOf 2 2, u, v, List.prefix_refl _, rfl, hu, hv, unpromoted, promoted⟩
  have due : passDue ⟨1, 1, 5, 0.9⟩ (counted s).totalNumAccesses = true := by
    show passDue _ (word (s.totalNumAccesses + 1)) = true
    rw [simulate_count h]
    decide
  have pass := (countAccess_inv ht).2
  rw [if_pos due] at pass
  refine ⟨s, t, h, ht, before, after,
    own_demotions ?_ _ s (counted s) t 0 (List.prefix_refl _) h (.inr rfl) pass before after⟩
  intro pre a hpre w m hw hm misses _ prom _ _
  have found := arrives_spec checked pre a hpre w m hw hm
  rw [decide_eq_true misses, prom, Bool.and_self, Bool.not_true, Bool.or_false, Bool.and_eq_true, decide_eq_true_eq,
    decide_eq_true_eq] at found
  obtain ⟨region, late⟩ := found
  obtain ⟨lt, _, _⟩ := snoc_prefix hpre
  have short : pre.length < 14 := lt
  rw [countAccess_count hw hm, word_of_lt (by omega)] at late
  have len : (pre ++ [a]).length = pre.length + 1 := by simp
  have first : alternating.take 10 <+: pre ++ [a] :=
    List.prefix_of_prefix_length_le (List.take_prefix 10 _) hpre (by rw [len]; exact late)
  obtain ⟨x, hx⟩ := simulate_prefix hpre h
  refine ⟨10, ?_, ?_, pre.length + 1, late, pre, a, w, m, List.prefix_refl _, rfl, hw, hm, ?_, misses⟩
  · rw [region]
    exact tenth.mono first
  · intro j later ins
    obtain ⟨one, le, due⟩ := ins.due hx
    have passes : ∀ j ≤ 14, 10 < j → passDue ⟨1, 1, 5, 0.9⟩ (word j) = false := by decide
    rw [passes j (by omega) later] at due
    cases due
  · rw [region]

end
end PromotionCache.Pcc.Single
