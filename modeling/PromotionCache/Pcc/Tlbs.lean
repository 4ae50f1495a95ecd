import PromotionCache.Pcc.Candidates
import Mathlib.Data.List.Infix

/-!
# What the TLBs hold

Three properties of the TLBs over a trace: that no set is ambiguous, that the L2 TLB answers a
lookup only by the entry of the page that is looked up, and that a promoted region has no 4KB
translation. None of them holds for all traces. Each theorem says for which ones it does, with a
condition on the states in which the accesses arrive, and a short trace shows a failure.
-/

namespace PromotionCache.Pcc.Single
open Lib Tlb Sim

section
variable {cfg : Config} {g : Geometry} {s t : Sim} {as : List UInt64}

/-- No set of any cache is ambiguous. -/
def Unambiguous (s : Sim) : Prop :=
  s.l1Tlb4k.Unambiguous ∧ s.l1Tlb2m.Unambiguous ∧ s.l2Tlb.Unambiguous ∧
    s.promotionCache.Unambiguous

/-- A miss in all TLBs in a region that is not promoted inserts its page twice into the 4KB L1
    TLB. -/
lemma tlbHierarchy_twice {a : Nat} {miss : Bool} (val : s.toCore.Valid g) (ha : a < 2 ^ 64)
    (misses : s.MissesTlbs a) (unpromoted : s.promoted (a / hugePageSize) = false)
    (room : ∀ u ∈ s.l1Tlb4k.sets, u.tags.length + 1 < u.associativity)
    (h : s.tlbHierarchy a = some (miss, t)) : ¬ t.l1Tlb4k.Unambiguous := by
  obtain ⟨missL1, miss4k, miss2m⟩ := misses
  obtain ⟨u, val₁, look, path⟩ := tlbHierarchy_path val ha h
  cases path with
  | l1Hit hits => exact absurd hits missL1
  | l2Hit4k _ hits => exact absurd hits miss4k
  | l2Hit2m _ _ hits => exact absurd hits miss2m
  | miss _ hfill =>
    -- the lookup missed, so the sets have the room they had
    obtain ⟨hit, hacc⟩ := look.access4k
    have missed : hit = false := by
      apply Bool.eq_false_of_not_eq_true
      rw [(val.l1Tlb4k.access fits4k ha hacc).2.2.1]
      exact fun r => missL1 (.inl r)
    subst missed
    have room₁ : ∀ w ∈ u.l1Tlb4k.sets, w.tags.length + 1 < w.associativity := by
      intro w hw
      obtain ⟨v, hv, tags, assoc⟩ := val.l1Tlb4k.access_false_sets hacc w hw
      rw [tags, assoc]
      exact room v hv
    have prom : u.promoted (a / hugePageSize) = false := by
      rw [← unpromoted, Sim.promoted, look.frame.pccPromotions]
      rfl
    simp only [fillTlbs, prom, Bool.false_eq_true, if_false, Option.bind_eq_bind,
      Option.bind_eq_some_iff] at hfill
    obtain ⟨u₁, hl2, u₂, hins, hins'⟩ := hfill
    have hmiss : ¬ u.HitsL2 a false := by
      rw [look.hitsL2]
      exact miss4k
    obtain ⟨val₂, _, eq4k, _⟩ := insertL2Tlb_spec val₁ ha hmiss hl2
    simp only [insertL1Tlb4k, Option.bind_eq_bind, Option.bind_eq_some_iff] at hins hins'
    obtain ⟨⟨c, e⟩, hc, h₁⟩ := hins
    obtain rfl := Option.some.inj h₁
    obtain ⟨⟨c', e'⟩, hc', h₂⟩ := hins'
    obtain rfl := Option.some.inj h₂
    rw [← eq4k] at room₁
    exact val₂.l1Tlb4k.insert_twice fits4k ha room₁ hc hc'

/-- The first access of a trace makes the 4KB L1 TLB ambiguous. -/
lemma first_ambiguous {a : UInt64} (pos : 1 ≤ cfg.promotionCacheSize.toNat)
    (h : simulate cfg [a] = some s) : ¬ s.l1Tlb4k.Unambiguous := by
  rw [← List.nil_append [a]] at h
  obtain ⟨s₀, hinit, st⟩ := simulate_snoc.mp h
  obtain ⟨⟨g, val⟩, _, fresh, _⟩ := promotionCacheInit_spec pos (simulate_nil.mp hinit)
  obtain ⟨m, hcount, htrack⟩ := pccTrackAccess_inv st
  have unpromoted := first_unpromoted pos hinit hcount (a.toNat / hugePageSize)
  obtain ⟨core, _⟩ := countAccess_fresh val fresh hcount
  rw [← core] at val fresh
  obtain ⟨miss, u, hh, htail⟩ := trackAccess_inv htrack
  have misses : m.MissesTlbs a.toNat := by
    refine ⟨?_, fresh.l2Tlb _, fresh.l2Tlb _⟩
    rintro (r | r)
    · exact fresh.l1Tlb4k _ r
    · exact fresh.l1Tlb2m _ r
  have room : ∀ w ∈ m.l1Tlb4k.sets, w.tags.length + 1 < w.associativity := by
    rw [fresh.sets4k]
    intro w hw
    rw [List.eq_of_mem_replicate hw]
    decide
  have amb := tlbHierarchy_twice val a.toNat_lt misses unpromoted room hh
  obtain ⟨val₁, _⟩ := tlbHierarchy_spec val a.toNat_lt hh
  split at htail
  case isTrue =>
    obtain ⟨_, frame, _⟩ := trackMiss_spec val₁ (region_lt a) htail
    rw [frame.l1Tlb4k]
    exact amb
  case isFalse =>
    obtain rfl := Option.some.inj htail
    exact amb

/-- The 2MB L1 TLB, the L2 TLB and the promotion cache are never ambiguous. The 4KB L1 TLB is from
    the first access on, so that all caches stay free of it only along the empty trace. -/
theorem unambiguous_iff (pos : 1 ≤ cfg.promotionCacheSize.toNat) (h : simulate cfg as = some s) :
    ((∀ pre t, pre <+: as → simulate cfg pre = some t → Unambiguous t) ↔ as = []) ∧
      s.l1Tlb2m.Unambiguous ∧ s.l2Tlb.Unambiguous ∧ s.promotionCache.Unambiguous := by
  obtain ⟨g, val⟩ := simulate_valid pos h
  refine ⟨⟨?_, ?_⟩, val.clear2m, val.clearL2, val.clearPcc⟩
  · intro all
    cases as with
    | nil => rfl
    | cons a as =>
      have pre : [a] <+: a :: as := ⟨as, rfl⟩
      obtain ⟨t, ht⟩ := simulate_prefix pre h
      exact absurd (all [a] t pre ht).1 (first_ambiguous pos ht)
  · rintro rfl pre t hpre ht
    cases List.prefix_nil.mp hpre
    obtain ⟨⟨g, val⟩, un, _⟩ := promotionCacheInit_spec pos (simulate_nil.mp ht)
    exact ⟨un, val.clear2m, val.clearL2, val.clearPcc⟩

/-- The first access leaves the tag of its page twice in its set of the 4KB L1 TLB. -/
theorem first_access_twice :
    ∃ s u, simulate shipped [0] = some s ∧ ¬ Unambiguous s ∧ u ∈ s.l1Tlb4k.sets ∧
      u.tags = [0, 0] := by
  have twice : ((simulate shipped [0]).bind fun s => s.l1Tlb4k.sets.head?.map CacheSet.tags) =
      some [0, 0] := by decide +kernel
  obtain ⟨s, h, hs⟩ := Option.bind_eq_some_iff.mp twice
  obtain ⟨u, hu, tags⟩ := Option.map_eq_some_iff.mp hs
  have mem := List.mem_of_head? hu
  refine ⟨s, u, h, ?_, mem, tags⟩
  rintro ⟨un, _⟩
  have nodup := (un u mem).1
  rw [tags] at nodup
  simp at nodup

/-- A single access. -/
theorem unambiguous_iff_one :
    ∃ s, simulate shipped [0] = some s ∧
      ¬ (∀ pre t, pre <+: [0] → simulate shipped pre = some t → Unambiguous t) := by
  have ends : (simulate shipped [0]).isSome = true := by decide +kernel
  obtain ⟨s, h⟩ := Option.isSome_iff_exists.mp ends
  refine ⟨s, h, ?_⟩
  rw [(unambiguous_iff (by decide) h).1]
  decide

/-- Every hit in the L2 TLB is answered by the entry of the page that was looked up: it was inserted
    with the same page size, and neither it nor its line was evicted since. -/
def AnsweredByOwn (s : Sim) : Prop :=
  ∀ later a is2M earlier, s.l2Tlb.history = later ++ .accessed a is2M true :: earlier →
    ∃ b, owner 12 (pageNumber 12 is2M a) earlier = some (b, is2M)

/-- No lookup is made in the L2 TLB while it holds an entry of the other page size under the same
    page number. -/
def NoAlias (s : Sim) : Prop :=
  ∀ later a is2M hit earlier, s.l2Tlb.history = later ++ .accessed a is2M hit :: earlier →
    ∀ b, owner 12 (pageNumber 12 is2M a) earlier ≠ some (b, !is2M)

/-- The L2 TLB does not tell apart a 4KB page and a 2MB page of the same number; its answers are
    those of the page that is looked up exactly along the traces on which the two never meet. -/
theorem answeredByOwn_iff (pos : 1 ≤ cfg.promotionCacheSize.toNat)
    (h : simulate cfg as = some s) : AnsweredByOwn s ↔ NoAlias s := by
  obtain ⟨g, val⟩ := simulate_valid pos h
  have answer : ∀ later a is2M hit earlier,
      s.l2Tlb.history = later ++ .accessed a is2M hit :: earlier →
        (hit = true ↔ (owner 12 (pageNumber 12 is2M a) earlier).isSome) := val.l2Tlb.hits
  constructor
  · intro own later a is2M hit earlier e b other
    have hits := answer later a is2M hit earlier e
    rw [other] at hits
    obtain rfl := hits.mpr rfl
    obtain ⟨b', hb'⟩ := own later a is2M earlier e
    rw [other] at hb'
    cases is2M <;> cases hb'
  · intro noAlias later a is2M earlier e
    have hits := answer later a is2M true earlier e
    obtain ⟨⟨b, size⟩, hb⟩ := Option.isSome_iff_exists.mp (hits.mp rfl)
    rcases Bool.eq_or_eq_not size is2M with rfl | rfl
    · exact ⟨b, hb⟩
    · exact absurd hb (noAlias later a is2M true earlier e b)

/-- The second access, to page 1, finds the entry of page 0 when it looks for region 0. -/
theorem page_answers_region :
    ∃ s earlier, simulate shipped [0, 4096] = some s ∧
      s.l2Tlb.history = .accessed 4096 true true :: .accessed 4096 false false :: earlier ∧
      owner 12 0 earlier = some (0, false) ∧ ¬ AnsweredByOwn s := by
  have run : (simulate shipped [0, 4096]).map (fun s => s.l2Tlb.history) =
      some [.accessed 4096 true true, .accessed 4096 false false, .inserted 0 false none,
        .accessed 0 true false, .accessed 0 false false] := by decide +kernel
  obtain ⟨s, h, hist⟩ := Option.map_eq_some_iff.mp run
  refine ⟨s, _, h, hist, by decide, ?_⟩
  intro own
  obtain ⟨b, hb⟩ := own [] 4096 true _ hist
  simp [owner, pageNumber] at hb

/-- Whether the earliest of some calls, if it is a lookup, finds no entry of the other page size. -/
def apart : List Event → Bool
  | .accessed a is2M _ :: earlier => (owner 12 (pageNumber 12 is2M a) earlier).all (·.2 == is2M)
  | _ => true

/-- Three pages of region 1 in one set of the 4KB L1 TLB, and the first of them again. -/
def returns : List UInt64 := [pageOf 1 0, pageOf 1 16, pageOf 1 32, pageOf 1 0]

/-- The fourth access finds its page in the L2 TLB, under the entry that the first one has made. -/
theorem answeredByOwn_iff_returns :
    ∃ s earlier, simulate shipped returns = some s ∧
      s.l2Tlb.history = .accessed 2097152 false true :: earlier ∧
      owner 12 512 earlier = some (2097152, false) ∧ AnsweredByOwn s := by
  have run : (simulate shipped returns).map (fun s => (s.l2Tlb.history.head?,
      owner 12 512 s.l2Tlb.history.tail, s.l2Tlb.history.tails.all apart)) =
      some (some (.accessed 2097152 false true), some (2097152, false), true) := by decide +kernel
  obtain ⟨s, h, e⟩ := Option.map_eq_some_iff.mp run
  simp only [Prod.mk.injEq] at e
  obtain ⟨last, own, all⟩ := e
  obtain ⟨earlier, hist⟩ := List.head?_eq_some_iff.mp last
  rw [hist] at own
  refine ⟨s, earlier, h, hist, own, (answeredByOwn_iff (by decide) h).mpr ?_⟩
  intro later a is2M hit before e b other
  have lookup := List.all_eq_true.mp all _ ((List.mem_tails _ _).mpr ⟨later, e.symm⟩)
  rw [apart, other] at lookup
  cases is2M <;> cases lookup

/-- No page of a promoted region has a translation in the 4KB L1 TLB. -/
def HugeOnly (s : Sim) : Prop :=
  ∀ base, s.promoted base = true → ∀ a : UInt64, a.toNat / hugePageSize = base →
    ¬ s.l1Tlb4k.Resident (a.toNat / pageSize)

/-- An address has 52 bits for its page. -/
lemma page_lt (a : UInt64) : a.toNat / pageSize < 2 ^ 52 := by
  have := a.toNat_lt
  simp only [pageSize]
  omega

/-- A page lies in the region of its address. -/
lemma page_region (a : UInt64) : a.toNat / pageSize / 512 = a.toNat / hugePageSize :=
  Nat.div_div_eq_div_mul _ _ _

/-- A pass keeps promoted regions out of the 4KB L1 TLB: a promotion removes their pages. -/
lemma HugeOnly.countAccess (val : s.toCore.Valid g) (huge : HugeOnly s)
    (h : countAccess cfg s = some t) : HugeOnly t := by
  obtain ⟨_, head, bases, _, _, passed⟩ := countAccess_spec val h
  intro base hbase a ha r
  rcases passed.promoted base hbase with old | ⟨_, none⟩
  · exact huge base old a ha (passed.l1Tlb4k _ r)
  · exact none _ (page_lt a) ((page_region a).trans ha) r

/-- An access keeps them out if it does not fill the 4KB L1 TLB with a page of a promoted region,
    and only then. -/
lemma hugeOnly_trackAccess {a : UInt64} (val : s.toCore.Valid g) (huge : HugeOnly s)
    (h : s.trackAccess cfg.alpha s.totalNumAccesses a.toNat = some t) :
    HugeOnly t ↔ (s.promoted (a.toNat / hugePageSize) = true → ¬ s.Fills4k a.toNat) := by
  obtain ⟨_, prom, _, _, filled, only, _⟩ := trackAccess_spec val h
  have same : ∀ b, t.promoted b = s.promoted b := fun b => by rw [Sim.promoted, prom]; rfl
  constructor
  · intro huge' hprom fills
    exact huge' _ ((same _).trans hprom) a rfl (filled fills)
  · intro ok base hbase b hb r
    rw [same] at hbase
    rcases only _ r with old | ⟨e, fills⟩
    · exact huge base hbase b hb old
    · -- the page that was filled lies in the region of the access
      have region : a.toNat / hugePageSize = base := by
        rw [← page_region, ← e, page_region, hb]
      exact ok (region ▸ hbase) fills

/-- Promoted regions are translated by 2MB entries only, in every state of a trace, if and only if
    no access to a promoted region fills the 4KB L1 TLB: each one hits an L1 TLB, or misses the L2
    TLB as a 4KB page and hits it as a 2MB page. -/
theorem hugeOnly_iff (pos : 1 ≤ cfg.promotionCacheSize.toNat) (h : simulate cfg as = some s) :
    (∀ pre t, pre <+: as → simulate cfg pre = some t → HugeOnly t) ↔
      ∀ pre a, pre ++ [a] <+: as → ∀ t m, simulate cfg pre = some t → countAccess cfg t = some m →
        m.promoted (a.toNat / hugePageSize) = true → ¬ m.Fills4k a.toNat := by
  constructor
  · intro all pre a hpre t m ht hm
    obtain ⟨u, hu⟩ := simulate_prefix hpre h
    obtain ⟨t', ht', st⟩ := simulate_snoc.mp hu
    obtain ⟨m', hm', htrack⟩ := pccTrackAccess_inv st
    obtain rfl := Option.some.inj (ht.symm.trans ht')
    obtain rfl := Option.some.inj (hm.symm.trans hm')
    obtain ⟨g, val⟩ := simulate_valid pos ht
    have huge := all pre t ((List.prefix_append pre [a]).trans hpre) ht
    have val' := (countAccess_spec val hm).1
    exact (hugeOnly_trackAccess val' (huge.countAccess val hm) htrack).mp (all _ u hpre hu)
  · intro ok pre u hpre hu
    refine simulate_inv (fun _ s => HugeOnly s) ?_ ?_ hu
    · intro s hinit base hbase
      obtain ⟨_, _, _, shared⟩ := promotionCacheInit_spec pos hinit
      rw [Sim.promoted, shared] at hbase
      cases hbase
    · intro bs a hbs t v ht huge st
      obtain ⟨m, hm, htrack⟩ := pccTrackAccess_inv st
      obtain ⟨g, val⟩ := simulate_valid pos ht
      have val' := (countAccess_spec val hm).1
      apply (hugeOnly_trackAccess val' (huge.countAccess val hm) htrack).mpr
      exact ok bs a (hbs.trans hpre) t m ht hm

/-- The pages 0 to 3 of region 1. -/
def walk : List UInt64 := [2097152, 2101248, 2105344, 2109440]

/-- With a pass at every fourth access: the fourth one promotes region 1 and brings its page 3 into
    the 4KB L1 TLB. -/
theorem promoted_page_filled :
    ∃ s, simulate ⟨1, 1, 4, 0.9⟩ walk = some s ∧ s.promoted 1 = true ∧
      s.l1Tlb4k.Resident 515 ∧ ¬ HugeOnly s := by
  have run : (simulate ⟨1, 1, 4, 0.9⟩ walk).any
      (fun s => s.promoted 1 && decide (s.l1Tlb4k.Resident 515)) = true := by decide +kernel
  obtain ⟨s, h, hs⟩ := (Option.any_eq_true _ _).mp run
  obtain ⟨prom, res⟩ := Bool.and_eq_true_iff.mp hs
  have res := of_decide_eq_true res
  exact ⟨s, h, prom, res, fun huge => huge 1 prom 2109440 (by decide) res⟩

/-- Three pages of region 3, page 3 of region 0, and two more pages of region 3. -/
def shadow : List UInt64 := [pageOf 3 0, pageOf 3 1, pageOf 3 2, pageOf 0 3, pageOf 3 4, pageOf 3 5]

/-- With a pass at every fifth access: region 3 is promoted by the fifth access, which finds the entry of page 3 in the L2
    TLB as that of the region, and the sixth one hits the 2MB L1 TLB. -/
theorem hugeOnly_iff_shadow :
    ∃ s, simulate ⟨4, 1, 5, 0.9⟩ shadow = some s ∧ s.promoted 3 = true ∧ s.l1Tlb2m.Resident 3 ∧ HugeOnly s := by
  have run : (simulate ⟨4, 1, 5, 0.9⟩ shadow).map (fun s => (s.promoted 3, decide (s.l1Tlb2m.Resident 3))) =
      some (true, true) := by decide +kernel
  have checked : arrives ⟨4, 1, 5, 0.9⟩ (fun m a => !(m.promoted (a.toNat / hugePageSize) && decide (m.Fills4k a.toNat)))
      shadow = true := by decide +kernel
  obtain ⟨s, h, e⟩ := Option.map_eq_some_iff.mp run
  simp only [Prod.mk.injEq, decide_eq_true_eq] at e
  refine ⟨s, h, e.1, e.2, (hugeOnly_iff (by decide) h).mpr ?_ _ s (List.prefix_refl _) h⟩
  intro pre a hpre t m ht hm prom fills
  have found := arrives_spec checked pre a hpre t m ht hm
  rw [prom, decide_eq_true fills] at found
  cases found

end
end PromotionCache.Pcc.Single
