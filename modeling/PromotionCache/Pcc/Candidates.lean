import PromotionCache.Pcc.SingleSpec

/-!
# Candidates and reuse information

Two properties of the promotion cache over a trace: that a pass lists and promotes only regions that
were accessed, and that an access resets the reuse information of its own region and of the one it
evicts, and of no other. Both fail where the promotion cache and the reuse map name a region in two
ways. Each theorem gives the accesses that stay clear of this, and a trace shows a failure.
-/

namespace PromotionCache.Pcc.Single
open Lib Tlb Sim

/-- The 2MB regions of the addresses of a trace. -/
def regions (as : List UInt64) : List Nat := as.map fun a => a.toNat / hugePageSize

/-- The region of one more access. -/
lemma regions_snoc (as : List UInt64) (a : UInt64) :
    regions (as ++ [a]) = regions as ++ [a.toNat / hugePageSize] :=
  List.map_append

section
variable {cfg : Config} {g : Geometry} {s t : Sim} {as : List UInt64}

/-- The part of a run from `s` to `t` lists and promotes only regions among `rs`. -/
def ListsOnly (rs : List Nat) (s t : Sim) : Prop :=
  (∃ lines, t.cout = s.cout ++ lines ∧ ∀ base, some base ∈ lines.map Output.listed → base ∈ rs) ∧
    ∀ base, t.promoted base = true → s.promoted base = true ∨ base ∈ rs

/-- The access to `a` after the accesses `pre`, from the state `m` on, takes no region into the
    promotion cache under the number of another one that was never accessed. -/
def KeepsName (pre : List UInt64) (a : UInt64) (m : Sim) : Prop :=
  m.MissesTlbs a.toNat → m.reuseMap.contains (a.toNat / hugePageSize) = true →
    m.promoted (a.toNat / hugePageSize) = true →
    ¬ m.promotionCache.Resident (a.toNat / hugePageSize / 512) →
    a.toNat / hugePageSize / 512 ∈ regions (pre ++ [a])

/-- What the promotion cache holds and what is promoted was accessed. -/
structure Accessed (rs : List Nat) (s : Sim) : Prop where
  resident : ∀ n, s.promotionCache.Resident n → n ∈ rs
  promoted : ∀ base, s.promoted base = true → base ∈ rs

/-- A pass lists and promotes its candidates only. -/
lemma Passed.listsOnly {u : Sim} {rs bases : List Nat} {head : List Output}
    (passed : Passed u t bases) (cout : u.cout = s.cout ++ head)
    (promotions : u.pccPromotions = s.pccPromotions)
    (silent : ∀ base, some base ∉ head.map Output.listed) (sub : ∀ n ∈ bases, n ∈ rs) :
    ListsOnly rs s t := by
  obtain ⟨lines, cout', listed⟩ := passed.cout
  refine ⟨⟨head ++ lines, ?_, ?_⟩, ?_⟩
  · rw [cout', cout, List.append_assoc]
  · intro base hbase
    rw [List.map_append, listed, List.mem_append] at hbase
    rcases hbase with hbase | hbase
    · exact absurd hbase (silent base)
    · have hbase : base ∈ bases := by simpa using hbase
      exact sub base hbase
  · intro base hbase
    rcases passed.promoted base hbase with old | ⟨hmem, _⟩
    · left
      rw [Sim.promoted, ← promotions]
      exact old
    · exact .inr (sub base hmem)

/-- A pass lists accessed regions alone, if the promotion cache names no other. -/
lemma Accessed.summarizePromotions {rs : List Nat} (val : s.toCore.Valid g) (acc : Accessed rs s)
    (h : summarizePromotions s = some t) : ListsOnly rs s t := by
  obtain ⟨_, bases, mem, passed⟩ := summarizePromotions_spec val h
  apply passed.listsOnly rfl rfl
  · intro base
    simp [Output.listed]
  · exact fun n hn => acc.resident n ((mem n).mp hn)

/-- So does an access at which a pass may be due. -/
lemma Accessed.countAccess {rs : List Nat} (val : s.toCore.Valid g) (acc : Accessed rs s)
    (h : countAccess cfg s = some t) : ListsOnly rs s t ∧ Accessed rs t := by
  obtain ⟨_, head, bases, mem, hhead, passed⟩ := countAccess_spec val h
  have lists : ListsOnly rs s t := by
    apply passed.listsOnly rfl rfl
    · intro base
      rw [hhead]
      split <;> simp [Output.listed]
    · exact fun n hn => acc.resident n (mem n hn)
  refine ⟨lists, fun n hn => acc.resident n (passed.promotionCache n hn), ?_⟩
  intro base hbase
  rcases lists.2 base hbase with old | hmem
  · exact acc.promoted base old
  · exact hmem

/-- An access adds its own region, or the number of the 4KB page that a promoted region is taken
    for. -/
lemma Accessed.trackAccess {pre : List UInt64} {a : UInt64} (val : s.toCore.Valid g)
    (acc : Accessed (regions pre) s) (keeps : KeepsName pre a s)
    (h : s.trackAccess cfg.alpha s.totalNumAccesses a.toNat = some t) :
    Accessed (regions (pre ++ [a])) t := by
  obtain ⟨_, prom, _, _, _, _, gains⟩ := trackAccess_spec val h
  constructor
  case resident =>
    intro n hn
    rcases gains n hn with old | ⟨e, misses, known, fresh⟩
    · rw [regions_snoc]
      exact List.mem_append_left _ (acc.resident n old)
    · unfold pccPage at e
      split at e
      case isTrue promoted =>
        subst e
        exact keeps misses known promoted fresh
      case isFalse =>
        rw [regions_snoc, e]
        exact List.mem_append_right _ (List.mem_singleton_self _)
  case promoted =>
    intro base hbase
    have old : s.promoted base = true := by
      rw [Sim.promoted, ← prom]
      exact hbase
    rw [regions_snoc]
    exact List.mem_append_left _ (acc.promoted base old)

/-- If every access keeps the names right, the promotion cache names accessed regions alone. -/
lemma simulate_accessed (pos : 1 ≤ cfg.promotionCacheSize.toNat) (h : simulate cfg as = some s)
    (keeps : ∀ pre a, pre ++ [a] <+: as → ∀ t m, simulate cfg pre = some t →
      countAccess cfg t = some m → KeepsName pre a m) : Accessed (regions as) s := by
  refine simulate_inv (fun bs s => Accessed (regions bs) s) ?_ ?_ h
  · intro s hinit
    obtain ⟨_, _, fresh, shared⟩ := promotionCacheInit_spec pos hinit
    constructor
    case resident => exact fun n hn => absurd hn (fresh.promotionCache n)
    case promoted =>
      intro base hbase
      rw [Sim.promoted, shared] at hbase
      cases hbase
  · intro bs a pre u v hu acc st
    obtain ⟨m, hm, htrack⟩ := pccTrackAccess_inv st
    obtain ⟨g, val⟩ := simulate_valid pos hu
    have val' := (countAccess_spec val hm).1
    have acc' := (acc.countAccess val hm).2
    exact acc'.trackAccess val' (keeps bs a pre u m hu hm) htrack

/-- Every candidate of a pass and every region that a pass promotes is the region of an access
    before it, along each trace on which every access keeps the names of the regions. This goes for
    the passes that come with an access and for one after the end of the trace; and nothing is
    promoted that was not accessed. -/
theorem candidates_accessed (pos : 1 ≤ cfg.promotionCacheSize.toNat)
    (keeps : ∀ pre a, pre ++ [a] <+: as → ∀ t m, simulate cfg pre = some t →
      countAccess cfg t = some m → KeepsName pre a m) :
    ∀ pre t, pre <+: as → simulate cfg pre = some t →
      (∀ m, countAccess cfg t = some m → ListsOnly (regions pre) t m) ∧
      (∀ m, summarizePromotions t = some m → ListsOnly (regions pre) t m) ∧
      ∀ base, t.promoted base = true → base ∈ regions pre := by
  intro pre t hpre ht
  obtain ⟨g, val⟩ := simulate_valid pos ht
  have acc : Accessed (regions pre) t := by
    apply simulate_accessed pos ht
    intro bs a hbs
    exact keeps bs a (hbs.trans hpre)
  exact ⟨fun m hm => (acc.countAccess val hm).1, fun m hm => acc.summarizePromotions val hm,
    acc.promoted⟩

/-- Page `i` of region `r`. -/
def pageOf (r i : UInt64) : UInt64 := r * 2097152 + i * 4096

/-- Region 512 is promoted and comes back into the promotion cache, as region 1. -/
def revisit : List UInt64 :=
  [pageOf 512 0, pageOf 512 1, pageOf 2 0, pageOf 2 1, pageOf 512 2, pageOf 512 3, pageOf 512 3,
    pageOf 512 3, pageOf 512 3, pageOf 2 2, pageOf 512 4, pageOf 512 4, pageOf 512 4, pageOf 512 4,
    pageOf 512 4]

/-- With a pass at every fifth access: the third pass lists region 1, which no access has touched. -/
theorem never_accessed_listed :
    ∃ s m, simulate ⟨1, 1, 5, 0.9⟩ revisit.dropLast = some s ∧
      countAccess ⟨1, 1, 5, 0.9⟩ s = some m ∧ 1 ∉ regions revisit ∧
      ¬ ListsOnly (regions revisit.dropLast) s m := by
  have listed : ((simulate ⟨1, 1, 5, 0.9⟩ revisit.dropLast).bind fun s =>
      (countAccess ⟨1, 1, 5, 0.9⟩ s).map fun m => (m.cout.drop s.cout.length).map Output.listed) =
      some [none, some 1] := by decide +kernel
  obtain ⟨s, h, hs⟩ := Option.bind_eq_some_iff.mp listed
  obtain ⟨m, hm, lines⟩ := Option.map_eq_some_iff.mp hs
  refine ⟨s, m, h, hm, by decide, ?_⟩
  rintro ⟨⟨lines', cout, only⟩, _⟩
  rw [cout, List.drop_left] at lines
  have mem : 1 ∈ regions revisit.dropLast := only 1 (by simp [lines])
  revert mem
  decide

/-- Page 0 of region 0 and three pages of region 3. -/
def visits : List UInt64 := [pageOf 0 0, pageOf 3 0, pageOf 3 1, pageOf 3 2]

/-- The pass of the access after them lists region 3 and promotes it. -/
theorem candidates_accessed_visits :
    ∃ s m, simulate ⟨4, 1, 5, 0.9⟩ visits = some s ∧ countAccess ⟨4, 1, 5, 0.9⟩ s = some m ∧
      (m.cout.drop s.cout.length).map Output.listed = [none, some 3] ∧
      s.promoted 3 = false ∧ m.promoted 3 = true ∧ ListsOnly (regions visits) s m := by
  have run : ((simulate ⟨4, 1, 5, 0.9⟩ visits).bind fun s => (countAccess ⟨4, 1, 5, 0.9⟩ s).map fun m =>
      ((m.cout.drop s.cout.length).map Output.listed, s.promoted 3, m.promoted 3)) =
      some ([none, some 3], false, true) := by decide +kernel
  obtain ⟨s, h, hs⟩ := Option.bind_eq_some_iff.mp run
  obtain ⟨m, hm, e⟩ := Option.map_eq_some_iff.mp hs
  simp only [Prod.mk.injEq] at e
  obtain ⟨listed, before, after⟩ := e
  refine ⟨s, m, h, hm, listed, before, after, (candidates_accessed (by decide) ?_ _ s (List.prefix_refl _) h).1 m hm⟩
  intro pre a hpre t m _ _ _ _ _ _
  -- whatever region is taken for a 4KB page, it is taken for one of region 0
  have small : visits.all (fun a => a.toNat / hugePageSize / 512 == 0) = true := by decide
  have zero : 0 ∈ regions (pre ++ [a]) := by
    obtain ⟨rest, e⟩ := hpre
    cases pre with
    | nil =>
      rw [(List.cons.inj e).1]
      exact List.mem_cons_self
    | cons b pre =>
      rw [(List.cons.inj e).1]
      exact List.mem_cons_self
  have mem : a ∈ visits := hpre.subset (List.mem_append_right pre (List.mem_singleton_self a))
  rw [eq_of_beq (List.all_eq_true.mp small a mem)]
  exact zero

/-- The region that the promotion cache holds under number `n`: that of the insertion. -/
def heldUnder (s : Sim) (n : Nat) : Option Nat :=
  (owner 12 n s.promotionCache.history).map fun o => o.1 / pageSize

/-- Between `s` and `t` the promotion cache takes in a line and evicts that of region `r`. -/
def Evicts (s t : Sim) (r : Nat) : Prop :=
  ∃ a is2M n e, t.promotionCache.history =
    .inserted a is2M (some n) :: e :: s.promotionCache.history ∧ heldUnder s n = some r

/-- An access to `base` may reset region `r`: it is its own, or its entry is zero anyway. -/
def Spares (u : Sim) (base r : Nat) : Prop := r = base ∨ u.reuseMap.find r = some {}

/-- The line that the promotion cache evicts when it takes in a region. -/
def pccLine (u : Sim) (base : Nat) : Option CacheLine :=
  u.promotionCache.victim (u.promoted base) (base * pageSize)

/-- What the promotion cache logic resets, in state `u`, if it has to insert region `base`. With a
    free line left it goes by what an earlier eviction, mostly from the 4KB L1 TLB, left in the
    globals; otherwise by tag and offset of the line that makes room. -/
structure ResetsOwn (u : Sim) (base : Nat) : Prop where
  free : pccLine u base = none → u.l1_4k.evictedTag ≠ -1 →
    Spares u base (evictedAddrOf u.l1_4k)
  full : ∀ l, pccLine u base = some l →
    heldUnder u l.addr = some (evictedAddrOf ⟨l.dirty, l.addr, l.offset⟩) ∨
      Spares u base (evictedAddrOf ⟨l.dirty, l.addr, l.offset⟩)

/-- The victim, from the line that goes. -/
lemma pccVictim_eq (u : Sim) (base : Nat) : u.pccVictim base =
    (pccLine u base).map fun l => l.addr * 2 ^ u.promotionCache.logSetCount +
      u.promotionCache.setid (u.promoted base) (base * pageSize) := rfl

/-- What `evict` reports, from the line that goes. -/
lemma pccReport_eq (u : Sim) (base : Nat) : u.pccReport base =
    match pccLine u base with
    | none => ⟨false, u.l1_4k.evictedTag, u.l1_4k.evictedOffset⟩
    | some l => ⟨l.dirty, Int.bmod (l.addr * u.promotionCache.setCount +
        u.promotionCache.setid (u.promoted base) (base * pageSize)) (2 ^ 64), l.offset⟩ := rfl

/-- With room in the promotion cache there is no victim, and the last eviction of the L1 TLB is reset. -/
lemma resetRegion_free {u : Sim} {base : Nat}
    (misses : ¬ u.promotionCache.Resident (u.pccPage base)) (free : pccLine u base = none) :
    u.pccVictim base = none ∧ u.resetRegion base =
      if u.l1_4k.evictedTag = -1 then none else some (evictedAddrOf u.l1_4k) := by
  rw [pccVictim_eq, resetRegion, if_neg misses, pccReport_eq, free]
  exact ⟨rfl, rfl⟩

/-- The promotion cache has one set, so that tag and page number are the same. -/
lemma resetRegion_full {u : Sim} {base : Nat} {l : CacheLine} (val : u.toCore.Valid g)
    (misses : ¬ u.promotionCache.Resident (u.pccPage base)) (full : pccLine u base = some l) :
    u.pccVictim base = some l.addr ∧
      u.resetRegion base = some (evictedAddrOf ⟨l.dirty, l.addr, l.offset⟩) := by
  have pcc := val.promotionCache
  have set : u.promotionCache.setid (u.promoted base) (base * pageSize) = 0 := by
    rw [pcc.setid val.geometry.fits, val.geometry.logSets]
    exact Nat.mod_one _
  obtain ⟨w, hw, hl⟩ := Option.bind_eq_some_iff.mp full
  have mem := List.mem_of_getElem? hw
  have small : l.addr < 2 ^ 63 := (pcc.ok w mem).tags _ (CacheSet.victim_mem hl)
  have count : u.promotionCache.setCount = 1 := by
    have ne : g.sets ≠ 0 := by
      rw [← congrArg Geometry.sets pcc.geometry]
      exact (List.length_pos_of_mem mem).ne'
    rw [← val.geometry.setCount ne]
    exact congrArg Geometry.setCount pcc.geometry
  have tag : Int.bmod (l.addr * 1 + (0 : Nat)) (2 ^ 64) = l.addr := by
    rw [Int.mul_one, Int.natCast_zero, Int.add_zero]
    exact CacheSet.int64_of_lt small
  have report : u.pccReport base = ⟨l.dirty, l.addr, l.offset⟩ := by
    rw [pccReport_eq, full, set, count]
    exact congrArg (Evicted.mk l.dirty · l.offset) tag
  have evicts : (l.addr : Int) ≠ -1 := by omega
  constructor
  · rw [pccVictim_eq, full, set, pcc.logSets, val.geometry.logSets]
    simp
  · rw [resetRegion, if_neg misses, report, if_neg evicts]

/-- The condition says of the region that is reset what it should. -/
lemma resetsOwn_iff {u : Sim} {base : Nat} (val : u.toCore.Valid g)
    (misses : ¬ u.promotionCache.Resident (u.pccPage base)) :
    ResetsOwn u base ↔ ∀ r, u.resetRegion base = some r →
      (∃ n, u.pccVictim base = some n ∧ heldUnder u n = some r) ∨ Spares u base r := by
  cases hl : pccLine u base with
  | none =>
    obtain ⟨victim, reset⟩ := resetRegion_free misses hl
    have noLine : ∀ l, pccLine u base ≠ some l := by simp [hl]
    rw [reset, victim]
    constructor
    · intro own r h
      split at h
      case isTrue => cases h
      case isFalse stale =>
        obtain rfl := Option.some.inj h
        exact .inr (own.free hl stale)
    · intro all
      refine ⟨?_, fun l h => absurd h (noLine l)⟩
      intro _ stale
      rcases all _ (if_neg stale) with ⟨n, h, _⟩ | spares
      · cases h
      · exact spares
  | some l =>
    obtain ⟨victim, reset⟩ := resetRegion_full val misses hl
    have line : pccLine u base ≠ none := by simp [hl]
    rw [reset, victim]
    constructor
    · intro own r h
      obtain rfl := Option.some.inj h
      rcases own.full l hl with held | spares
      · exact .inl ⟨_, rfl, held⟩
      · exact .inr spares
    · intro all
      refine ⟨fun h => absurd h line, ?_⟩
      intro l' h
      obtain rfl := Option.some.inj (hl.symm.trans h)
      rcases all _ rfl with ⟨n, h, held⟩ | spares
      · obtain rfl := Option.some.inj h
        exact .inl held
      · exact .inr spares

/-- The region that is evicted is the one that the victim was held under. -/
lemma evicts_iff {u : Sim} {base r : Nat}
    (misses : ¬ u.promotionCache.Resident (u.pccPage base))
    (hist : t.promotionCache.history = u.pccCalls base ++ u.promotionCache.history) :
    Evicts u t r ↔ ∃ n, u.pccVictim base = some n ∧ heldUnder u n = some r := by
  rw [pccCalls, if_neg misses] at hist
  constructor
  · rintro ⟨a, is2M, n, e, hist', held⟩
    rw [hist] at hist'
    simp only [List.cons_append, List.nil_append, List.cons.injEq, Event.inserted.injEq] at hist'
    exact ⟨n, hist'.1.2.2, held⟩
  · rintro ⟨n, victim, held⟩
    rw [victim] at hist
    exact ⟨_, _, n, _, hist, held⟩

/-- A miss leaves all other entries alone if and only if the entry that it resets belongs to its victim. -/
lemma trackMiss_frame_iff {u : Sim} {alpha : Float} {now base : Nat} (val : u.toCore.Valid g)
    (hb : base < 2 ^ 43) (h : u.trackMiss alpha now base = some t) :
    (∀ r, r ≠ base → ¬ Evicts u t r → t.reuseMap.find r = u.reuseMap.find r) ↔
      (u.reuseMap.contains base = true → ¬ u.promotionCache.Resident (u.pccPage base) →
        ResetsOwn u base) := by
  obtain ⟨_, _, _, reuse, hist⟩ := trackMiss_spec val hb h
  constructor
  · intro same known misses
    rw [if_pos known] at hist
    rw [resetsOwn_iff val misses]
    intro r reset
    by_cases own : r = base
    · exact .inr (.inl own)
    · by_cases evicts : Evicts u t r
      · exact .inl ((evicts_iff misses hist).mp evicts)
      · -- the entry was reset and did not change, so that it was zero before
        have zero := reuse r own
        rw [if_pos ⟨known, reset⟩, same r own evicts] at zero
        exact .inr (.inr zero)
  · intro owns r ne spared
    rw [reuse r ne]
    split
    case isFalse => rfl
    case isTrue reset =>
      obtain ⟨known, reset⟩ := reset
      have misses : ¬ u.promotionCache.Resident (u.pccPage base) := by
        intro hits
        rw [resetRegion, if_pos hits] at reset
        cases reset
      rw [if_pos known] at hist
      rcases (resetsOwn_iff val misses).mp (owns known misses) r reset with victim | own | zero
      · exact absurd ((evicts_iff misses hist).mpr victim) spared
      · exact absurd own ne
      · exact zero.symm

/-- An access that triggers no pass changes, besides that of its own region, only the reuse
    information of the region that it evicts from the promotion cache, if and only if, where it
    misses in all TLBs and in the promotion cache, what it resets is its own. -/
theorem reuse_frame_iff {a : UInt64} (pos : 1 ≤ cfg.promotionCacheSize.toNat)
    (h : simulate cfg as = some s) (quiet : passDue cfg (counted s).totalNumAccesses = false)
    (st : pccTrackAccess cfg s a = some t) :
    (∀ r, r ≠ a.toNat / hugePageSize → ¬ Evicts s t r → t.reuseMap.find r = s.reuseMap.find r) ↔
      ∀ u, (counted s).tlbHierarchy a.toNat = some (true, u) →
        u.reuseMap.contains (a.toNat / hugePageSize) = true →
        ¬ u.promotionCache.Resident (u.pccPage (a.toNat / hugePageSize)) →
        ResetsOwn u (a.toNat / hugePageSize) := by
  obtain ⟨g, val⟩ := simulate_valid pos h
  obtain ⟨m, hm, htrack⟩ := pccTrackAccess_inv st
  obtain ⟨_, hm⟩ := countAccess_inv hm
  rw [quiet] at hm
  obtain rfl := Option.some.inj hm
  obtain ⟨miss, u, hh, htail⟩ := trackAccess_inv htrack
  have val' : (counted s).toCore.Valid g := val
  obtain ⟨valU, frame, _⟩ := tlbHierarchy_spec val' a.toNat_lt hh
  have reuse : u.reuseMap = s.reuseMap := frame.reuseMap
  have evicts : ∀ r, Evicts s t r ↔ Evicts u t r := by
    intro r
    unfold Evicts heldUnder
    rw [show u.promotionCache = s.promotionCache from frame.promotionCache]
  split at htail
  case isTrue missed =>
    obtain rfl : miss = true := missed
    have frame_iff := trackMiss_frame_iff valU (region_lt a) htail
    rw [reuse] at frame_iff
    simp only [evicts]
    rw [frame_iff, ← reuse]
    constructor
    · intro owns w hw
      obtain ⟨_, rfl⟩ := Prod.mk.inj (Option.some.inj (hh.symm.trans hw))
      exact owns
    · exact fun owns => owns u hh
  case isFalse hit =>
    obtain rfl := Option.some.inj htail
    constructor
    · intro _ w hw
      obtain ⟨missed, _⟩ := Prod.mk.inj (Option.some.inj (hh.symm.trans hw))
      exact absurd missed hit
    · exact fun _ r _ _ => by rw [reuse]

/-- Three pages of region 1 in one set of the 4KB L1 TLB, then two of region 2. -/
def crowd : List UInt64 := [pageOf 1 0, pageOf 1 16, pageOf 1 32, pageOf 2 0]

/-- Page 528 is the last that the 4KB L1 TLB has evicted when region 2 is taken into the promotion
    cache. Nothing is evicted from there, and yet a reuse entry for region 528 appears. -/
theorem reuse_fabricated :
    ∃ s t, simulate shipped crowd = some s ∧ pccTrackAccess shipped s (pageOf 2 1) = some t ∧
      passDue shipped (counted s).totalNumAccesses = false ∧ (∀ r, ¬ Evicts s t r) ∧
      s.reuseMap.contains 528 = false ∧ t.reuseMap.contains 528 = true ∧
      ¬ (∀ r, r ≠ (pageOf 2 1).toNat / hugePageSize → ¬ Evicts s t r →
        t.reuseMap.find r = s.reuseMap.find r) := by
  have run : ((simulate shipped crowd).bind fun s =>
      (pccTrackAccess shipped s (pageOf 2 1)).map fun t =>
        (!passDue shipped (counted s).totalNumAccesses && !s.reuseMap.contains 528 &&
          t.reuseMap.contains 528, t.promotionCache.history.head?)) =
      some (true, some (.inserted 8192 false none)) := by decide +kernel
  obtain ⟨s, h, hs⟩ := Option.bind_eq_some_iff.mp run
  obtain ⟨t, ht, e⟩ := Option.map_eq_some_iff.mp hs
  simp only [Prod.mk.injEq, Bool.and_eq_true, Bool.not_eq_true'] at e
  obtain ⟨⟨⟨quiet, before⟩, after⟩, last⟩ := e
  have none : ∀ r, ¬ Evicts s t r := by
    rintro r ⟨_, _, n, _, hist, _⟩
    rw [hist] at last
    simp at last
  refine ⟨s, t, h, ht, quiet, none, before, after, ?_⟩
  intro same
  have e := same 528 (by decide) (none 528)
  rw [UnorderedMap.contains, e] at after
  rw [UnorderedMap.contains, after] at before
  cases before

/-- With one line in the promotion cache: region 2 takes that of region 1, and the reuse information of region 1 is the
    only one besides its own that changes. -/
theorem reuse_frame_iff_full :
    ∃ s t, simulate ⟨1, 1, 100, 0.9⟩ [pageOf 1 0, pageOf 1 1, pageOf 2 0] = some s ∧
      pccTrackAccess ⟨1, 1, 100, 0.9⟩ s (pageOf 2 1) = some t ∧ Evicts s t 1 ∧
      ∀ r, r ≠ 2 → ¬ Evicts s t r → t.reuseMap.find r = s.reuseMap.find r := by
  have run : ((simulate ⟨1, 1, 100, 0.9⟩ [pageOf 1 0, pageOf 1 1, pageOf 2 0]).bind fun s =>
      ((counted s).tlbHierarchy (pageOf 2 1).toNat).bind fun h =>
        (pccTrackAccess ⟨1, 1, 100, 0.9⟩ s (pageOf 2 1)).map fun t =>
          (passDue ⟨1, 1, 100, 0.9⟩ (counted s).totalNumAccesses,
            decide ((pccLine h.2 2).map (fun l => (l.addr, l.offset, heldUnder h.2 l.addr)) = some (1, 0, some 1)),
            t.promotionCache.history.take 2, heldUnder s 1,
            decide (t.promotionCache.history.drop 2 = s.promotionCache.history))) =
      some (false, true, [.inserted 8192 false (some 1), .accessed 8192 false false], some 1, true) := by
    decide +kernel
  obtain ⟨s, h, hs⟩ := Option.bind_eq_some_iff.mp run
  obtain ⟨⟨miss, u⟩, hu, hs⟩ := Option.bind_eq_some_iff.mp hs
  obtain ⟨t, ht, e⟩ := Option.map_eq_some_iff.mp hs
  simp only [Prod.mk.injEq, decide_eq_true_eq] at e
  obtain ⟨quiet, line, calls, held, before⟩ := e
  refine ⟨s, t, h, ht, ⟨8192, false, 1, .accessed 8192 false false, ?_, held⟩, ?_⟩
  · rw [← List.take_append_drop 2 t.promotionCache.history, calls, before]
    rfl
  refine (reuse_frame_iff (by decide) h quiet ht).mpr ?_
  intro u' hu' _ _
  obtain ⟨_, rfl⟩ := Prod.mk.inj (Option.some.inj (hu.symm.trans hu'))
  obtain ⟨l, full, e⟩ := Option.map_eq_some_iff.mp line
  simp only [Prod.mk.injEq] at e
  obtain ⟨addr, offset, own⟩ := e
  refine ⟨fun free => ?_, fun l' full' => .inl ?_⟩
  · cases full.symm.trans free
  · -- tag and offset of the line name region 1
    obtain rfl := Option.some.inj (full.symm.trans full')
    have named : ∀ dirty, evictedAddrOf ⟨dirty, (1 : ℕ), 0⟩ = 1 := by decide
    rw [own, offset, addr, named]

end
end PromotionCache.Pcc.Single
