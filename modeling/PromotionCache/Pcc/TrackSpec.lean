import PromotionCache.Pcc.Track
import PromotionCache.Tlb.CacheSpec

/-!
# What tracking an access does

The invariant `Core.Valid` of the caches of one thread, and for each part of the path of an access
one lemma with what follows when it succeeds: `tlbHierarchy_spec` for the TLBs,
`promotionCacheLogic_spec` for the promotion cache, `trackAccess_spec` for the whole path. Whether
an access hits is read off the caches (`HitsL1`, `HitsL2`) in the state before it.

Only the 4KB L1 TLB can hold a tag twice, since `fillTlbs` may insert a page into it two times.
-/

namespace PromotionCache.Pcc
open Lib Tlb

/-- The number of a 4KB page. -/
lemma pageNumber_4k (a : Nat) : pageNumber 12 false a = a / pageSize := rfl

/-- The number of a 2MB page, whatever the line size. -/
lemma pageNumber_true (l a : Nat) : pageNumber l true a = a / hugePageSize := rfl

/-- A word is below `2 ^ 64`. -/
lemma word_lt (n : Nat) : word n < 2 ^ 64 := Nat.mod_lt _ (by decide)

/-- A counter that has wrapped around goes on as the number does. -/
lemma word_succ (n : Nat) : word (word n + 1) = word (n + 1) := by
  unfold word
  exact Nat.mod_add_mod n (2 ^ 64) 1

/-- The geometry of the 4KB L1 TLB: 16 sets of 4 lines. -/
def geometry4k : Geometry := ⟨4, 12, 16, 16⟩

/-- The geometry of the 2MB L1 TLB: 8 sets of 4 lines. -/
def geometry2m : Geometry := ⟨3, 21, 8, 8⟩

/-- The geometry of the L2 TLB: 170 sets of 6 lines, of which addresses select 128. -/
def geometryL2 : Geometry := ⟨7, 12, 170, 170⟩

/-- What the geometry of a promotion cache has in common for all sizes: at most one set. -/
structure PccGeometry (g : Geometry) : Prop where
  logSets : g.logSets = 0
  logLine : g.logLine = 12
  sets : g.sets ≤ 1
  setCount : g.sets ≠ 0 → g.setCount = 1

/-- The shifts of the L1 TLB for 4KB pages fit. -/
lemma fits4k : geometry4k.Fits := ⟨by decide, by decide, by decide⟩

/-- So do those of the L1 TLB for 2MB pages. -/
lemma fits2m : geometry2m.Fits := ⟨by decide, by decide, by decide⟩

/-- So do those of the L2 TLB. -/
lemma fitsL2 : geometryL2.Fits := ⟨by decide, by decide, by decide⟩

/-- So do those of a promotion cache. -/
lemma PccGeometry.fits {g : Geometry} (pg : PccGeometry g) : g.Fits := by
  obtain ⟨h, h', _, _⟩ := pg
  constructor <;> omega

/-- The invariant of the caches of a thread; `g` is the geometry of its promotion cache, which
    holds nothing but numbers of regions. -/
structure Core.Valid (g : Geometry) (c : Core) : Prop where
  geometry : PccGeometry g
  l1Tlb4k : c.l1Tlb4k.Valid geometry4k
  l1Tlb2m : c.l1Tlb2m.Valid geometry2m
  l2Tlb : c.l2Tlb.Valid geometryL2
  promotionCache : c.promotionCache.Valid g
  clear2m : c.l1Tlb2m.Unambiguous
  clearL2 : c.l2Tlb.Unambiguous
  clearPcc : c.promotionCache.Unambiguous
  small : ∀ n, c.promotionCache.Resident n → n < 2 ^ 43

/-- The promotion cache lists the regions it holds, each once. -/
lemma Core.Valid.entries {g : Geometry} {c : Core} {ns : List Nat} (val : c.Valid g)
    (h : c.promotionCache.getEntries = some ns) :
    ns.Nodup ∧ ∀ n, n ∈ ns ↔ c.promotionCache.Resident n :=
  val.promotionCache.mem_entries val.clearPcc val.geometry.logSets val.geometry.sets h

/-- The constructor's arithmetic for a promotion cache with `n` lines: it has one set, or none if
    its size in bytes overflows. -/
lemma pccCount {n : Nat} {count assoc : Int} (pos : 1 ≤ n) (lt : n < 2 ^ 32)
    (hassoc : assoc = Int.bmod n (2 ^ 32))
    (hcount : count = (Int.bmod (n * pageSize % 2 ^ 32 / pageSize : Nat) (2 ^ 32)).tdiv assoc) :
    (2 ^ 20 ≤ n ∧ count.toNat = 0) ∨ (n < 2 ^ 20 ∧ count = 1 ∧ 1 ≤ assoc.toNat) := by
  have bytes : n * pageSize % 2 ^ 32 / pageSize = n % 2 ^ 20 := by
    simp only [pageSize]
    omega
  have lines : Int.bmod (n % 2 ^ 20 : Nat) (2 ^ 32) = (n % 2 ^ 20 : Nat) := by
    apply Int.bmod_eq_of_le_mul_two <;> omega
  rw [bytes, lines] at hcount
  by_cases high : n < 2 ^ 31
  · have e : assoc = n := by
      rw [hassoc]
      apply Int.bmod_eq_of_le_mul_two <;> omega
    rw [e, ← Int.ofNat_tdiv] at hcount
    by_cases fits : n < 2 ^ 20
    · right
      rw [Nat.mod_eq_of_lt fits, Nat.div_self pos] at hcount
      exact ⟨fits, hcount, by omega⟩
    · left
      rw [Nat.div_eq_of_lt (by omega)] at hcount
      rw [hcount]
      exact ⟨Nat.not_lt.mp fits, rfl⟩
  · -- read as an `int`, the associativity is negative
    have e : assoc ≤ 0 := by
      rw [hassoc, Int.bmod_def, if_neg (by omega)]
      omega
    left
    have := Int.tdiv_nonpos_of_nonneg_of_nonpos (Int.natCast_nonneg (n % 2 ^ 20)) e
    omega

/-- A cache that has just been built has the geometry that it was built for, and nothing in it. -/
private lemma valid_of_new {c : FunctionalCache} {g : Geometry} {size lineSize : Nat} {assoc : Int}
    (h : FunctionalCache.new size assoc lineSize 0 = some c) (pos : 1 ≤ assoc.toNat)
    (hg : ∀ n : Int, n = (Int.bmod (size / lineSize : Nat) (2 ^ 32)).tdiv assoc →
      (⟨n.toNat.log2, lineSize.log2, n.toNat, n⟩ : Geometry) = g) :
    c.Valid g ∧ c.Unambiguous ∧ ∀ n, ¬ c.Resident n := by
  obtain ⟨_, _, geo, count⟩ := FunctionalCache.new_inv h
  rw [← hg _ count, ← geo]
  exact FunctionalCache.valid_new (.inl rfl) (fun _ => pos) h

/-- Without lines in the promotion cache the constructor divides by zero. -/
lemma initCore_pos {cfg : Config} {c : Core} (h : initCore cfg = some c) :
    1 ≤ cfg.promotionCacheSize.toNat := by
  simp only [initCore, Option.bind_eq_bind, Option.bind_eq_some_iff] at h
  obtain ⟨_, _, _, _, _, _, _, hPcc, _⟩ := h
  rcases Nat.eq_zero_or_pos cfg.promotionCacheSize.toNat with zero | pos
  · rw [zero] at hPcc
    cases hPcc
  · exact pos

/-- Caches that hold nothing. -/
structure Core.Fresh (c : Core) : Prop where
  l1Tlb4k : ∀ n, ¬ c.l1Tlb4k.Resident n
  l1Tlb2m : ∀ n, ¬ c.l1Tlb2m.Resident n
  l2Tlb : ∀ n, ¬ c.l2Tlb.Resident n
  promotionCache : ∀ n, ¬ c.promotionCache.Resident n
  reuseMap : c.reuseMap = .empty
  sets4k : c.l1Tlb4k.sets = List.replicate 16 (.new 4 pageSize 0)

/-- The caches at the start are valid and hold nothing. -/
lemma initCore_spec {cfg : Config} {c : Core} (pos : 1 ≤ cfg.promotionCacheSize.toNat)
    (h : initCore cfg = some c) : (∃ g, c.Valid g) ∧ c.l1Tlb4k.Unambiguous ∧ c.Fresh := by
  simp only [initCore, Option.bind_eq_bind, Option.bind_eq_some_iff] at h
  obtain ⟨c4k, h4k, c2m, h2m, cL2, hL2, cPcc, hPcc, h⟩ := h
  obtain rfl := Option.some.inj h
  obtain ⟨v4k, un4k, none4k⟩ := valid_of_new (g := geometry4k) h4k (by decide)
    (by rintro _ rfl; decide)
  obtain ⟨v2m, un2m, none2m⟩ := valid_of_new (g := geometry2m) h2m (by decide)
    (by rintro _ rfl; decide)
  obtain ⟨vL2, unL2, noneL2⟩ := valid_of_new (g := geometryL2) hL2 (by decide)
    (by rintro _ rfl; decide)
  obtain ⟨_, _, geo, count⟩ := FunctionalCache.new_inv hPcc
  have sets := (pccCount pos cfg.promotionCacheSize.toNat_lt rfl count).imp And.right And.right
  obtain ⟨vPcc, unPcc, nonePcc⟩ := FunctionalCache.valid_new (.inr rfl)
    (fun ne => (sets.resolve_left ne).2) hPcc
  have pcc : PccGeometry cPcc.geometry := by
    rw [geo]
    constructor
    case logSets =>
      rcases sets with zero | ⟨one, _⟩
      · simp [zero]
      · rw [one]
        decide
    case logLine =>
      change pageSize.log2 = 12
      decide
    case sets =>
      rcases sets with zero | ⟨one, _⟩
      · simp [zero]
      · simp [one]
    case setCount => exact fun ne => (sets.resolve_left ne).1
  have sets4k : c4k.sets = List.replicate 16 (.new 4 pageSize 0) := by
    obtain ⟨sets, _, _, count⟩ := FunctionalCache.new_inv h4k
    have e : c4k.setCount = 16 := by
      rw [count]
      decide
    rw [sets, e]
    rfl
  exact ⟨⟨cPcc.geometry, pcc, v4k, v2m, vL2, vPcc, un2m, unL2, unPcc,
    fun n hn => absurd hn (nonePcc n)⟩, un4k, none4k, none2m, noneL2, nonePcc, rfl, sets4k⟩

/-- The region that a line of the output lists. -/
def Output.listed : Output → Option Nat
  | .candidate base _ _ _ _ => some base
  | _ => none

/-- The line starts a pass, of the given thread if there are several. -/
def Output.isPass (thread : Option Nat) : Output → Bool
  | .regions _ thread' => thread' = thread
  | _ => false

/-- The number of passes that the output shows. -/
def Shared.passes (s : Shared) (thread : Option Nat) : Nat := s.cout.countP (Output.isPass thread)

/-- Lines that list candidates start no pass. -/
lemma countP_listed {lines : List Output} {bases : List Nat} {thread : Option Nat}
    (h : lines.map Output.listed = bases.map some) : lines.countP (Output.isPass thread) = 0 := by
  apply List.countP_eq_zero.mpr
  intro line hline
  have mem : line.listed ∈ bases.map some := h ▸ List.mem_map_of_mem hline
  cases line with
  | candidate => simp [Output.isPass]
  | initializing => simp [Output.isPass]
  | regions => simp [Output.listed] at mem

namespace Sim

/-- An L1 TLB translates the address. -/
def HitsL1 (s : Sim) (a : Nat) : Prop :=
  s.l1Tlb4k.Resident (a / pageSize) ∨ s.l1Tlb2m.Resident (a / hugePageSize)

/-- The L2 TLB answers a lookup of the page of the address. -/
def HitsL2 (s : Sim) (a : Nat) (is2m : Bool) : Prop :=
  s.l2Tlb.Resident (if is2m then a / hugePageSize else a / pageSize)

/-- No TLB translates the address. -/
def MissesTlbs (s : Sim) (a : Nat) : Prop :=
  ¬ s.HitsL1 a ∧ ¬ s.HitsL2 a false ∧ ¬ s.HitsL2 a true

/-- An access inserts its page into the 4KB L1 TLB. -/
def Fills4k (s : Sim) (a : Nat) : Prop := ¬ s.HitsL1 a ∧ (s.HitsL2 a false ∨ ¬ s.HitsL2 a true)

instance (s : Sim) (a : Nat) : Decidable (s.HitsL1 a) := inferInstanceAs (Decidable (_ ∨ _))

instance (s : Sim) (a : Nat) (is2m : Bool) : Decidable (s.HitsL2 a is2m) :=
  inferInstanceAs (Decidable (s.l2Tlb.Resident _))

instance (s : Sim) (a : Nat) : Decidable (s.MissesTlbs a) := inferInstanceAs (Decidable (_ ∧ _))

instance (s : Sim) (a : Nat) : Decidable (s.Fills4k a) := inferInstanceAs (Decidable (_ ∧ _))

/-- The TLB hierarchy logic leaves everything but the TLBs and their globals alone. -/
structure TlbFrame (s t : Sim) : Prop where
  promotionCache : t.promotionCache = s.promotionCache
  reuseMap : t.reuseMap = s.reuseMap
  pccPromotions : t.pccPromotions = s.pccPromotions
  evictedAddr : t.evictedAddr = s.evictedAddr
  totalNumAccesses : t.totalNumAccesses = s.totalNumAccesses
  num2mbPtw : t.num2mbPtw = s.num2mbPtw
  cout : t.cout = s.cout

/-- What two steps leave alone, both together leave alone. -/
lemma TlbFrame.trans {s t u : Sim} (h : TlbFrame s t) (h' : TlbFrame t u) : TlbFrame s u where
  promotionCache := h'.promotionCache.trans h.promotionCache
  reuseMap := h'.reuseMap.trans h.reuseMap
  pccPromotions := h'.pccPromotions.trans h.pccPromotions
  evictedAddr := h'.evictedAddr.trans h.evictedAddr
  totalNumAccesses := h'.totalNumAccesses.trans h.totalNumAccesses
  num2mbPtw := h'.num2mbPtw.trans h.num2mbPtw
  cout := h'.cout.trans h.cout

section
variable {g : Geometry} {s t : Sim} {a : Nat}

/-- An insertion into the L1 TLB for 4KB pages brings in the page, and no other. -/
lemma insertL1Tlb4k_spec (val : s.toCore.Valid g) (ha : a < 2 ^ 64)
    (h : s.insertL1Tlb4k a = some t) :
    t.toCore.Valid g ∧ TlbFrame s t ∧ t.l1Tlb2m = s.l1Tlb2m ∧ t.l2Tlb = s.l2Tlb ∧
      t.l1Tlb4k.Resident (a / pageSize) ∧
      ∀ n, t.l1Tlb4k.Resident n → n = a / pageSize ∨ s.l1Tlb4k.Resident n := by
  simp only [insertL1Tlb4k, Option.bind_eq_bind, Option.bind_eq_some_iff] at h
  obtain ⟨⟨c, e⟩, hins, h⟩ := h
  obtain rfl := Option.some.inj h
  obtain ⟨v, _, _, hres, _⟩ := val.l1Tlb4k.insert fits4k ha hins
  refine ⟨{ val with l1Tlb4k := v }, ⟨rfl, rfl, rfl, rfl, rfl, rfl, rfl⟩, rfl, rfl, ?_, ?_⟩
  · exact (hres _).mpr (.inl rfl)
  · intro n hn
    exact ((hres n).mp hn).imp_right And.left

/-- An insertion into the L1 TLB for 2MB pages touches that TLB alone. -/
lemma insertL1Tlb2m_spec (val : s.toCore.Valid g) (ha : a < 2 ^ 64)
    (miss : ¬ s.l1Tlb2m.Resident (a / hugePageSize)) (h : s.insertL1Tlb2m a = some t) :
    t.toCore.Valid g ∧ TlbFrame s t ∧ t.l1Tlb4k = s.l1Tlb4k ∧ t.l2Tlb = s.l2Tlb := by
  simp only [insertL1Tlb2m, Option.bind_eq_bind, Option.bind_eq_some_iff] at h
  obtain ⟨⟨c, e⟩, hins, h⟩ := h
  obtain rfl := Option.some.inj h
  obtain ⟨v, _, _, _, un⟩ := val.l1Tlb2m.insert fits2m ha hins
  exact ⟨{ val with l1Tlb2m := v, clear2m := un val.clear2m miss },
    ⟨rfl, rfl, rfl, rfl, rfl, rfl, rfl⟩, rfl, rfl⟩

/-- An insertion into the L2 TLB touches that TLB alone. -/
lemma insertL2Tlb_spec {is2m} (val : s.toCore.Valid g) (ha : a < 2 ^ 64)
    (miss : ¬ s.HitsL2 a is2m) (h : s.insertL2Tlb a is2m = some t) :
    t.toCore.Valid g ∧ TlbFrame s t ∧ t.l1Tlb4k = s.l1Tlb4k ∧ t.l1Tlb2m = s.l1Tlb2m := by
  simp only [insertL2Tlb, Option.bind_eq_bind, Option.bind_eq_some_iff] at h
  obtain ⟨⟨c, e⟩, hins, h⟩ := h
  obtain rfl := Option.some.inj h
  obtain ⟨v, _, _, _, un⟩ := val.l2Tlb.insert fitsL2 ha hins
  have miss' : ¬ s.l2Tlb.Resident (pageNumber 12 is2m a) := by
    cases is2m
    · exact miss
    · exact miss
  exact ⟨{ val with l2Tlb := v, clearL2 := un val.clearL2 miss' },
    ⟨rfl, rfl, rfl, rfl, rfl, rfl, rfl⟩, rfl, rfl⟩

/-- `t` is `s` after lookups in the TLBs, among them that of address `a` in the 4KB L1 TLB. -/
structure LookedUp (a : Nat) (s t : Sim) : Prop where
  frame : TlbFrame s t
  access4k : ∃ hit, s.l1Tlb4k.access a true false = some (hit, t.l1Tlb4k)
  l1Tlb4k : ∀ n, t.l1Tlb4k.Resident n ↔ s.l1Tlb4k.Resident n
  l1Tlb2m : ∀ n, t.l1Tlb2m.Resident n ↔ s.l1Tlb2m.Resident n
  l2Tlb : ∀ n, t.l2Tlb.Resident n ↔ s.l2Tlb.Resident n

/-- A lookup changes no answer of the L1 TLBs. -/
lemma LookedUp.hitsL1 {s t : Sim} {a : Nat} (look : LookedUp a s t) :
    t.HitsL1 a ↔ s.HitsL1 a :=
  or_congr (look.l1Tlb4k _) (look.l1Tlb2m _)

/-- A lookup changes no answer of the L2 TLB. -/
lemma LookedUp.hitsL2 {s t : Sim} {a b : Nat} (look : LookedUp a s t) (is2m : Bool) :
    t.HitsL2 b is2m ↔ s.HitsL2 b is2m :=
  look.l2Tlb _

/-- A lookup in the L1 TLBs finds what is there, and only counts. -/
lemma lookupL1_spec {hit} (val : s.toCore.Valid g) (ha : a < 2 ^ 64)
    (h : s.lookupL1 a = some (hit, t)) :
    t.toCore.Valid g ∧ (hit = true ↔ s.HitsL1 a) ∧ LookedUp a s t := by
  simp only [lookupL1, Option.bind_eq_bind, Option.bind_eq_some_iff] at h
  obtain ⟨⟨hit4k, c⟩, hacc, ⟨hit2m, c'⟩, hacc', h⟩ := h
  obtain ⟨rfl, rfl⟩ := Prod.mk.inj (Option.some.inj h)
  obtain ⟨v, _, h4k, hres, _⟩ := val.l1Tlb4k.access fits4k ha hacc
  obtain ⟨v', _, h2m, hres', un⟩ := val.l1Tlb2m.access fits2m ha hacc'
  refine ⟨{ val with l1Tlb4k := v, l1Tlb2m := v', clear2m := un val.clear2m }, ?_,
    ⟨rfl, rfl, rfl, rfl, rfl, rfl, rfl⟩, ⟨hit4k, hacc⟩, hres, hres', fun _ => Iff.rfl⟩
  rw [Bool.or_eq_true, h4k, h2m]
  rfl

/-- A lookup in the L2 TLB finds what is there, and only counts. -/
lemma lookupL2_spec {hit is2m} {u : Sim} (val : u.toCore.Valid g) (ha : a < 2 ^ 64)
    (look : LookedUp a s u) (h : u.lookupL2 a is2m = some (hit, t)) :
    t.toCore.Valid g ∧ (hit = true ↔ s.HitsL2 a is2m) ∧ LookedUp a s t := by
  simp only [lookupL2, Option.bind_eq_bind, Option.bind_eq_some_iff] at h
  obtain ⟨⟨hit', c⟩, hacc, h⟩ := h
  obtain ⟨rfl, rfl⟩ := Prod.mk.inj (Option.some.inj h)
  obtain ⟨v, _, hhit, hres, un⟩ := val.l2Tlb.access fitsL2 ha hacc
  refine ⟨{ val with l2Tlb := v, clearL2 := un val.clearL2 }, ?_,
    look.frame.trans ⟨rfl, rfl, rfl, rfl, rfl, rfl, rfl⟩, look.access4k, look.l1Tlb4k,
    look.l1Tlb2m, fun n => (hres n).trans (look.l2Tlb n)⟩
  rw [hhit, ← look.hitsL2]
  cases is2m <;> rfl

/-- A miss in all TLBs brings the page into the 4KB L1 TLB, promoted or not. -/
lemma fillTlbs_spec (val : s.toCore.Valid g) (ha : a < 2 ^ 64) (miss : s.MissesTlbs a)
    (h : s.fillTlbs a = some t) :
    t.toCore.Valid g ∧ TlbFrame s t ∧ t.l1Tlb4k.Resident (a / pageSize) ∧
      ∀ n, t.l1Tlb4k.Resident n → n = a / pageSize ∨ s.l1Tlb4k.Resident n := by
  simp only [fillTlbs, Option.bind_eq_bind, Option.bind_eq_some_iff] at h
  obtain ⟨s₁, hl2, s₂, hl1, h⟩ := h
  obtain ⟨missL1, miss4k, miss2m⟩ := miss
  have missL2 : ¬ s.HitsL2 a (s.promoted (a / hugePageSize)) := by
    cases s.promoted (a / hugePageSize)
    · exact miss4k
    · exact miss2m
  obtain ⟨val₁, frame₁, eq4k₁, eq2m₁⟩ := insertL2Tlb_spec val ha missL2 hl2
  -- the insertion that depends on whether the region is promoted
  have mid : s₂.toCore.Valid g ∧ TlbFrame s₁ s₂ ∧
      ∀ n, s₂.l1Tlb4k.Resident n → n = a / pageSize ∨ s₁.l1Tlb4k.Resident n := by
    split at hl1
    case isTrue =>
      have miss' : ¬ s₁.l1Tlb2m.Resident (a / hugePageSize) := by
        rw [eq2m₁]
        exact fun r => missL1 (.inr r)
      obtain ⟨val₂, frame₂, eq4k₂, _⟩ := insertL1Tlb2m_spec val₁ ha miss' hl1
      refine ⟨val₂, frame₂, ?_⟩
      intro n hn
      rw [eq4k₂] at hn
      exact .inr hn
    case isFalse =>
      obtain ⟨val₂, frame₂, _, _, _, only₂⟩ := insertL1Tlb4k_spec val₁ ha hl1
      exact ⟨val₂, frame₂, only₂⟩
  obtain ⟨val₂, frame₂, only₂⟩ := mid
  obtain ⟨val₃, frame₃, _, _, here, only₃⟩ := insertL1Tlb4k_spec val₂ ha h
  refine ⟨val₃, (frame₁.trans frame₂).trans frame₃, here, ?_⟩
  intro n hn
  rcases only₃ n hn with e | hn
  · exact .inl e
  · rw [← eq4k₁]
    exact only₂ n hn

/-- The four ways through the TLB hierarchy logic, from the state `u` after the lookups on. -/
inductive Path (s u : Sim) (a : Nat) : Bool → Sim → Prop where
  | l1Hit : s.HitsL1 a → Path s u a false u
  | l2Hit4k {t : Sim} : ¬ s.HitsL1 a → s.HitsL2 a false → u.insertL1Tlb4k a = some t → Path s u a false t
  | l2Hit2m {t : Sim} : ¬ s.HitsL1 a → ¬ s.HitsL2 a false → s.HitsL2 a true →
    u.insertL1Tlb2m a = some t → Path s u a false t
  | miss {t : Sim} : s.MissesTlbs a → u.fillTlbs a = some t → Path s u a true t

/-- The TLB hierarchy looks the address up, and then takes one of its four ways. -/
lemma tlbHierarchy_path {miss} (val : s.toCore.Valid g) (ha : a < 2 ^ 64)
    (h : s.tlbHierarchy a = some (miss, t)) :
    ∃ u, u.toCore.Valid g ∧ LookedUp a s u ∧ Path s u a miss t := by
  simp only [tlbHierarchy, Option.bind_eq_bind, Option.bind_eq_some_iff] at h
  obtain ⟨⟨l1Hit, s₁⟩, hl1, h⟩ := h
  obtain ⟨val₁, hit₁, look₁⟩ := lookupL1_spec val ha hl1
  split at h
  case isTrue hit =>
    obtain ⟨rfl, rfl⟩ := Prod.mk.inj (Option.some.inj h)
    exact ⟨s₁, val₁, look₁, .l1Hit (hit₁.mp hit)⟩
  case isFalse missed =>
    have missL1 : ¬ s.HitsL1 a := fun hits => missed (hit₁.mpr hits)
    simp only [Option.bind_eq_some_iff] at h
    obtain ⟨⟨l2Hit, s₂⟩, hl2, h⟩ := h
    obtain ⟨val₂, hit₂, look₂⟩ := lookupL2_spec val₁ ha look₁ hl2
    split at h
    case isTrue hit =>
      simp only [Option.bind_eq_some_iff] at h
      obtain ⟨s₃, hins, h⟩ := h
      obtain ⟨rfl, rfl⟩ := Prod.mk.inj (Option.some.inj h)
      exact ⟨s₂, val₂, look₂, .l2Hit4k missL1 (hit₂.mp hit) hins⟩
    case isFalse missed =>
      have miss4k : ¬ s.HitsL2 a false := fun hits => missed (hit₂.mpr hits)
      simp only [Option.bind_eq_some_iff] at h
      obtain ⟨⟨l2Hit', s₃⟩, hl2', h⟩ := h
      obtain ⟨val₃, hit₃, look₃⟩ := lookupL2_spec val₂ ha look₂ hl2'
      split at h
      case isTrue hit =>
        simp only [Option.bind_eq_some_iff] at h
        obtain ⟨s₄, hins, h⟩ := h
        obtain ⟨rfl, rfl⟩ := Prod.mk.inj (Option.some.inj h)
        exact ⟨s₃, val₃, look₃, .l2Hit2m missL1 miss4k (hit₃.mp hit) hins⟩
      case isFalse missed =>
        simp only [Option.bind_eq_some_iff] at h
        obtain ⟨s₄, hfill, h⟩ := h
        obtain ⟨rfl, rfl⟩ := Prod.mk.inj (Option.some.inj h)
        have miss2m : ¬ s.HitsL2 a true := fun hits => missed (hit₃.mpr hits)
        exact ⟨s₃, val₃, look₃, .miss ⟨missL1, miss4k, miss2m⟩ hfill⟩

/-- What the TLB hierarchy logic does to the 4KB L1 TLB, and when it misses. -/
lemma tlbHierarchy_spec {miss} (val : s.toCore.Valid g) (ha : a < 2 ^ 64)
    (h : s.tlbHierarchy a = some (miss, t)) :
    t.toCore.Valid g ∧ TlbFrame s t ∧ (miss = true ↔ s.MissesTlbs a) ∧
      (s.Fills4k a → t.l1Tlb4k.Resident (a / pageSize)) ∧
      ∀ n, t.l1Tlb4k.Resident n → s.l1Tlb4k.Resident n ∨ (n = a / pageSize ∧ s.Fills4k a) := by
  obtain ⟨u, val₁, look, path⟩ := tlbHierarchy_path val ha h
  cases path with
  | l1Hit hits =>
    refine ⟨val₁, look.frame, by simp [MissesTlbs, hits], ?_, ?_⟩
    · exact fun fills => absurd hits fills.1
    · exact fun n hn => .inl ((look.l1Tlb4k n).mp hn)
  | l2Hit4k missL1 hits hins =>
    obtain ⟨val₂, frame, _, _, here, only⟩ := insertL1Tlb4k_spec val₁ ha hins
    refine ⟨val₂, look.frame.trans frame, by simp [MissesTlbs, hits], fun _ => here, ?_⟩
    intro n hn
    rcases only n hn with e | hn
    · exact .inr ⟨e, missL1, .inl hits⟩
    · exact .inl ((look.l1Tlb4k n).mp hn)
  | l2Hit2m missL1 miss4k hits hins =>
    have miss' : ¬ u.l1Tlb2m.Resident (a / hugePageSize) := by
      rw [look.l1Tlb2m]
      exact fun r => missL1 (.inr r)
    obtain ⟨val₂, frame, eq4k, _⟩ := insertL1Tlb2m_spec val₁ ha miss' hins
    refine ⟨val₂, look.frame.trans frame, by simp [MissesTlbs, hits], ?_, ?_⟩
    · exact fun fills => absurd fills.2 (by simp [miss4k, hits])
    · rw [eq4k]
      exact fun n hn => .inl ((look.l1Tlb4k n).mp hn)
  | miss misses hfill =>
    obtain ⟨missL1, miss4k, miss2m⟩ := misses
    have misses' : u.MissesTlbs a := by
      refine ⟨?_, ?_, ?_⟩
      · rw [look.hitsL1]
        exact missL1
      · rw [look.hitsL2]
        exact miss4k
      · rw [look.hitsL2]
        exact miss2m
    obtain ⟨val₂, frame, here, only⟩ := fillTlbs_spec val₁ ha misses' hfill
    refine ⟨val₂, look.frame.trans frame, ?_, fun _ => here, ?_⟩
    · simp [MissesTlbs, missL1, miss4k, miss2m]
    · intro n hn
      rcases only n hn with e | hn
      · exact .inr ⟨e, missL1, .inr miss2m⟩
      · exact .inl ((look.l1Tlb4k n).mp hn)

/-- Resetting the entry of an evicted region touches the reuse map alone. -/
@[simp] lemma resetEvicted_toCore (s : Sim) :
    s.resetEvicted.toCore = { s.toCore with reuseMap := s.resetEvicted.reuseMap } := by
  unfold resetEvicted
  split <;> rfl

/-- The entry is reset that the tag of the last eviction from the L1 TLB names. -/
lemma resetEvicted_reuseMap (s : Sim) : s.resetEvicted.reuseMap =
    if s.l1_4k.evictedTag = -1 then s.reuseMap
    else s.reuseMap.set (evictedAddrOf s.l1_4k) {} := by
  unfold resetEvicted
  split <;> rfl

/-- The number under which the promotion cache looks up a region: that of the region, but of its
    region number read as a 4KB page once it is promoted. -/
def pccPage (s : Sim) (base : Nat) : Nat := if s.promoted base then base / 512 else base

/-- The promotion cache logic leaves the TLBs and the promotions alone. -/
structure PccFrame (s t : Sim) : Prop where
  l1Tlb4k : t.l1Tlb4k = s.l1Tlb4k
  l1Tlb2m : t.l1Tlb2m = s.l1Tlb2m
  l2Tlb : t.l2Tlb = s.l2Tlb
  pccPromotions : t.pccPromotions = s.pccPromotions
  totalNumAccesses : t.totalNumAccesses = s.totalNumAccesses
  cout : t.cout = s.cout

/-- What two steps of the promotion cache logic leave alone, both together leave alone. -/
lemma PccFrame.trans {s t u : Sim} (h : PccFrame s t) (h' : PccFrame t u) : PccFrame s u where
  l1Tlb4k := h'.l1Tlb4k.trans h.l1Tlb4k
  l1Tlb2m := h'.l1Tlb2m.trans h.l1Tlb2m
  l2Tlb := h'.l2Tlb.trans h.l2Tlb
  pccPromotions := h'.pccPromotions.trans h.pccPromotions
  totalNumAccesses := h'.totalNumAccesses.trans h.totalNumAccesses
  cout := h'.cout.trans h.cout

/-- Resetting an entry leaves the caches and the promotions alone. -/
lemma resetEvicted_frame (s : Sim) : PccFrame s s.resetEvicted := by
  unfold resetEvicted
  split <;> exact ⟨rfl, rfl, rfl, rfl, rfl, rfl⟩

/-- What the 4KB L1 TLB globals hold after the promotion cache logic missed. -/
def pccReport (s : Sim) (base : Nat) : Evicted :=
  s.promotionCache.reported (s.promoted base) (base * pageSize) s.l1_4k

/-- The region whose information the promotion cache logic resets. -/
def resetRegion (s : Sim) (base : Nat) : Option Nat :=
  if s.promotionCache.Resident (s.pccPage base) then none
  else if (s.pccReport base).evictedTag = -1 then none
  else some (evictedAddrOf (s.pccReport base))

/-- The address of a region fits into a word. -/
lemma word_region {base : Nat} (hb : base < 2 ^ 43) : word (base * pageSize) = base * pageSize := by
  apply Nat.mod_eq_of_lt
  simp only [pageSize]
  omega

/-- A region that is looked up as a 2MB page is cut 9 bits shorter. -/
lemma pageNumber_region (base : Nat) (is2m : Bool) :
    pageNumber 12 is2m (base * pageSize) = if is2m then base / 512 else base := by
  cases is2m
  · simp only [pageNumber_4k, pageSize]
    exact Nat.mul_div_cancel _ (by decide)
  · simp only [pageNumber_true, pageSize, hugePageSize]
    exact Nat.mul_div_mul_right base 512 (by decide : 0 < 4096)

/-- The page that the promotion cache evicts when it takes in a region. -/
def pccVictim (s : Sim) (base : Nat) : Option Nat :=
  s.promotionCache.victimPage (s.promoted base) (base * pageSize)

/-- The calls on the promotion cache in the promotion cache logic. -/
def pccCalls (s : Sim) (base : Nat) : List Event :=
  if s.promotionCache.Resident (s.pccPage base) then
    [.accessed (base * pageSize) (s.promoted base) true]
  else
    [.inserted (base * pageSize) (s.promoted base) (s.pccVictim base),
      .accessed (base * pageSize) (s.promoted base) false]

/-- What the promotion cache logic for region `base` does. -/
structure PccUpdate (g : Geometry) (base : Nat) (s t : Sim) : Prop where
  valid : t.toCore.Valid g
  frame : PccFrame s t
  gains : ∀ n, t.promotionCache.Resident n → s.promotionCache.Resident n ∨
    (n = s.pccPage base ∧ ¬ s.promotionCache.Resident n)
  reuseMap : ∀ r, t.reuseMap.find r =
    if s.resetRegion base = some r then some {} else s.reuseMap.find r
  history : t.promotionCache.history = s.pccCalls base ++ s.promotionCache.history

/-- The promotion cache logic looks the region up and inserts it if it is not there. -/
lemma promotionCacheLogic_inv {base : Nat} (hb : base < 2 ^ 43)
    (h : s.promotionCacheLogic base = some t) :
    ∃ hit c, s.promotionCache.access (base * pageSize) true (s.promoted base) = some (hit, c) ∧
      ((hit = true ∧ t = { s with promotionCache := c }) ∨
        (hit = false ∧ ∃ c' e n,
          c.insert (base * pageSize) true s.l1_4k (s.promoted base) = some (c', e) ∧
          t = resetEvicted { s with num2mbPtw := n, promotionCache := c', l1_4k := e })) := by
  simp only [promotionCacheLogic, Option.bind_eq_bind, Option.bind_eq_some_iff, word_region hb] at h
  obtain ⟨⟨hit, c⟩, hacc, h⟩ := h
  refine ⟨hit, c, hacc, ?_⟩
  split at h
  case isTrue found => exact .inl ⟨found, (Option.some.inj h).symm⟩
  case isFalse missed =>
    simp only [Option.bind_eq_some_iff] at h
    obtain ⟨⟨c', e⟩, hins, h⟩ := h
    exact .inr ⟨Bool.eq_false_of_not_eq_true missed, c', e, _, hins, (Option.some.inj h).symm⟩

/-- The address of a region is a word. -/
lemma region_address_lt {base : Nat} (hb : base < 2 ^ 43) : base * pageSize < 2 ^ 64 := by
  simp only [pageSize]
  omega

/-- The address of a region selects its page number in the promotion cache. -/
lemma pageNumber_pcc (val : s.toCore.Valid g) (base : Nat) :
    pageNumber g.logLine (s.promoted base) (base * pageSize) = s.pccPage base := by
  rw [val.geometry.logLine, pageNumber_region]
  rfl

/-- A lookup that finds the region. -/
lemma PccUpdate.of_hit {base : Nat} {c : FunctionalCache} (val : s.toCore.Valid g)
    (hb : base < 2 ^ 43)
    (hacc : s.promotionCache.access (base * pageSize) true (s.promoted base) = some (true, c)) :
    PccUpdate g base s { s with promotionCache := c } := by
  obtain ⟨v, hist, hres, same, un⟩ :=
    val.promotionCache.access val.geometry.fits (region_address_lt hb) hacc
  rw [pageNumber_pcc val] at hres
  have hits : s.promotionCache.Resident (s.pccPage base) := hres.mp rfl
  constructor
  case valid =>
    exact { val with
      promotionCache := v
      clearPcc := un val.clearPcc
      small := fun n hn => val.small n ((same n).mp hn) }
  case frame => exact ⟨rfl, rfl, rfl, rfl, rfl, rfl⟩
  case gains => exact fun n hn => .inl ((same n).mp hn)
  case reuseMap => simp [resetRegion, hits]
  case history =>
    rw [pccCalls, if_pos hits]
    exact hist

/-- A lookup that misses, and the insertion after it. -/
lemma PccUpdate.of_miss {base n : Nat} {c c' : FunctionalCache} {e : Evicted}
    (val : s.toCore.Valid g) (hb : base < 2 ^ 43)
    (hacc : s.promotionCache.access (base * pageSize) true (s.promoted base) = some (false, c))
    (hins : c.insert (base * pageSize) true s.l1_4k (s.promoted base) = some (c', e)) :
    PccUpdate g base s
      (resetEvicted { s with num2mbPtw := n, promotionCache := c', l1_4k := e }) := by
  have ha := region_address_lt hb
  obtain ⟨v, hist, hres, same, un⟩ := val.promotionCache.access val.geometry.fits ha hacc
  obtain ⟨v', hist', he, hres', un'⟩ := v.insert val.geometry.fits ha hins
  rw [pageNumber_pcc val] at hres hres' un'
  have misses : ¬ s.promotionCache.Resident (s.pccPage base) := fun r => by cases hres.mpr r
  have fresh : ¬ c.Resident (s.pccPage base) := by
    rw [same]
    exact misses
  have hreport : e = s.pccReport base := by
    rw [he, val.promotionCache.access_false_reported hacc]
    rfl
  constructor
  case valid =>
    rw [resetEvicted_toCore]
    refine { val with promotionCache := v', clearPcc := un' (un val.clearPcc) fresh, small := ?_ }
    intro n hn
    rcases (hres' n).mp hn with rfl | ⟨hn, _⟩
    · unfold pccPage
      split <;> omega
    · exact val.small n ((same n).mp hn)
  case frame =>
    apply PccFrame.trans _ (resetEvicted_frame _)
    exact ⟨rfl, rfl, rfl, rfl, rfl, rfl⟩
  case gains =>
    intro n hn
    rw [resetEvicted_toCore] at hn
    rcases (hres' n).mp hn with rfl | ⟨hn, _⟩
    · exact .inr ⟨rfl, misses⟩
    · exact .inl ((same n).mp hn)
  case reuseMap =>
    intro r
    rw [resetEvicted_reuseMap]
    subst hreport
    rw [resetRegion, if_neg misses]
    by_cases none : (s.pccReport base).evictedTag = -1
    · simp [none]
    · simp only [none, if_false, UnorderedMap.find_set, Option.some.injEq]
      simp only [eq_comm]
  case history =>
    rw [resetEvicted_toCore, pccCalls, if_neg misses]
    show c'.history = _
    rw [hist', hist, val.promotionCache.access_false_victimPage hacc]
    rfl

/-- The promotion cache logic does one update of the promotion cache, for the region. -/
lemma promotionCacheLogic_spec {base : Nat} (val : s.toCore.Valid g) (hb : base < 2 ^ 43)
    (h : s.promotionCacheLogic base = some t) : PccUpdate g base s t := by
  obtain ⟨hit, c, hacc, ⟨rfl, rfl⟩ | ⟨rfl, c', e, n, hins, rfl⟩⟩ := promotionCacheLogic_inv hb h
  · exact PccUpdate.of_hit val hb hacc
  · exact PccUpdate.of_miss val hb hacc hins

/-- The bookkeeping of reuse distances touches one entry of the reuse map. -/
lemma trackReuse_spec (alpha : Float) (now base : Nat) :
    ∃ r, s.trackReuse alpha now base = { s with reuseMap := s.reuseMap.set base r } := by
  by_cases first : (s.reuseMap.get base {}).last = 0
  · exact ⟨_, if_pos first⟩
  · exact ⟨_, if_neg first⟩

/-- What follows a miss in all TLBs: the promotion cache may gain the region, and the reuse map
    changes at the region itself and at the one whose information is reset. -/
lemma trackMiss_spec {alpha : Float} {now base : Nat} (val : s.toCore.Valid g)
    (hb : base < 2 ^ 43) (h : s.trackMiss alpha now base = some t) :
    t.toCore.Valid g ∧ PccFrame s t ∧
      (∀ n, t.promotionCache.Resident n → s.promotionCache.Resident n ∨
        (s.reuseMap.contains base = true ∧ n = s.pccPage base ∧
          ¬ s.promotionCache.Resident n)) ∧
      (∀ r, r ≠ base → t.reuseMap.find r =
        if s.reuseMap.contains base = true ∧ s.resetRegion base = some r then some {}
        else s.reuseMap.find r) ∧
      t.promotionCache.history =
        (if s.reuseMap.contains base then s.pccCalls base else []) ++ s.promotionCache.history := by
  unfold trackMiss at h
  split at h
  case isTrue known =>
    simp only [Option.bind_eq_bind, Option.bind_eq_some_iff] at h
    obtain ⟨u, hlogic, h⟩ := h
    obtain ⟨val', frame, only, reuse, hist⟩ := promotionCacheLogic_spec val hb hlogic
    obtain ⟨e, he⟩ := u.trackReuse_spec alpha now base
    rw [he] at h
    obtain rfl := Option.some.inj h
    refine ⟨{ val' with }, { frame with }, ?_, ?_, ?_⟩
    · intro n hn
      exact (only n hn).imp_right fun new => ⟨known, new⟩
    · intro r ne
      simp only [UnorderedMap.find_set, if_neg ne, reuse, known, true_and]
    · rw [if_pos known]
      exact hist
  case isFalse unknown =>
    obtain rfl := Option.some.inj h
    refine ⟨{ val with }, ⟨rfl, rfl, rfl, rfl, rfl, rfl⟩, fun n hn => .inl hn, ?_, ?_⟩
    · intro r ne
      simp [ne, unknown]
    · rw [if_neg unknown]
      rfl

/-- An access goes through the TLBs, and on if it misses in all of them. -/
lemma trackAccess_inv {alpha : Float} {now : Nat} (h : s.trackAccess alpha now a = some t) :
    ∃ miss u, s.tlbHierarchy a = some (miss, u) ∧
      (if miss then u.trackMiss alpha now (a / hugePageSize) else some u) = some t := by
  simp only [trackAccess, Option.bind_eq_bind, Option.bind_eq_some_iff] at h
  obtain ⟨⟨miss, u⟩, hh, h⟩ := h
  exact ⟨miss, u, hh, h⟩

/-- An address has 43 bits for its region. -/
lemma region_lt (a : UInt64) : a.toNat / hugePageSize < 2 ^ 43 := by
  have := a.toNat_lt
  simp only [hugePageSize]
  omega

/-- What the path of an access through the caches does; the conditions are on the state `m` in
    which it starts. -/
lemma trackAccess_spec {m : Sim} {alpha : Float} {now : Nat} {a : UInt64}
    (val : m.toCore.Valid g) (h : m.trackAccess alpha now a.toNat = some t) :
    t.toCore.Valid g ∧ t.pccPromotions = m.pccPromotions ∧
      t.totalNumAccesses = m.totalNumAccesses ∧ t.cout = m.cout ∧
      (m.Fills4k a.toNat → t.l1Tlb4k.Resident (a.toNat / pageSize)) ∧
      (∀ n, t.l1Tlb4k.Resident n → m.l1Tlb4k.Resident n ∨
        (n = a.toNat / pageSize ∧ m.Fills4k a.toNat)) ∧
      (∀ n, t.promotionCache.Resident n → m.promotionCache.Resident n ∨
        (n = m.pccPage (a.toNat / hugePageSize) ∧ m.MissesTlbs a.toNat ∧
          m.reuseMap.contains (a.toNat / hugePageSize) = true ∧
          ¬ m.promotionCache.Resident n)) := by
  obtain ⟨miss, u, hh, h⟩ := trackAccess_inv h
  obtain ⟨val₁, frame, hmiss, filled, only⟩ := tlbHierarchy_spec val a.toNat_lt hh
  split at h
  case isTrue missed =>
    obtain ⟨val₂, frame₂, gains, _⟩ := trackMiss_spec val₁ (region_lt a) h
    refine ⟨val₂, frame₂.pccPromotions.trans frame.pccPromotions,
      frame₂.totalNumAccesses.trans frame.totalNumAccesses, frame₂.cout.trans frame.cout, ?_, ?_, ?_⟩
    · rw [frame₂.l1Tlb4k]
      exact filled
    · rw [frame₂.l1Tlb4k]
      exact only
    · intro n hn
      have epage : u.pccPage (a.toNat / hugePageSize) = m.pccPage (a.toNat / hugePageSize) := by
        unfold pccPage Sim.promoted
        rw [frame.pccPromotions]
      have new := gains n hn
      rw [frame.promotionCache, frame.reuseMap, epage] at new
      rcases new with old | ⟨known, e, fresh⟩
      · exact .inl old
      · exact .inr ⟨e, hmiss.mp missed, known, fresh⟩
  case isFalse =>
    obtain rfl := Option.some.inj h
    refine ⟨val₁, frame.pccPromotions, frame.totalNumAccesses, frame.cout, filled, only, ?_⟩
    rw [frame.promotionCache]
    exact fun n hn => .inl hn

/-- Removing pages from the TLBs leaves the rest alone. -/
structure FlushFrame (s t : Sim) : Prop where
  l1Tlb2m : t.l1Tlb2m = s.l1Tlb2m
  promotionCache : t.promotionCache = s.promotionCache
  reuseMap : t.reuseMap = s.reuseMap
  pccPromotions : t.pccPromotions = s.pccPromotions
  totalNumAccesses : t.totalNumAccesses = s.totalNumAccesses
  cout : t.cout = s.cout

/-- What two flushes leave alone, both together leave alone. -/
lemma FlushFrame.trans {s t u : Sim} (h : FlushFrame s t) (h' : FlushFrame t u) :
    FlushFrame s u where
  l1Tlb2m := h'.l1Tlb2m.trans h.l1Tlb2m
  promotionCache := h'.promotionCache.trans h.promotionCache
  reuseMap := h'.reuseMap.trans h.reuseMap
  pccPromotions := h'.pccPromotions.trans h.pccPromotions
  totalNumAccesses := h'.totalNumAccesses.trans h.totalNumAccesses
  cout := h'.cout.trans h.cout

/-- Flushing a page takes its translation out of the two TLBs, and no other. -/
lemma flushPage_spec (val : s.toCore.Valid g) (ha : a < 2 ^ 64) (h : s.flushPage a = some t) :
    t.toCore.Valid g ∧ FlushFrame s t ∧
      (∀ n, t.l1Tlb4k.Resident n ↔ n ≠ a / pageSize ∧ s.l1Tlb4k.Resident n) ∧
      ∀ n, t.l2Tlb.Resident n ↔ n ≠ a / pageSize ∧ s.l2Tlb.Resident n := by
  simp only [flushPage, Option.bind_eq_bind, Option.bind_eq_some_iff] at h
  obtain ⟨⟨c, d⟩, hinv, ⟨c', d'⟩, hinv', h⟩ := h
  obtain rfl := Option.some.inj h
  obtain ⟨v, hres, _⟩ := val.l1Tlb4k.invalidate fits4k ha hinv
  obtain ⟨v', hres', un'⟩ := val.l2Tlb.invalidate fitsL2 ha hinv'
  exact ⟨{ val with l1Tlb4k := v, l2Tlb := v', clearL2 := un' val.clearL2 },
    ⟨rfl, rfl, rfl, rfl, rfl, rfl⟩, hres, hres'⟩

/-- The loop over the pages, for any list of addresses. -/
lemma flushPages_spec {as : List Nat} (val : s.toCore.Valid g) (has : ∀ a ∈ as, a < 2 ^ 64)
    (h : as.foldlM flushPage s = some t) :
    t.toCore.Valid g ∧ FlushFrame s t ∧
      (∀ n, t.l1Tlb4k.Resident n ↔ (∀ a ∈ as, n ≠ a / pageSize) ∧ s.l1Tlb4k.Resident n) ∧
      ∀ n, t.l2Tlb.Resident n ↔ (∀ a ∈ as, n ≠ a / pageSize) ∧ s.l2Tlb.Resident n := by
  induction as generalizing s with
  | nil =>
    obtain rfl := Option.some.inj h
    exact ⟨val, ⟨rfl, rfl, rfl, rfl, rfl, rfl⟩, by simp, by simp⟩
  | cons a as ih =>
    simp only [List.foldlM_cons, Option.bind_eq_bind, Option.bind_eq_some_iff] at h
    obtain ⟨u, hpage, h⟩ := h
    obtain ⟨val₁, frame₁, hres₁, hresL2₁⟩ := flushPage_spec val (has a List.mem_cons_self) hpage
    obtain ⟨val₂, frame₂, hres₂, hresL2₂⟩ :=
      ih val₁ (fun b hb => has b (List.mem_cons_of_mem _ hb)) h
    refine ⟨val₂, frame₁.trans frame₂, ?_, ?_⟩
    · intro n
      rw [hres₂, hres₁, List.forall_mem_cons]
      tauto
    · intro n
      rw [hresL2₂, hresL2₁, List.forall_mem_cons]
      tauto

/-- Every page of a region is among those that its promotion removes. -/
lemma mem_pagesOf {n base : Nat} (hn : n < 2 ^ 52) (h : n / 512 = base) :
    ∃ a ∈ pagesOf base, n = a / pageSize := by
  refine ⟨word (base * hugePageSize + n % 512 * pageSize), ?_, ?_⟩
  · apply List.mem_map.mpr
    refine ⟨n % 512, List.mem_range.mpr ?_, rfl⟩
    exact Nat.mod_lt _ (by decide)
  · simp only [word, hugePageSize, pageSize]
    omega

/-- The pages that the promotion of a region removes are its own. -/
lemma forall_pagesOf {n base : Nat} (hb : base < 2 ^ 43) (hn : n < 2 ^ 52) :
    (∀ a ∈ pagesOf base, n ≠ a / pageSize) ↔ n / 512 ≠ base := by
  constructor
  · intro none e
    obtain ⟨a, ha, e'⟩ := mem_pagesOf hn e
    exact none a ha e'
  · rintro ne a ha rfl
    obtain ⟨i, hi, rfl⟩ := List.mem_map.mp ha
    have hi : i < 512 := List.mem_range.mp hi
    apply ne
    simp only [word, hugePageSize, pageSize]
    omega

/-- The addresses of the pages of a region are words. -/
lemma pagesOf_lt {base : Nat} : ∀ a ∈ pagesOf base, a < 2 ^ 64 := by
  intro a ha
  obtain ⟨i, _, rfl⟩ := List.mem_map.mp ha
  exact word_lt _

/-- A promotion marks the region, forgets its reuse information, and removes its pages from two of the TLBs. -/
lemma promote_flushes {base : Nat} (val : s.toCore.Valid g) (h : s.promote base = some t) :
    t.toCore.Valid g ∧
      FlushFrame
        { s with pccPromotions := s.pccPromotions.set base 0, reuseMap := s.reuseMap.erase base } t ∧
      (∀ n, t.l1Tlb4k.Resident n ↔ (∀ a ∈ pagesOf base, n ≠ a / pageSize) ∧ s.l1Tlb4k.Resident n) ∧
      ∀ n, t.l2Tlb.Resident n ↔ (∀ a ∈ pagesOf base, n ≠ a / pageSize) ∧ s.l2Tlb.Resident n := by
  have val₁ : Core.Valid g { s.toCore with reuseMap := s.reuseMap.erase base } := { val with }
  unfold promote at h
  exact flushPages_spec val₁ pagesOf_lt h

/-- A promotion marks the region and leaves none of its pages in the 4KB L1 TLB. -/
lemma promote_spec {base : Nat} (val : s.toCore.Valid g) (h : s.promote base = some t) :
    t.toCore.Valid g ∧ t.pccPromotions = s.pccPromotions.set base 0 ∧
      t.promotionCache = s.promotionCache ∧ t.totalNumAccesses = s.totalNumAccesses ∧
      t.cout = s.cout ∧ (∀ n, t.l1Tlb4k.Resident n → s.l1Tlb4k.Resident n) ∧
      ∀ n, n < 2 ^ 52 → n / 512 = base → ¬ t.l1Tlb4k.Resident n := by
  obtain ⟨val', frame, hres, _⟩ := promote_flushes val h
  refine ⟨val', frame.pccPromotions, frame.promotionCache, frame.totalNumAccesses, frame.cout,
    fun n hn => ((hres n).mp hn).2, ?_⟩
  intro n hn hbase r
  obtain ⟨a, ha, e⟩ := mem_pagesOf hn hbase
  exact ((hres n).mp r).1 a ha e

/-- A promotion forgets the reuse information of the region. -/
lemma promote_reuse {base : Nat} (val : s.toCore.Valid g) (h : s.promote base = some t) :
    t.reuseMap = s.reuseMap.erase base := by
  obtain ⟨_, frame, _⟩ := promote_flushes val h
  exact frame.reuseMap

/-- Evicting a candidate leaves the reuse map alone. -/
lemma evictCandidate_reuse {base : Nat} (h : s.evictCandidate base = some t) :
    t.reuseMap = s.reuseMap := by
  simp only [evictCandidate, Option.bind_eq_bind, Option.bind_eq_some_iff] at h
  obtain ⟨_, _, h⟩ := h
  obtain rfl := Option.some.inj h
  rfl

/-- Removing a candidate from the promotion cache. -/
lemma evictCandidate_spec {base : Nat} (val : s.toCore.Valid g)
    (h : s.evictCandidate base = some t) :
    t.toCore.Valid g ∧ t.l1Tlb4k = s.l1Tlb4k ∧ t.pccPromotions = s.pccPromotions ∧
      t.totalNumAccesses = s.totalNumAccesses ∧ t.cout = s.cout ∧
      ∀ n, t.promotionCache.Resident n ↔
        n ≠ word (base * pageSize) / pageSize ∧ s.promotionCache.Resident n := by
  simp only [evictCandidate, Option.bind_eq_bind, Option.bind_eq_some_iff] at h
  obtain ⟨⟨c, d⟩, hev, h⟩ := h
  obtain rfl := Option.some.inj h
  obtain ⟨v, _, _, hres, un⟩ := val.promotionCache.evict val.geometry.fits (word_lt _) hev
  rw [val.geometry.logLine] at hres
  refine ⟨?_, rfl, rfl, rfl, rfl, hres⟩
  exact { val with
    promotionCache := v
    clearPcc := un val.clearPcc
    small := fun n hn => val.small n ((hres n).mp hn).2 }

/-- Flushing a page does not fail. -/
lemma flushPage_some (val : s.toCore.Valid g) (ha : a < 2 ^ 64) :
    ∃ t, s.flushPage a = some t := by
  obtain ⟨r, hinv⟩ := val.l1Tlb4k.invalidate_some fits4k (by decide) ha false s.l1_4k.dirtyEvict
  obtain ⟨r', hinv'⟩ := val.l2Tlb.invalidate_some fitsL2 (by decide) ha false s.l2.dirtyEvict
  simp only [flushPage, hinv, hinv', Option.bind_eq_bind, Option.bind_some]
  exact ⟨_, rfl⟩

/-- Flushing pages does not fail. -/
lemma flushPages_some {as : List Nat} (val : s.toCore.Valid g) (has : ∀ a ∈ as, a < 2 ^ 64) :
    ∃ t, as.foldlM flushPage s = some t := by
  induction as generalizing s with
  | nil => exact ⟨s, rfl⟩
  | cons a as ih =>
    obtain ⟨ha, has⟩ := List.forall_mem_cons.mp has
    obtain ⟨u, hpage⟩ := flushPage_some val ha
    obtain ⟨val₁, _⟩ := flushPage_spec val ha hpage
    obtain ⟨t, ht⟩ := ih val₁ has
    refine ⟨t, ?_⟩
    rw [List.foldlM_cons, hpage]
    exact ht

/-- A promotion does not fail. -/
lemma promote_some (val : s.toCore.Valid g) (base : Nat) : ∃ t, s.promote base = some t := by
  have val₁ : Core.Valid g { s.toCore with reuseMap := s.reuseMap.erase base } := { val with }
  exact flushPages_some val₁ pagesOf_lt

/-- The regions that the promotion cache holds can be removed from it. -/
lemma evictCandidate_some {base : Nat} (val : s.toCore.Valid g)
    (held : s.promotionCache.Resident base) : ∃ t, s.evictCandidate base = some t := by
  have page : s.promotionCache.Resident
      (pageNumber g.logLine false (word (base * pageSize))) := by
    rw [word_region (val.small base held), val.geometry.logLine, pageNumber_region]
    exact held
  obtain ⟨r, hev⟩ := val.promotionCache.evict_some val.geometry.fits (word_lt _) page
  simp only [evictCandidate, hev, Option.bind_eq_bind, Option.bind_some]
  exact ⟨_, rfl⟩

/-- `promotion_cache->getFreq(base*PAGE_SIZE)` -/
def freq (s : Sim) (base : Nat) : Option Nat :=
  s.promotionCache.getFreq (word (base * pageSize)) false

/-- The regions that a promotion cache holds have a frequency. -/
lemma freq_resident {base : Nat} (val : s.toCore.Valid g)
    (held : s.promotionCache.Resident base) : ∃ f, s.freq base = some f := by
  have small := val.small base held
  apply val.promotionCache.getFreq val.geometry.fits (word_lt _)
  rw [word_region small, val.geometry.logLine, pageNumber_region]
  exact held

/-- The state after a candidate was printed, with its frequency and whether it is promoted. -/
def afterListing (s : Sim) (base freq : Nat) (promoted : Bool) : Sim :=
  { s with
    reuseMap := s.reuseMap.subscript base {}
    cout := s.cout ++ [.candidate base (s.reuseMap.get base {}).ema
      (s.reuseMap.get base {}).numDataPts freq promoted] }

/-- Listing a region changes no cache. -/
lemma valid_afterListing (base freq : Nat) (promoted : Bool) (val : s.toCore.Valid g) :
    (s.afterListing base freq promoted).toCore.Valid g := { val with }

/-- Removing a candidate leaves the frequencies of the others alone. -/
lemma evictCandidate_freq {base b : Nat} (val : s.toCore.Valid g) (hbase : base < 2 ^ 43)
    (hb : b < 2 ^ 43) (ne : b ≠ base) (h : s.evictCandidate base = some t) :
    t.freq b = s.freq b := by
  simp only [evictCandidate, Option.bind_eq_bind, Option.bind_eq_some_iff] at h
  obtain ⟨⟨c, d⟩, hev, h⟩ := h
  obtain rfl := Option.some.inj h
  apply val.promotionCache.evict_getFreq val.geometry.fits (word_lt _) (word_lt _) hev
  rw [word_region hbase, word_region hb, val.geometry.logLine, pageNumber_region,
    pageNumber_region]
  exact ne

/-- A pass from this state promotes the region if it is a candidate. -/
def Promotes (s : Sim) (base : Nat) : Prop :=
  s.promoted base = false ∧ ∃ f, s.freq base = some f ∧ 0 < f

/-- A 4KB lookup of page number `n` hits in the 4KB L1 TLB or in the L2 TLB. -/
def Answers4k (s : Sim) (n : Nat) : Prop := s.l1Tlb4k.Resident n ∨ s.l2Tlb.Resident n

/-- After a promotion the lookups of the pages of the region miss, the others do as before. -/
lemma promote_answers {base n : Nat} (val : s.toCore.Valid g) (hb : base < 2 ^ 43)
    (hn : n < 2 ^ 52) (h : s.promote base = some t) :
    t.Answers4k n ↔ n / 512 ≠ base ∧ s.Answers4k n := by
  obtain ⟨_, _, hres, hresL2⟩ := promote_flushes val h
  unfold Answers4k
  rw [hres, hresL2, forall_pagesOf hb hn]
  exact and_or_left.symm

/-- Evicting a candidate changes no answer of the TLBs. -/
lemma evictCandidate_answers {base n : Nat} (h : s.evictCandidate base = some t) :
    t.Answers4k n ↔ s.Answers4k n := by
  simp only [evictCandidate, Option.bind_eq_bind, Option.bind_eq_some_iff] at h
  obtain ⟨_, _, h⟩ := h
  obtain rfl := Option.some.inj h
  rfl

end
end Sim

end PromotionCache.Pcc
