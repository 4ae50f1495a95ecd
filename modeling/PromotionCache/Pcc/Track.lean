import PromotionCache.Tlb.Cache

/-!
# Tracking one access

What `huge_page_reuse.h` and `huge_page_reuse_mt.h` have in common: the caches of one thread, the
global variables, and the path of an access through TLBs, promotion cache and reuse map. The two
programs differ in when and how they promote; see `Pcc.Single` and `Pcc.Multi`.

The doubles of the reuse map steer no branch. The argument `print` of `pcc_track_access`, which no
caller sets, is left out, and with it the standard deviation it prints.
-/

namespace PromotionCache.Pcc
open Lib Tlb

/-- `PAGE_SIZE` -/
def pageSize : Nat := 4096

/-- The value of a 64-bit word. -/
def word (n : Nat) : Nat := n % 2 ^ 64

/-- A small number is its own word. -/
lemma word_of_lt {n : Nat} (h : n < 2 ^ 64) : word n = n := Nat.mod_eq_of_lt h

/-- The global variables that `main` sets. -/
structure Config where
  promotionCacheSize : UInt32
  factor : UInt32
  accessInterval : UInt64
  alpha : Float

/-- `FACTOR*ACCESS_INTERVAL` -/
def Config.period (cfg : Config) : Nat := word (cfg.factor.toNat * cfg.accessInterval.toNat)

/-- The period is a word. -/
lemma period_lt (cfg : Config) : cfg.period < 2 ^ 64 := Nat.mod_lt _ (by decide)

/-- The values of `common.h`: a promotion cache of 128 lines and a pass every 30 seconds. -/
def shipped : Config := ⟨128, 30, 1000000000, 0.9⟩

/-- An entry of the reuse map. -/
structure Reuse where
  last : Nat := 0
  sumSq : Float := 0
  numDataPts : Nat := 0
  ema : Float := 0

/-- What the program prints: the start of the simulation of one thread, the start of a pass, with
    the access count and the thread if there are several, and a promotion candidate. -/
inductive Output where
  | initializing (thread : Nat)
  | regions (count : Nat) (thread : Option Nat)
  | candidate (base : Nat) (reuseDist : Float) (freq cacheFreq : Nat) (demotion : Bool)

/-- The caches of one thread. -/
@[ext] structure Core where
  l1Tlb4k : FunctionalCache
  l1Tlb2m : FunctionalCache
  l2Tlb : FunctionalCache
  promotionCache : FunctionalCache
  reuseMap : UnorderedMap Nat Reuse

/-- The variables that all threads share; `l1_4k` stands for `l1_4k_dirty_evict`,
    `l1_4k_evicted_tag` and `l1_4k_evicted_offset`, the other two likewise. -/
structure Shared where
  pccPromotions : UnorderedMap Nat Nat
  l1_4k : Evicted
  l1_2m : Evicted
  l2 : Evicted
  evictedAddr : Nat
  totalNumAccesses : Nat
  num2mbPtw : Nat
  cout : List Output

/-- What one thread sees. -/
structure Sim extends Core, Shared

/-- The caches that `promotion_cache_init` builds for a thread; their sizes are `int`s, except for
    the `unsigned` size of the promotion cache. -/
def initCore (cfg : Config) : Option Core := do
  let l1Tlb4k ← FunctionalCache.new (64 * pageSize) 4 pageSize 0
  let l1Tlb2m ← FunctionalCache.new (32 * hugePageSize) 4 hugePageSize 0
  let l2Tlb ← FunctionalCache.new (1024 * pageSize) 6 pageSize 0
  let promotionCache ← FunctionalCache.new (cfg.promotionCacheSize.toNat * pageSize % 2 ^ 32)
    (Int.bmod cfg.promotionCacheSize.toNat (2 ^ 32)) pageSize 2
  some ⟨l1Tlb4k, l1Tlb2m, l2Tlb, promotionCache, .empty⟩

/-- The global variables at the start. -/
def initShared : Shared where
  pccPromotions := .empty
  l1_4k := ⟨false, -1, 0⟩
  l1_2m := ⟨false, -1, 0⟩
  l2 := ⟨false, -1, 0⟩
  evictedAddr := 0
  totalNumAccesses := 0
  num2mbPtw := 0
  cout := []

namespace Sim

/-- The region `base` is promoted. -/
def promoted (s : Sim) (base : Nat) : Bool := s.pccPromotions.contains base

/-- The insertion into the L1 TLB for 4KB pages. -/
def insertL1Tlb4k (s : Sim) (vaddr : Nat) : Option Sim := do
  let (c, e) ← s.l1Tlb4k.insert vaddr true s.l1_4k false
  some { s with l1Tlb4k := c, l1_4k := e }

/-- The insertion into the L1 TLB for 2MB pages. -/
def insertL1Tlb2m (s : Sim) (vaddr : Nat) : Option Sim := do
  let (c, e) ← s.l1Tlb2m.insert vaddr true s.l1_2m false
  some { s with l1Tlb2m := c, l1_2m := e }

/-- The insertion into the L2 TLB. -/
def insertL2Tlb (s : Sim) (vaddr : Nat) (is2m : Bool) : Option Sim := do
  let (c, e) ← s.l2Tlb.insert vaddr true s.l2 is2m
  some { s with l2Tlb := c, l2 := e }

/-- The lookups in both L1 TLBs, and whether one of them hits. -/
def lookupL1 (s : Sim) (vaddr : Nat) : Option (Bool × Sim) := do
  let (l1_4kHit, c) ← s.l1Tlb4k.access vaddr true false
  let (l1_2mHit, c') ← s.l1Tlb2m.access vaddr true false
  some (l1_4kHit || l1_2mHit, { s with l1Tlb4k := c, l1Tlb2m := c' })

/-- The lookup in the L2 TLB, for one size of pages. -/
def lookupL2 (s : Sim) (vaddr : Nat) (is2m : Bool) : Option (Bool × Sim) := do
  let (hit, c) ← s.l2Tlb.access vaddr true is2m
  some (hit, { s with l2Tlb := c })

/-- The insertions after a miss in all TLBs. -/
def fillTlbs (s : Sim) (vaddr : Nat) : Option Sim := do
  let is2m := s.promoted (vaddr / hugePageSize)
  let s ← s.insertL2Tlb vaddr is2m
  let s ← (if is2m then s.insertL1Tlb2m vaddr else s.insertL1Tlb4k vaddr)
  s.insertL1Tlb4k vaddr

/-- The TLB hierarchy logic; the result is whether the access missed in all TLBs. -/
def tlbHierarchy (s : Sim) (vaddr : Nat) : Option (Bool × Sim) := do
  let (l1Hit, s) ← s.lookupL1 vaddr
  if l1Hit then some (false, s)
  else
    let (l2Hit, s) ← s.lookupL2 vaddr false
    if l2Hit then
      let s ← s.insertL1Tlb4k vaddr
      some (false, s)
    else
      let (l2Hit, s) ← s.lookupL2 vaddr true
      if l2Hit then
        let s ← s.insertL1Tlb2m vaddr
        some (false, s)
      else
        let s ← s.fillTlbs vaddr
        some (true, s)

/-- `(l1_4k_evicted_tag*PAGE_SIZE + l1_4k_evicted_offset)/PAGE_SIZE`, with unsigned addition. -/
def evictedAddrOf (e : Evicted) : Nat :=
  ((e.evictedTag * pageSize + e.evictedOffset) % 2 ^ 64).toNat / pageSize

/-- The information about the region in `evicted_addr` is lost; the globals of the 4KB L1 TLB tell
    which one. -/
def resetEvicted (s : Sim) : Sim :=
  if s.l1_4k.evictedTag = -1 then s
  else
    let addr := evictedAddrOf s.l1_4k
    { s with evictedAddr := addr, reuseMap := s.reuseMap.set addr {} }

/-- The promotion cache logic. -/
def promotionCacheLogic (s : Sim) (base : Nat) : Option Sim := do
  let is2m := s.promoted base
  let (res, c) ← s.promotionCache.access (word (base * pageSize)) true is2m
  let s := { s with promotionCache := c }
  if res then some s
  else
    let ptw := is2m && (s.reuseMap.get base {}).last != 0
    let s := { s with num2mbPtw := if ptw then word (s.num2mbPtw + 1) else s.num2mbPtw }
    let (c, e) ← s.promotionCache.insert (word (base * pageSize)) true s.l1_4k is2m
    let s := { s with promotionCache := c, l1_4k := e }
    some s.resetEvicted

/-- The branch `TRACK_REUSE`, at access count `now`. -/
def trackReuse (s : Sim) (alpha : Float) (now base : Nat) : Sim :=
  let r := s.reuseMap.get base {}
  if r.last = 0 then { s with reuseMap := s.reuseMap.set base { r with last := now } }
  else
    let reuseDist := (UInt64.ofNat (now + (2 ^ 64 - r.last))).toFloat
    let ema := if r.ema == 0 then reuseDist else r.ema * alpha + reuseDist * (1 - alpha)
    let r' : Reuse :=
      { last := now
        sumSq := r.sumSq + Float.pow (ema - reuseDist) 2
        numDataPts := word (r.numDataPts + 1)
        ema := ema }
    { s with reuseMap := s.reuseMap.set base r' }

/-- What follows a miss in all TLBs. -/
def trackMiss (s : Sim) (alpha : Float) (now base : Nat) : Option Sim :=
  if s.reuseMap.contains base then do
    let s ← s.promotionCacheLogic base
    some (s.trackReuse alpha now base)
  else some { s with reuseMap := s.reuseMap.set base {} }

/-- `pcc_track_access` without the counter and the passes. -/
def trackAccess (s : Sim) (alpha : Float) (now vaddr : Nat) : Option Sim := do
  let (miss, s) ← s.tlbHierarchy vaddr
  if miss then s.trackMiss alpha now (vaddr / hugePageSize) else some s

/-- One iteration of the loop that removes the pages of a promoted region from the TLBs. -/
def flushPage (s : Sim) (addr : Nat) : Option Sim := do
  let (c, d) ← s.l1Tlb4k.invalidate addr false s.l1_4k.dirtyEvict
  let (c', d') ← s.l2Tlb.invalidate addr false s.l2.dirtyEvict
  some
    { s with
      l1Tlb4k := c, l1_4k := { s.l1_4k with dirtyEvict := d }
      l2Tlb := c', l2 := { s.l2 with dirtyEvict := d' } }

/-- The addresses of the pages of a region. -/
def pagesOf (base : Nat) : List Nat :=
  (List.range (hugePageSize / pageSize)).map fun i => word (base * hugePageSize + i * pageSize)

/-- The promotion of a region. -/
def promote (s : Sim) (base : Nat) : Option Sim :=
  (pagesOf base).foldlM flushPage
    { s with pccPromotions := s.pccPromotions.set base 0, reuseMap := s.reuseMap.erase base }

/-- `promotion_cache->evict(base*PAGE_SIZE, &l1_2m_dirty_evict)` -/
def evictCandidate (s : Sim) (base : Nat) : Option Sim := do
  let (c, d) ← s.promotionCache.evict (word (base * pageSize)) false
  some { s with promotionCache := c, l1_2m := { s.l1_2m with dirtyEvict := d } }

end Sim

end PromotionCache.Pcc
