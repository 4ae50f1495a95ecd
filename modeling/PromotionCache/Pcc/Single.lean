import PromotionCache.Pcc.Track
import PromotionCache.Lib.Run

/-!
# The single-thread simulator

`huge_page_reuse.h`: the promotion passes and `pcc_track_access`. A trace is the list of the
addresses that the program under simulation accesses.
-/

namespace PromotionCache.Pcc.Single
open Lib Tlb

/-- The initial state, with the counters as `common.h` initializes them. -/
def promotionCacheInit (cfg : Config) : Option Sim := do
  let core ← initCore cfg
  some { toCore := core, toShared := initShared }

/-- The demotion of a region, the `i`-th candidate of its pass. -/
def demote (s : Sim) (base i : Nat) : Option Sim := do
  let addr := word (base * hugePageSize + i * pageSize)
  let (c, d) ← s.l1Tlb2m.invalidate addr true s.l1_2m.dirtyEvict
  let (c', d') ← s.l2Tlb.invalidate addr true s.l2.dirtyEvict
  some
    { s with
      pccPromotions := s.pccPromotions.erase base
      l1Tlb2m := c, l1_2m := { s.l1_2m with dirtyEvict := d }
      l2Tlb := c', l2 := { s.l2 with dirtyEvict := d' } }

/-- The `i`-th iteration of a pass. -/
def summarizeEntry (s : Sim) (i base : Nat) : Option Sim := do
  let r := s.reuseMap.get base {}
  let cacheFreq ← s.promotionCache.getFreq (word (base * pageSize)) false
  let s := { s with
    reuseMap := s.reuseMap.subscript base {}
    cout := s.cout ++ [.candidate base r.ema r.numDataPts cacheFreq (s.promoted base)] }
  let s ← (if s.promoted base then demote s base i
    else if 0 < cacheFreq then s.promote base
    else some s)
  s.evictCandidate base

/-- The loop of a pass, from its `i`-th iteration on. -/
def summarizeFrom (s : Sim) (i : Nat) : List Nat → Option Sim
  | [] => some s
  | base :: addresses => do
    let s ← summarizeEntry s i base
    summarizeFrom s (i + 1) addresses

/-- `summarize_promotions` -/
def summarizePromotions (s : Sim) : Option Sim := do
  let addresses ← s.promotionCache.getEntries
  let s := { s with cout := s.cout ++ [.regions s.totalNumAccesses none] }
  summarizeFrom s 0 addresses

/-- Whether `pcc_track_access` runs a pass at an access count. -/
def passDue (cfg : Config) (count : Nat) : Bool :=
  (1 < cfg.factor.toNat && count % cfg.period = cfg.accessInterval.toNat) ||
    count % cfg.period = 0

/-- The counter and the pass of `pcc_track_access`; a modulus of zero stops the program. -/
def countAccess (cfg : Config) (s : Sim) : Option Sim :=
  let s := { s with totalNumAccesses := word (s.totalNumAccesses + 1) }
  if cfg.period = 0 then none
  else if passDue cfg s.totalNumAccesses then summarizePromotions s
  else some s

/-- `pcc_track_access` -/
def pccTrackAccess (cfg : Config) (s : Sim) (vaddr : UInt64) : Option Sim := do
  let s ← countAccess cfg s
  s.trackAccess cfg.alpha s.totalNumAccesses vaddr.toNat

/-- The state after a trace. -/
def simulate (cfg : Config) (trace : List UInt64) : Option Sim := do
  let s ← promotionCacheInit cfg
  run (pccTrackAccess cfg) s trace

end PromotionCache.Pcc.Single
