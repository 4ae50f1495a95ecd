import PromotionCache.Pcc.Track
import PromotionCache.Lib.Run

/-!
# The multithread simulator

`huge_page_reuse_mt.h`: every thread has its own caches, reuse map and access counter; the
promotions, the globals of the caches and the total count are shared. A trace is the list of the
accesses, each with its thread, in the order in which the calls of `pcc_track_access` take effect.
-/

namespace PromotionCache.Pcc.Multi
open Lib Tlb

/-- The variables of one thread. -/
structure Thread extends Core where
  numAccesses : Nat

/-- The variables of the simulator; thread `tid` owns the `tid`-th entry. -/
structure Mt extends Shared where
  threads : List Thread

/-- One iteration of `promotion_cache_init`. -/
def initThread (cfg : Config) (s : Mt) (t : Nat) : Option Mt := do
  let core ← initCore cfg
  some
    { s with
      cout := s.cout ++ [.initializing t]
      threads := s.threads ++ [{ toCore := core, numAccesses := 0 }] }

/-- `promotion_cache_init` -/
def promotionCacheInit (cfg : Config) (numThreads : Nat) : Option Mt :=
  (List.range numThreads).foldlM (initThread cfg) { toShared := initShared, threads := [] }

/-- Code of thread `tid`, on its access count, its caches and the shared variables. -/
def onThread (s : Mt) (tid : Nat) (f : Nat → Sim → Option Sim) : Option Mt := do
  let th ← s.threads[tid]?
  let u ← f th.numAccesses { toCore := th.toCore, toShared := s.toShared }
  some
    { toShared := u.toShared
      threads := s.threads.set tid { th with toCore := u.toCore } }

/-- `atomic_fetch_add(&pcc_promotions[base], 1)` -/
def fetchAdd (s : Sim) (base : Nat) : Sim :=
  { s with pccPromotions := s.pccPromotions.set base (word (s.pccPromotions.get base 0 + 1)) }

/-- One iteration of a pass. -/
def summarizeEntry (s : Sim) (base : Nat) : Option Sim := do
  let r := s.reuseMap.get base {}
  let cacheFreq ← s.promotionCache.getFreq (word (base * pageSize)) false
  let s := { s with
    reuseMap := s.reuseMap.subscript base {}
    cout := s.cout ++ [.candidate base r.ema r.numDataPts cacheFreq false] }
  if !s.promoted base && 0 < cacheFreq then do
    let s ← s.promote base
    s.evictCandidate base
  else some (fetchAdd s base)

/-- `summarize_promotions` -/
def summarizePromotions (s : Mt) (tid : Nat) : Option Mt :=
  onThread s tid fun numAccesses s => do
    let addresses ← s.promotionCache.getEntries
    addresses.foldlM summarizeEntry
      { s with cout := s.cout ++ [.regions numAccesses (some tid)] }

/-- The counters after an access of thread `tid`; its own is an `unsigned int`. -/
def counted (s : Mt) (tid : Nat) : Mt :=
  { s with
    totalNumAccesses := word (s.totalNumAccesses + 1)
    threads := s.threads.modify tid fun th =>
      { th with numAccesses := (th.numAccesses + 1) % 2 ^ 32 } }

/-- Whether `pcc_track_access` runs a pass at an access count of the thread. -/
def passDue (cfg : Config) (count : Nat) : Bool := count % cfg.period = cfg.accessInterval.toNat

/-- The counters and the pass of `pcc_track_access`; a modulus of zero stops the program. -/
def countAccess (cfg : Config) (s : Mt) (tid : Nat) : Option Mt := do
  let s := counted s tid
  let th ← s.threads[tid]?
  if cfg.period = 0 then none
  else if passDue cfg th.numAccesses then summarizePromotions s tid
  else some s

/-- `pcc_track_access`, by address and thread -/
def pccTrackAccess (cfg : Config) (s : Mt) (access : UInt64 × Nat) : Option Mt := do
  let (vaddr, tid) := access
  let s ← countAccess cfg s tid
  onThread s tid fun numAccesses s => s.trackAccess cfg.alpha numAccesses vaddr.toNat

/-- The state after a trace of `numThreads` threads. -/
def simulate (cfg : Config) (numThreads : Nat) (trace : List (UInt64 × Nat)) : Option Mt := do
  let s ← promotionCacheInit cfg numThreads
  run (pccTrackAccess cfg) s trace

end PromotionCache.Pcc.Multi
