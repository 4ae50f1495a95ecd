import PromotionCache.Pcc.Track
import PromotionCache.Lib.Double
import PromotionCache.Lib.Run
import Mathlib.Data.Fintype.Card
import Mathlib.Data.List.AList
import Mathlib.Data.Rat.Defs

/-!
# HawkEye

`hawkeye.h`: regions are sampled for one `ACCESS_INTERVAL`, sorted into buckets by a moving average of
how many of their pages were touched, and promoted from the top bucket down.

The averages are rational numbers, and the result of every operation on them is rounded: with `doubles` they are those
of the program, with `exactly` those of exact arithmetic with `ALPHA = 9/10`. An operation returns `none` where the
program leaves the array of the buckets, divides by zero, or reads past the end of a bucket and does not survive that.
-/

namespace PromotionCache.Hawkeye
open Lib Tlb Pcc

/-- `NUM_BUCKETS` -/
def numBuckets : Nat := 10

/-- `BUCKET_SIZE` -/
def bucketSize : Nat := 50

/-- `NUM_BASE_PAGES` -/
def numBasePages : Nat := 512

/-- `MAX_NUM_PROMOTIONS` -/
def maxNumPromotions : Nat := 8

/-- `ALPHA`, before it is rounded. -/
def alpha : ℚ := 9 / 10

/-- How the results of the operations on averages are rounded. Averages are numbers up to 512 that are kept by it; the
    mean of the largest ones is no larger, and their quotients have the integer parts that they have without rounding. -/
structure Arithmetic where
  rnd : ℚ → ℚ
  mono : ∀ x y, 0 ≤ x → x ≤ y → rnd x ≤ rnd y
  idem : ∀ x, 0 ≤ x → rnd (rnd x) = rnd x
  natCast : ∀ n : ℕ, n ≤ numBasePages → rnd n = n
  full : rnd (rnd (rnd alpha * numBasePages) + rnd (rnd (1 - rnd alpha) * numBasePages)) = numBasePages
  floor : ∀ x : ℚ, 0 ≤ x → x ≤ numBasePages → rnd x = x → ⌊rnd (x / bucketSize)⌋ = ⌊x / bucketSize⌋

/-- Exact arithmetic. -/
def exactly : Arithmetic where
  rnd := id
  mono _ _ _ le := le
  idem _ _ := rfl
  natCast _ _ := rfl
  full := by norm_num [alpha, numBasePages]
  floor _ _ _ _ := rfl

/-- The arithmetic of `double`. -/
def doubles : Arithmetic where
  rnd := double
  mono _ _ := double_mono
  idem _ := double_double
  natCast n le := double_natCast (by unfold numBasePages at le; omega)
  full := by decide +kernel
  floor x nonneg le kept := by
    refine floor_flFrom_div (by decide) (by decide) nonneg kept (Nat.zero_lt_succ 49) ?_
    -- the integer parts are at most 10
    have part : ⌊x / bucketSize⌋₊ < 11 := by
      rw [Nat.floor_lt (div_nonneg nonneg (by norm_num [bucketSize]))]
      norm_num [bucketSize, numBasePages] at le ⊢
      linarith
    unfold bucketSize at part ⊢
    omega

/-- What the program prints. -/
inductive Line where
  | regions (count : Nat)
  | newBucketNegative
  | candidate (base : Nat) (ema : ℚ) (bucket : Int)
  | promotedAllData

/-- The global variables; a `bitset` is the set of its bits, a `double` the number that it stands for. -/
structure State where
  tracking : Bool
  coverage : AList fun _ : Nat => Finset (Fin numBasePages)
  ema : UnorderedMap Nat ℚ
  buckets : Fin numBuckets → List Nat
  hawkeyePromotions : UnorderedMap Nat Nat
  currNumAccesses : Nat
  totalNumAccesses : Nat
  cout : List Line

/-- What the source leaves open: how numbers are rounded, the order in which a loop visits the keys of an unordered map,
    and what comes out of a read past the end of a bucket, if the program survives it. -/
structure Platform extends Arithmetic where
  order : List Nat → List Nat
  perm : ∀ keys, (order keys).Perm keys
  past : State → Int → Nat → Option UInt64

/-- The global variables at the start. -/
def init : State where
  tracking := true
  coverage := ∅
  ema := .empty
  buckets := fun _ => []
  hawkeyePromotions := .empty
  currNumAccesses := 0
  totalNumAccesses := 0
  cout := []

namespace State

/-- `coverage[base]` -/
def pages (s : State) (base : Nat) : Finset (Fin numBasePages) := (s.coverage.lookup base).getD ∅

/-- `clear_coverage` -/
def clearCoverage (p : Platform) (s : State) : State :=
  { s with
    coverage := (p.order s.coverage.keys).foldl (fun c base => c.insert base ∅) s.coverage }

end State

/-- The index of one of the `buckets`. -/
def index (i : Int) : Option (Fin numBuckets) :=
  if h : 0 ≤ i ∧ i < numBuckets then some ⟨i.toNat, by omega⟩ else none

/-- `(int) x` -/
def toInt (x : ℚ) : Int := x.num.tdiv x.den

/-- `(int) (ema/BUCKET_SIZE)` -/
def bucketOf (p : Platform) (ema : ℚ) : Int := toInt (p.rnd (ema / bucketSize))

/-- `change_bucket` -/
def changeBucket (s : State) (base : Nat) (oldBucket newBucket : Int) : Option State := do
  let s := if newBucket < 0 then { s with cout := s.cout ++ [.newBucketNegative] } else s
  let newBucket := if newBucket < 0 then 0 else newBucket
  let newBucket := if newBucket > numBuckets - 1 then (numBuckets : Int) - 1 else newBucket
  let old ← index oldBucket
  let new ← index newBucket
  let buckets := Function.update s.buckets old ((s.buckets old).erase base)
  some { s with buckets := Function.update buckets new (buckets new ++ [base]) }

/-- `ALPHA*ema[base] + (1-ALPHA)*acc_cov` -/
def mean (p : Platform) (ema : ℚ) (accCov : ℕ) : ℚ :=
  p.rnd (p.rnd (p.rnd alpha * ema) + p.rnd (p.rnd (1 - p.rnd alpha) * accCov))

/-- `acc_ema` -/
def accEma (p : Platform) (s : State) (base : Nat) : ℚ :=
  if s.ema.contains base then mean p (s.ema.get base 0) (s.pages base).card
  else (s.pages base).card

/-- An iteration of the first loop of `summarize`. -/
def updateRegion (p : Platform) (s : State) (base : Nat) : Option State :=
  let accEma := accEma p s base
  let s := { s with ema := s.ema.subscript base 0 }
  let oldBucket := bucketOf p (s.ema.get base 0)
  let s := { s with ema := s.ema.set base accEma }
  let newBucket := bucketOf p (s.ema.get base 0)
  changeBucket s base oldBucket newBucket

/-- The first loop of `summarize`. -/
def updateRegions (p : Platform) (s : State) : Option State :=
  run (updateRegion p) s (p.order s.coverage.keys)

/-- The variables of the second loop of `summarize`. -/
structure Scan where
  sim : State
  bucketIdx : Int
  idx : Nat
  numPromotions : Nat

/-- `buckets[bucket_idx][idx]` -/
def readBucket (p : Platform) (s : State) (bucketIdx : Int) (idx : Nat) : Option Nat := do
  let b ← index bucketIdx
  match (s.buckets b)[idx]? with
  | some base => some base
  | none => (p.past s bucketIdx idx).map UInt64.toNat

/-- The inner loop from bucket `b` on; the new value of `idx` comes with that of `bucket_idx`. -/
def skipFrom (s : State) : Nat → Nat → Option (Int × Nat)
  | 0, idx => do
    let b ← index 0
    some (if (s.buckets b).length ≤ idx then (-1, 0) else (0, idx))
  | n + 1, idx => do
    let b ← index (n + 1 : Nat)
    if (s.buckets b).length ≤ idx then skipFrom s n 0 else some ((n + 1 : Nat), idx)

/-- The inner loop of the scan. -/
def skip (s : State) (bucketIdx : Int) (idx : Nat) : Option (Int × Nat) :=
  match bucketIdx with
  | .ofNat n => skipFrom s n idx
  | .negSucc n => some (.negSucc n, idx)

/-- The candidate `base` is printed and promoted. -/
def State.promote (s : State) (base : Nat) (bucketIdx : Int) : State :=
  { s with
    ema := s.ema.subscript base 0
    cout := s.cout ++ [.candidate base (s.ema.get base 0) bucketIdx]
    hawkeyePromotions :=
      if s.hawkeyePromotions.contains base then
        s.hawkeyePromotions.set base ((s.hawkeyePromotions.get base 0 + 1) % 2 ^ 16)
      else s.hawkeyePromotions.set base 0 }

/-- An iteration of the second loop of `summarize`; on the left, the loop ends. -/
def scanStep (p : Platform) (c : Scan) : Option (State ⊕ Scan) := do
  let base ← readBucket p c.sim c.bucketIdx c.idx
  let repeatPromotion := c.sim.hawkeyePromotions.contains base
  let s := c.sim.promote base c.bucketIdx
  let (bucketIdx, idx) ← skip s c.bucketIdx (c.idx + 1)
  if bucketIdx < 0 then some (.inl { s with cout := s.cout ++ [.promotedAllData] })
  else
    some (.inr
      { sim := s
        bucketIdx := bucketIdx
        idx := idx
        numPromotions := if repeatPromotion then c.numPromotions else c.numPromotions + 1 })

/-- The second loop of `summarize`, for at most `fuel` iterations. -/
def scanLoop (p : Platform) : Nat → Scan → Option State
  | 0, _ => none
  | fuel + 1, c =>
    if c.numPromotions < maxNumPromotions then do
      match ← scanStep p c with
      | .inl s => some s
      | .inr c => scanLoop p fuel c
    else some c.sim

/-- The second loop starts. -/
def scanStart (s : State) : Scan := ⟨s, numBuckets - 1, 0, 0⟩

/-- The number of entries from position `idx` of bucket `b` on, in the order of the scan. -/
def State.entriesFrom (s : State) : Nat → Nat → Nat
  | 0, idx => ((index 0).elim 0 fun b => (s.buckets b).length) - idx
  | n + 1, idx =>
    ((index (n + 1 : Nat)).elim 0 fun b => (s.buckets b).length) - idx + s.entriesFrom n 0

/-- The second loop of `summarize`. It visits no entry twice, so that this many iterations are enough
    (`scan_total`). -/
def scan (p : Platform) (s : State) : Option State :=
  scanLoop p (s.entriesFrom (numBuckets - 1) 0 + 2) (scanStart s)

/-- `summarize` -/
def summarize (p : Platform) (s : State) : Option State := do
  let s := { s with cout := s.cout ++ [.regions s.totalNumAccesses] }
  let s ← updateRegions p s
  scan p s

/-- The page of an access within its region. -/
def offset (vaddr : Nat) : Fin numBasePages :=
  ⟨vaddr / pageSize - vaddr / hugePageSize * (hugePageSize / pageSize), by
    simp only [pageSize, hugePageSize, numBasePages]
    omega⟩

/-- The counters of an access. -/
def State.count (s : State) : State :=
  { s with
    currNumAccesses := word (s.currNumAccesses + 1)
    totalNumAccesses := word (s.totalNumAccesses + 1) }

/-- The access in `coverage`. -/
def State.cover (s : State) (vaddr : Nat) : State :=
  let base := vaddr / hugePageSize
  let s := if base ∈ s.coverage then s else { s with coverage := s.coverage.insert base ∅ }
  { s with coverage := s.coverage.insert base (insert (offset vaddr) (s.pages base)) }

/-- `hawkeye_track_access` -/
def hawkeyeTrackAccess (p : Platform) (cfg : Config) (s : State) (vaddr : UInt64) : Option State :=
  let s := s.count
  if !s.tracking then
    if cfg.period = 0 then none
    else if s.currNumAccesses % cfg.period = 0 then
      some { s with tracking := true, currNumAccesses := 0 }
    else some s
  else
    let s := s.cover vaddr.toNat
    if cfg.accessInterval.toNat = 0 then none
    else if s.currNumAccesses % cfg.accessInterval.toNat = 0 then do
      let s ← summarize p s
      some { s.clearCoverage p with tracking := false, currNumAccesses := 0 }
    else some s

/-- The state after a trace. -/
def simulate (p : Platform) (cfg : Config) (trace : List UInt64) : Option State :=
  run (hawkeyeTrackAccess p cfg) init trace

end PromotionCache.Hawkeye
