import PromotionCache.Tlb.CacheSet

/-!
# Set-associative caches

The class `FunctionalCache` of `tlb.h`. Addresses are 64-bit words, given by their values. An
operation returns `none` where the program stops: a division by zero, `sets.at` out of range, or a
call on the set that stops.

One field is not in the source: `history` lists the calls a cache has seen, and no operation reads
it. It is what statements about earlier calls refer to.
-/

namespace PromotionCache.Tlb

/-- `HUGE_PAGE_SIZE` -/
def hugePageSize : Nat := 2097152

/-- `(uint64_t)1 << n`, where `wide` stands for the value of a shift out of range. -/
def shiftedOne (wide : Nat) (n : Int) : Nat := if n < 64 then 2 ^ n.toNat else wide

/-- The bits `min` to `max` of a 64-bit word, in 64-bit arithmetic. -/
def extractWith (wide : Nat) (max min : Int) (address : Nat) : Nat :=
  let maxmask := (shiftedOne wide (max + 1) + (2 ^ 64 - 1)) % 2 ^ 64
  let minmask := (shiftedOne wide min + (2 ^ 64 - 1)) % 2 ^ 64
  let mask := (maxmask + (2 ^ 64 - minmask)) % 2 ^ 64
  (address &&& mask) >>> min.toNat

/-- `extract`, with the shift of the processor: only the low six bits of the count matter. -/
def extract (max min : Int) (address : Nat) : Nat := extractWith 1 max min address

/-- A call on a cache. An insertion comes with the number of the page whose entry it evicts. -/
inductive Event where
  | accessed (address : Nat) (is2M hit : Bool)
  | inserted (address : Nat) (is2M : Bool) (victim : Option Nat)
  | evicted (address : Nat) (is2M : Bool)
  deriving DecidableEq, Repr

/-- The class `FunctionalCache`; the latest call comes first in `history`. -/
structure FunctionalCache where
  lineCount : Int
  setCount : Int
  logSetCount : Nat
  cacheLineSize : Nat
  logLineSize : Nat
  sets : List CacheSet
  history : List Event

namespace FunctionalCache

/-- The constructor; `size` is an `unsigned long`, the counts are `int`s. Without sets the
    logarithm of their number has no value, and no operation gets past `sets.at`. -/
def new (size : Nat) (assoc : Int) (lineSize evictionPolicy : Nat) : Option FunctionalCache :=
  let lineCount := Int.bmod (size / lineSize : Nat) (2 ^ 32)
  if assoc = 0 then none
  else
    let setCount := lineCount.tdiv assoc
    some
      { lineCount := lineCount
        setCount := setCount
        logSetCount := setCount.toNat.log2
        cacheLineSize := lineSize
        logLineSize := lineSize.log2
        sets := List.replicate setCount.toNat (.new assoc.toNat lineSize evictionPolicy)
        history := [] }

/-- `log_pofs` -/
def logPofs (c : FunctionalCache) (is2M : Bool) : Nat :=
  if is2M then hugePageSize.log2 else c.logLineSize

/-- The offset of an address in its page. -/
def offset (c : FunctionalCache) (is2M : Bool) (address : Nat) : Nat :=
  extract (c.logPofs is2M - 1) 0 address

/-- The number of the set of an address. -/
def setid (c : FunctionalCache) (is2M : Bool) (address : Nat) : Nat :=
  extract (c.logSetCount + c.logPofs is2M - 1) (c.logPofs is2M) address

/-- The tag of an address. -/
def tag (c : FunctionalCache) (is2M : Bool) (address : Nat) : Nat :=
  extract 63 (c.logSetCount + c.logPofs is2M) address

/-- `FunctionalCache::access` -/
def access (c : FunctionalCache) (address : Nat) (isLoad is2M : Bool) :
    Option (Bool × FunctionalCache) := do
  let setid := c.setid is2M address
  let s ← c.sets[setid]?
  let (res, s) ← s.access (c.tag is2M address) (c.offset is2M address) isLoad
  some (res,
    { c with
      sets := c.sets.set setid s
      history := .accessed address is2M res :: c.history })

/-- `insert`; `out` is what the out-parameters hold before the call. -/
def insert (c : FunctionalCache) (address : Nat) (isLoad : Bool) (out : Evicted) (is2M : Bool) :
    Option (FunctionalCache × Evicted) := do
  let setid := c.setid is2M address
  let s ← c.sets[setid]?
  let (s, e) ← s.insert (c.tag is2M address) (c.offset is2M address) isLoad
    ⟨false, -1, out.evictedOffset⟩
  let evicts := e.evictedTag ≠ -1
  let victim := if evicts then some (e.evictedTag.toNat * 2 ^ c.logSetCount + setid) else none
  some
    ({ c with
        sets := c.sets.set setid s
        history := .inserted address is2M victim :: c.history },
      { e with
        evictedTag :=
          if evicts then Int.bmod (e.evictedTag * c.setCount + setid) (2 ^ 64)
          else out.evictedTag })

/-- `evict`; the result is `*dirtyEvict`. -/
def evict (c : FunctionalCache) (address : Nat) (is2M : Bool) :
    Option (FunctionalCache × Bool) := do
  let setid := c.setid is2M address
  let s ← c.sets[setid]?
  let (s, dirty) ← s.evict (c.tag is2M address)
  some
    ({ c with
        sets := c.sets.set setid s
        history := .evicted address is2M :: c.history },
      dirty)

/-- `res = c->access(address, true, is2M); if (res) c->evict(address, &dirty, is2M);` -/
def invalidate (c : FunctionalCache) (address : Nat) (is2M dirty : Bool) :
    Option (FunctionalCache × Bool) := do
  let (res, c) ← c.access address true is2M
  if res then c.evict address is2M else some (c, dirty)

/-- The frequency of the page of an address. -/
def getFreq (c : FunctionalCache) (address : Nat) (is2M : Bool) : Option Nat := do
  let s ← c.sets[c.setid is2M address]?
  s.getFreq (c.tag is2M address)

/-- `get_entries` -/
def getEntries (c : FunctionalCache) : Option (List Nat) := do
  let tags ← c.sets.mapM CacheSet.getSet
  some tags.flatten

end FunctionalCache

end PromotionCache.Tlb
