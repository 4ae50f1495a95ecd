import Mathlib.Algebra.Group.Int.Defs
import Mathlib.Algebra.Group.Nat.Defs
import PromotionCache.Lib.Links
import PromotionCache.Lib.UnorderedMap

/-!
# One set of a cache

The class `CacheSet` of `tlb.h`: a recency list of cache lines between two sentinels, a stack of
free lines and a hash map from tags to lines. The links of the lines are one memory (`links`), the
other fields of `CacheLine` another (`line`), so that an operation on pointers visibly leaves the
contents of the lines alone.

An operation returns `none` where the program stops: a failed `assert`, a null dereference. The
loops over the list carry fuel, one more than the list can have lines.
-/

namespace PromotionCache.Tlb
open Lib

/-- `MAX_FREQ` -/
def maxFreq : Nat := 255

/-- A pointer to a `CacheLine` of one set: a sentinel or an element of `entries`. -/
inductive Ptr where
  | head
  | tail
  | entry (i : Nat)
  deriving DecidableEq, Repr

/-- A `CacheLine` without its links. -/
structure CacheLine where
  addr : Nat := 0
  offset : Nat := 0
  dirty : Bool := false
  freq : Nat := 0
  deriving DecidableEq, Repr

/-- Where `insert` leaves what it evicted: `*dirtyEvict`, `*evictedAddr`, `*evictedOffset`. -/
structure Evicted where
  dirtyEvict : Bool
  evictedTag : Int
  evictedOffset : Nat
  deriving DecidableEq, Repr

/-- A 64-bit word read as an `int64_t`. -/
def int64 (n : Nat) : Int := Int.bmod n (2 ^ 64)

/-- The class `CacheSet`; the back of the vector `freeEntries` comes first. -/
structure CacheSet where
  links : Links Ptr
  line : Ptr → CacheLine
  freeEntries : List Ptr
  addrMap : UnorderedMap Nat (Option Ptr)
  associativity : Nat
  lineSize : Nat
  policy : Nat

namespace CacheSet

/-- The constructor. The fields of a new line are read only after they were written. -/
def new (size cacheLineSize evictionPolicy : Nat) : CacheSet where
  links :=
    { next := fun p => if p = .head then some .tail else none
      prev := fun p => if p = .tail then some .head else none }
  line := fun _ => {}
  freeEntries := ((List.range size).map Ptr.entry).reverse
  addrMap := .empty
  associativity := size
  lineSize := cacheLineSize
  policy := evictionPolicy

/-- `addr_map[address]`; an absent tag is bound to a null pointer. -/
def lookup (s : CacheSet) (address : Nat) : Option Ptr × CacheSet :=
  (s.addrMap.get address none, { s with addrMap := s.addrMap.subscript address none })

/-- Assignment to the fields of one line. -/
def modify (s : CacheSet) (c : Ptr) (f : CacheLine → CacheLine) : CacheSet :=
  { s with line := Function.update s.line c (f (s.line c)) }

/-- Takes a line out of the list. -/
def deleteNode (s : CacheSet) (c : Ptr) : Option CacheSet := do
  let l ← s.links.unlink c
  some { s with links := l }

/-- Insert such that MRU is first. -/
def insertFront (s : CacheSet) (c currHead : Ptr) : Option CacheSet := do
  let l ← s.links.linkAfter c currHead
  some { s with links := l }

/-- The loop of `insertHalf`: `idx` more lines, unless the list ends. -/
def halfway (s : CacheSet) : Nat → Ptr → Option Ptr
  | 0, curr => some curr
  | idx + 1, curr =>
    if curr = .tail then some curr
    else do
      let n ← s.links.next curr
      s.halfway idx n

/-- Insert such that MRU is mid-way. -/
def insertHalf (s : CacheSet) (c : Ptr) : Option CacheSet := do
  let numEntries := s.associativity - s.freeEntries.length
  let stop := if numEntries = s.associativity then s.associativity / 2 else numEntries / 2
  let first ← s.links.next .head
  let curr ← s.halfway stop first
  let l ← s.links.linkBefore c curr
  some { s with links := l }

/-- Insert in front of the first line that is used at most as often. -/
def insertLFU (s : CacheSet) (c : Ptr) : Option CacheSet := do
  let first ← s.links.next .head
  let curr ← s.links.seek (fun p => !decide ((s.line c).freq < (s.line p).freq))
    (s.associativity + 1) first
  let l ← s.links.linkBefore c curr
  some { s with links := l }

/-- The lines from `head->next` up to `tail`. -/
def recency (s : CacheSet) : Option (List Ptr) := do
  let first ← s.links.next .head
  s.links.walk .tail (s.associativity + 1) first

/-- Halves the frequencies of all lines. -/
def decayFreqs (s : CacheSet) : Option CacheSet := do
  let cs ← s.recency
  some (cs.foldl (fun s c => s.modify c fun l => { l with freq := l.freq / 2 }) s)

/-- Where a hit puts the accessed line, by policy. -/
def reinsert (s : CacheSet) (c : Ptr) : Option CacheSet :=
  if s.policy = 0 then s.insertFront c .head
  else if s.policy = 1 then
    if s.associativity / 2 ≤ (s.line c).freq then s.insertFront c .head else some s
  else if s.policy = 2 then s.insertLFU c
  else some s

/-- The writes of a hit to the accessed line; `freq` is an `unsigned short`. -/
def touch (s : CacheSet) (c : Ptr) (offset : Nat) (isLoad : Bool) : CacheSet :=
  s.modify c fun l =>
    { l with
      dirty := if isLoad then l.dirty else true
      offset := offset
      freq := (l.freq + 1) % 2 ^ 16 }

/-- `CacheSet::access` -/
def access (s : CacheSet) (address offset : Nat) (isLoad : Bool) : Option (Bool × CacheSet) :=
  match s.lookup address with
  | (some c, s) => do
    let s ← s.deleteNode c
    let s ← s.reinsert c
    let s := s.touch c offset isLoad
    let s ← if (s.line c).freq = maxFreq then s.decayFreqs else some s
    some (true, s)
  | (none, s) => some (false, s)

/-- The first half of `insert`: the line to fill, the last of the list if none is free. -/
def takeLine (s : CacheSet) (out : Evicted) : Option (Ptr × CacheSet × Evicted) :=
  match s.freeEntries with
  | [] => do
    let c ← s.links.prev .tail
    guard (c ≠ .head)
    let l := s.line c
    let s ← { s with addrMap := s.addrMap.erase l.addr }.deleteNode c
    some (c, s, ⟨l.dirty, int64 l.addr, l.offset⟩)
  | c :: free => some (c, { s with freeEntries := free }, out)

/-- The second half of `insert`. -/
def fillLine (s : CacheSet) (c : Ptr) (address offset : Nat) (isLoad : Bool) : Option CacheSet :=
  let s := { s with addrMap := s.addrMap.set address (some c) }
  let s := s.modify c fun _ => { addr := address, offset := offset, dirty := !isLoad, freq := 0 }
  if s.policy = 0 then s.insertFront c .head
  else if s.policy = 1 then s.insertHalf c
  else if s.policy = 2 then s.insertLFU c
  else some s

/-- `insert`; `out` is what the out-parameters hold before the call. -/
def insert (s : CacheSet) (address offset : Nat) (isLoad : Bool) (out : Evicted) :
    Option (CacheSet × Evicted) := do
  let s := (s.lookup address).2
  let (c, s, out) ← s.takeLine out
  let s ← s.fillLine c address offset isLoad
  some (s, out)

/-- `evict`; the result is `*dirtyEvict`. -/
def evict (s : CacheSet) (address : Nat) : Option (CacheSet × Bool) :=
  match s.lookup address with
  | (some c, s) => do
    guard (c ≠ .head)
    let l := s.line c
    let s ← { s with addrMap := s.addrMap.erase l.addr }.deleteNode c
    some ({ s with freeEntries := c :: s.freeEntries }, l.dirty)
  | (none, _) => none

/-- `get_freq`; it asserts that the tag is there. -/
def getFreq (s : CacheSet) (address : Nat) : Option Nat := do
  let c ← (← s.addrMap.find address)
  guard (c ≠ .head)
  some (s.line c).freq

/-- The loop of `flush`. -/
def flushFrom (s : CacheSet) : Nat → Ptr → Option CacheSet
  | 0, _ => none
  | fuel + 1, c =>
    if c = .tail then some s
    else do
      let s := { s with
        addrMap := s.addrMap.erase (s.line c).addr
        freeEntries := c :: s.freeEntries }
      let n ← s.links.next c
      let p ← s.links.prev n
      let s ← s.deleteNode p
      s.flushFrom fuel n

/-- Takes all lines out of the list. -/
def flush (s : CacheSet) : Option CacheSet := do
  let first ← s.links.next .head
  s.flushFrom (s.associativity + 1) first

/-- The tags that `get_set` appends. -/
def getSet (s : CacheSet) : Option (List Nat) := do
  let cs ← s.recency
  some (cs.map fun c => (s.line c).addr)

end CacheSet

end PromotionCache.Tlb
