import PromotionCache.Dedup.Binheap
import PromotionCache.Dedup.Tree
import PromotionCache.Lib.Run

/-!
# The reorder stage

`Reorder` of `dedup/encoder.c`, for the chunks in the order in which they arrive. A chunk that is not the next one in
the sequence waits in a cache: a search tree over the first sequence numbers, with a priority queue over the second
ones in each node. `none` is where the function exits, fails an `assert`, or leaves its array.

`T`'s least node is looked up again where the source keeps it in `pos`: until the node is deleted it stays the least.
-/

namespace PromotionCache.Dedup
open Lib

/-- `sequence_t` -/
@[ext] structure Sequence where
  l1num : ℕ
  l2num : ℕ
deriving DecidableEq

/-- What the stage reads of a chunk, and what it writes of it. -/
structure SeqChunk (α : Type*) where
  sequence : Sequence
  isLastL2Chunk : Bool
  chunk : α
deriving DecidableEq

/-- `struct tree_element` -/
structure TreeElement (α : Type*) where
  l1num : ℕ
  queue : PriorityQueue (SeqChunk α)

/-- The local variables of `Reorder`, and the chunks it has written. -/
structure Reorder (α : Type*) where
  tree : SearchTree (TreeElement α)
  next : Sequence
  chunksPerAnchor : ℕ → ℕ
  chunksPerAnchorMax : ℕ
  out : List (SeqChunk α)

/-- `INITIAL_SEARCH_TREE_SIZE` -/
def initialSearchTreeSize : ℕ := 4096

/-- `sequence_lt` -/
def sequenceLt (s1 s2 : Sequence) : Prop := s1.l1num < s2.l1num ∨ s1.l1num = s2.l1num ∧ s1.l2num < s2.l2num

/-- `sequence_inc_l1` -/
def sequenceIncL1 (s : Sequence) : Sequence := ⟨s.l1num + 1, 0⟩

/-- `sequence_inc_l2` -/
def sequenceIncL2 (s : Sequence) : Sequence := ⟨s.l1num, s.l2num + 1⟩

variable {α : Type*}

/-- The second sequence number of a chunk. -/
def SeqChunk.l2num (c : SeqChunk α) : ℕ := c.sequence.l2num

namespace Reorder

/-- The state before the loop. -/
def start : Reorder α := ⟨.null, ⟨0, 0⟩, fun _ => 0, 1024, []⟩

/-- The array is made twice as long, once. -/
def grow (s : Reorder α) (l1num : ℕ) : Reorder α :=
  if l1num ≥ s.chunksPerAnchorMax then
    { s with
      chunksPerAnchor := fun i => if i < s.chunksPerAnchorMax then s.chunksPerAnchor i else 0
      chunksPerAnchorMax := 2 * s.chunksPerAnchorMax }
  else s

/-- The number of chunks of a coarse chunk is known when its last one arrives. -/
def countAnchor (s : Reorder α) (chunk : SeqChunk α) : Option (Reorder α) :=
  let l1num := chunk.sequence.l1num
  if chunk.isLastL2Chunk then
    if l1num < s.chunksPerAnchorMax ∧ s.chunksPerAnchor l1num = 0 then
      some { s with chunksPerAnchor := Function.update s.chunksPerAnchor l1num (chunk.sequence.l2num + 1) }
    else none
  else some s

/-- A chunk is put into the cache. -/
def put (s : Reorder α) (chunk : SeqChunk α) : Reorder α :=
  let l1num := chunk.sequence.l1num
  match s.tree.treeFind TreeElement.l1num l1num with
  | none =>
    let tele := ⟨l1num, (PriorityQueue.initial initialSearchTreeSize).insert SeqChunk.l2num chunk⟩
    { s with tree := s.tree.treeInsert TreeElement.l1num tele }
  | some pos =>
    { s with
      tree := s.tree.setAt TreeElement.l1num l1num ⟨pos.l1num, pos.queue.insert SeqChunk.l2num chunk⟩ }

/-- A chunk is written, and the next sequence number computed. -/
def write (s : Reorder α) (chunk : SeqChunk α) : Option (Reorder α) :=
  let next := sequenceIncL2 s.next
  if next.l1num < s.chunksPerAnchorMax then
    let count := s.chunksPerAnchor next.l1num
    let next := if count ≠ 0 ∧ next.l2num = count then sequenceIncL1 next else next
    some { s with out := s.out ++ [chunk], next }
  else none

/-- The next chunk is taken out of the cache, if it is there. -/
def takeNext (s : Reorder α) : Option (Option (SeqChunk α) × Reorder α) :=
  match s.tree.treeFindMin with
  | none => some (none, s)
  | some pos =>
    if pos.l1num = s.next.l1num then
      match pos.queue.findMin, pos.queue.deleteMin SeqChunk.l2num with
      | some chunk, some (_, queue) =>
        if chunk.sequence = s.next then
          let tree := s.tree.setAt TreeElement.l1num pos.l1num ⟨pos.l1num, queue⟩
          let tree := if queue.isEmpty then tree.treeDelete TreeElement.l1num pos.l1num else tree
          some (some chunk, { s with tree })
        else some (none, s)
      | _, _ => none
    else some (none, s)

/-- The loop that writes as many chunks as possible, with a bound on its rounds. -/
def writeLoop : ℕ → Reorder α → SeqChunk α → Option (Reorder α)
  | 0, _, _ => none
  | fuel + 1, s, chunk => do
    let s ← s.write chunk
    let (chunk, s) ← s.takeNext
    match chunk with
    | none => some s
    | some chunk => writeLoop fuel s chunk

/-- How many chunks are in the cache. -/
def cached (s : Reorder α) : ℕ := (s.tree.toList.map (·.queue.size)).sum

/-- What the loop does with a chunk. -/
def arrive (s : Reorder α) (chunk : SeqChunk α) : Option (Reorder α) := do
  let s := s.grow chunk.sequence.l1num
  let s ← s.countAnchor chunk
  if chunk.sequence ≠ s.next then some (s.put chunk)
  else writeLoop (s.cached + 1) s chunk

/-- The loop that flushes the blocks left in the cache, with a bound on its rounds. -/
def flush : ℕ → Reorder α → Option (Reorder α)
  | 0, _ => none
  | fuel + 1, s =>
    match s.tree.treeFindMin with
    | none => some s
    | some _ => do
      let (chunk, s) ← s.takeNext
      let s ← s.write (← chunk)
      flush fuel s

end Reorder

end PromotionCache.Dedup
