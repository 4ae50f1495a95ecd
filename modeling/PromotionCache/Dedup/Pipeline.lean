import PromotionCache.Dedup.Encoder
import PromotionCache.Dedup.Reorder

/-!
# The pipeline of the parallel encoder

`Deduplicate`, `Compress` and `Reorder` of `dedup/encoder.c`, with `sub_Deduplicate`, `sub_Compress` and the parallel
`write_chunk_to_file`, from the chunks that `FragmentRefine` sends on. A step is what a thread does under one lock:
looking a chunk up in the chunk cache and entering it, compressing it, passing it on, receiving it, writing it. The
threads of a stage take their chunks in any order, so that a queue between two stages, or several of them, is the
list of the chunks in it; only the queue in front of `Reorder`, whose thread may block, has a length.

`Reorder` looks for the next chunks in its own cache, which no other thread sees: it does so at once (`Reorder.arrive`)
and then writes these chunks one after the other (`pending`).
-/

namespace PromotionCache.Dedup
open Lib

/-- `chunk_state_t` -/
inductive ChunkState where
  | uncompressed
  | compressed
  | flushed
deriving DecidableEq

/-- A pointer to a `chunk_t`, with the fields that no stage of these changes. -/
abbrev Chunk := SeqChunk (List UInt8)

/-- The chunk cache, the fields of the chunks, the chunks in front of the stages and in their `send_buf`s, the local
    variables of `Reorder` with the chunks that it is about to write, and the output file; `failed` tells that an
    `assert` has, or that a thread has called `exit`. -/
structure Pipeline where
  cache : Hashtable (List UInt8) Chunk
  isDuplicate : Chunk → Bool
  state : Chunk → ChunkState
  compressedData : Chunk → List UInt8
  compressedDataRef : Chunk → Chunk
  deduplicateQue : List Chunk
  compressQue : List Chunk
  sendBuf : List Chunk
  reorderQue : List Chunk
  reorder : Reorder (List UInt8)
  pending : List Chunk
  out : List UInt8
  failed : Bool

/-- A thread of a stage goes on. -/
inductive PipelineAction where
  | deduplicate (chunk : Chunk)
  | compress (chunk : Chunk)
  | send (chunk : Chunk)
  | receive
  | write

namespace Pipeline

/-- The chunk that holds the data of a chunk. -/
def original (s : Pipeline) (chunk : Chunk) : Chunk :=
  if s.isDuplicate chunk then s.compressedDataRef chunk else chunk

/-- A thread exits. -/
def exit (s : Pipeline) : Pipeline := { s with failed := true }

section
variable (plat : Platform) (compressType : ℕ)

/-- Cache miss: the chunk is entered, and goes to `Compress`. -/
def miss (s : Pipeline) (chunk : Chunk) : Pipeline :=
  { s with
    cache := s.cache.insert hashFromKeyFn (plat.sha1 chunk.chunk) chunk
    isDuplicate := Function.update s.isDuplicate chunk false
    deduplicateQue := s.deduplicateQue.erase chunk
    compressQue := s.compressQue ++ [chunk] }

/-- Cache hit: the chunk refers to the entry, and goes to `Reorder`. -/
def hit (s : Pipeline) (chunk entry : Chunk) : Pipeline :=
  { s with
    isDuplicate := Function.update s.isDuplicate chunk true
    compressedDataRef := Function.update s.compressedDataRef chunk entry
    deduplicateQue := s.deduplicateQue.erase chunk
    sendBuf := s.sendBuf ++ [chunk] }

/-- `sub_Deduplicate`, under the lock of the chain, and where `Deduplicate` sends the chunk. -/
def deduplicate (s : Pipeline) (chunk : Chunk) : Pipeline :=
  match s.cache.search hashFromKeyFn keysEqualFn (plat.sha1 chunk.chunk) with
  | none => s.miss plat chunk
  | some entry => s.hit chunk entry

/-- The compressed data of a chunk, which goes on to `Reorder`. -/
def store (s : Pipeline) (chunk : Chunk) (data : List UInt8) : Pipeline :=
  { s with
    state := Function.update s.state chunk .compressed
    compressedData := Function.update s.compressedData chunk data
    compressQue := s.compressQue.erase chunk
    sendBuf := s.sendBuf ++ [chunk] }

/-- `sub_Compress`, and where `Compress` sends the chunk. -/
def compress (s : Pipeline) (chunk : Chunk) : Pipeline :=
  match s.state chunk, subCompress plat compressType chunk.chunk with
  | .uncompressed, some data => s.store chunk data
  | _, _ => s.exit

/-- A chunk is put into the queue in front of `Reorder`. -/
def send (s : Pipeline) (chunk : Chunk) : Pipeline :=
  { s with sendBuf := s.sendBuf.erase chunk, reorderQue := s.reorderQue ++ [chunk] }

/-- `Reorder` takes a chunk, and finds what it can write now. -/
def receive (s : Pipeline) (chunk : Chunk) (reorderQue : List Chunk) : Pipeline :=
  match s.reorder.arrive chunk with
  | none => s.exit
  | some reorder => { s with reorderQue, reorder, pending := reorder.out.drop s.reorder.out.length }

/-- The compressed data of a chunk is written. -/
def flush (s : Pipeline) (chunk : Chunk) (pending : List Chunk) : Pipeline :=
  { s with
    state := Function.update s.state chunk .flushed
    out := s.out ++ writeFile typeCompress (s.compressedData chunk)
    pending }

/-- The SHA-1 sum of a chunk is written. -/
def refer (s : Pipeline) (chunk : Chunk) (pending : List Chunk) : Pipeline :=
  { s with out := s.out ++ writeFile typeFingerprint (plat.sha1 chunk.chunk), pending }

/-- `write_chunk_to_file`, unless it has to wait. -/
def write (s : Pipeline) (chunk : Chunk) (pending : List Chunk) : Option Pipeline :=
  let chunk := s.original chunk
  match s.state chunk with
  | .uncompressed => none
  | .compressed => some (s.flush chunk pending)
  | .flushed => some (s.refer plat chunk pending)

/-- A step: the `send_buf`s hold `room` chunks together, the queue in front of `Reorder` is a ring buffer of
    `queueSize` slots. -/
def step (room queueSize : ℕ) (s : Pipeline) : PipelineAction → Option Pipeline
  | .deduplicate chunk =>
    if chunk ∈ s.deduplicateQue ∧ s.sendBuf.length < room then some (s.deduplicate plat chunk) else none
  | .compress chunk =>
    if chunk ∈ s.compressQue ∧ s.sendBuf.length < room then some (s.compress plat compressType chunk) else none
  | .send chunk =>
    if chunk ∈ s.sendBuf ∧ s.reorderQue.length + 1 < queueSize then some (s.send chunk) else none
  | .receive =>
    match s.pending, s.reorderQue with
    | [], chunk :: reorderQue => some (s.receive chunk reorderQue)
    | _, _ => none
  | .write =>
    match s.pending with
    | [] => none
    | chunk :: pending => s.write plat chunk pending

/-- The pipeline with all chunks in front of `Deduplicate`. -/
def start (cache : Hashtable (List UInt8) Chunk) (chunks : List Chunk) : Pipeline where
  cache := cache
  isDuplicate _ := false
  state _ := .uncompressed
  compressedData _ := []
  compressedDataRef chunk := chunk
  deduplicateQue := chunks
  compressQue := []
  sendBuf := []
  reorderQue := []
  reorder := .start
  pending := []
  out := writeHeader compressType
  failed := false

end

end Pipeline

end PromotionCache.Dedup
