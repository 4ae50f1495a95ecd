import PromotionCache.Dedup.Rabin
import PromotionCache.Dedup.Stream

/-!
# The serial encoder

`SerialIntegratedPipeline` of `dedup/encoder.c` with the stages that it integrates, in the build of the Makefile:
one thread, gzip, statistics. Buffers are lists of bytes: a buffer is filled from the input, cut into chunks, and
what is left of it is copied in front of the next bytes of the input.

The file is preloaded, as `main` has it; reading it piece by piece fills the same buffers.
-/

namespace PromotionCache.Dedup
open Lib

/-- `MAXBUF` -/
def maxbuf : ℕ := 128 * 1024 * 1024

/-- `stats_t`, without the two sizes that `Encode` takes from the files. -/
structure Stats where
  totalDedup : ℕ
  totalCompressed : ℕ
  nChunks : ℕ → ℕ
  nDuplicates : ℕ

/-- `CHUNK_SIZE_TO_SLOT` -/
def chunkSizeToSlot (s : ℕ) : ℕ := if s >>> 7 ≥ 8 * 32 then 8 * 32 - 1 else s >>> 7

/-- The chunk cache, the output file and the statistics. -/
structure Encoder where
  cache : Hashtable (List UInt8) (List UInt8)
  out : List UInt8
  stats : Stats

section
variable (plat : Platform) (compressType : ℕ) (tabs : Tables)

/-- `sub_Compress`: the compressed data of a chunk. -/
def subCompress (chunk : List UInt8) : Option (List UInt8) :=
  if compressType = compressNone then some chunk
  else if compressType = compressGzip then
    plat.compress (chunk.length + chunk.length >>> 9 + 12) chunk
  else none

/-- A chunk is counted, looked up, compressed where it is new, and written. -/
def archive (s : Encoder) (chunk : List UInt8) : Option Encoder :=
  let slot := chunkSizeToSlot chunk.length
  let stats := { s.stats with nChunks := Function.update s.stats.nChunks slot (s.stats.nChunks slot + 1) }
  let sha1 := plat.sha1 chunk
  match s.cache.search hashFromKeyFn keysEqualFn sha1 with
  | none => do
    let cache := s.cache.insert hashFromKeyFn sha1 chunk
    let data ← subCompress plat compressType chunk
    some ⟨cache, s.out ++ writeFile typeCompress data,
      { stats with
        totalDedup := stats.totalDedup + chunk.length
        totalCompressed := stats.totalCompressed + data.length }⟩
  | some _ =>
    some ⟨s.cache, s.out ++ writeFile typeFingerprint sha1, { stats with nDuplicates := stats.nDuplicates + 1 }⟩

/-- The loop that cuts a buffer into chunks, with a bound on its rounds, and what it leaves of the buffer. -/
def splitLoop : ℕ → Encoder → List UInt8 → Option (Encoder × List UInt8)
  | 0, _, _ => none
  | fuel + 1, s, chunk =>
    let offset := rabinseg tabs chunk (toInt32 chunk.length)
    if offset = 0 then none
    else
      let offset := (offset % 2 ^ 64).toNat
      if offset < chunk.length then do
        let s ← archive plat compressType s (chunk.take offset)
        splitLoop fuel s (chunk.drop offset)
      else some (s, chunk)

/-- `while (1)` of `SerialIntegratedPipeline`, with a bound on its rounds: `temp` is what the last round left, `input`
    what the preloading buffer still has. -/
def readLoop (maxbuf : ℕ) : ℕ → Encoder → List UInt8 → List UInt8 → Option Encoder
  | 0, _, _, _ => none
  | fuel + 1, s, temp, input =>
    let read := input.take maxbuf
    let chunk := temp ++ read
    if chunk = [] then some s
    else if read = [] then archive plat compressType s chunk
    else do
      let (s, temp) ← splitLoop plat compressType tabs chunk.length s chunk
      readLoop maxbuf fuel s temp (input.drop maxbuf)

/-- What `create_output_file` and `Encode` start with. -/
def Encoder.start (cache : Hashtable (List UInt8) (List UInt8)) : Encoder :=
  ⟨cache, writeHeader compressType, ⟨0, 0, fun _ => 0, 0⟩⟩

/-- `Encode` -/
def encode (maxbuf : ℕ) (input : List UInt8) : Option Encoder := do
  let cache ← Hashtable.create (fun _ => 0) 65536
  readLoop plat compressType (rabininit 0) maxbuf (input.length + 2) (.start compressType cache) [] input

end

end PromotionCache.Dedup
