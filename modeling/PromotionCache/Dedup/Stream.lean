import Mathlib.Data.Int.Notation
import Mathlib.Tactic.Common
import PromotionCache.Dedup.Hashtable
import PromotionCache.Lib.Bytes
import PromotionCache.Lib.Machine
import PromotionCache.Lib.Strtol

/-!
# The file of the encoder

What `dedup/util.c`, `write_file` of `encoder.c` and `read_chunk` of `decoder.c` put into the file and take out of
it again: a header, and records of a type, a length and a content. A record is read back in front of anything
(`readChunk_compress`, `readChunk_fingerprint`).

SHA-1 and zlib are parameters, with what the program relies on.
-/

namespace PromotionCache.Dedup
open Lib

/-- `SHA1_Digest`, `compress` and `uncompress`; the last two are given the room in the destination. -/
structure Platform where
  sha1 : List UInt8 → List UInt8
  sha1_length : ∀ p, (sha1 p).length = 20
  compress : ℕ → List UInt8 → Option (List UInt8)
  uncompress : ℕ → List UInt8 → Option (List UInt8)

/-- What zlib promises: its output is not empty and fits, and gives the input back where there is room for it. -/
structure Platform.Zlib (plat : Platform) : Prop where
  nonempty : ∀ {room p z}, plat.compress room p = some z → z ≠ []
  fits : ∀ {room p z}, plat.compress room p = some z → z.length ≤ room
  restores : ∀ {room room' p z}, plat.compress room p = some z → p.length ≤ room' → plat.uncompress room' z = some p

/-- `"abc"` -/
def abc : List UInt8 := [97, 98, 99]

/-- As many zero bytes as the window of the encoder has. -/
def zeros : List UInt8 := List.replicate 32 0

/-- What zlib makes of `"abc"`. -/
def abcDeflated : List UInt8 := [120, 156, 75, 76, 74, 6, 0, 2, 77, 1, 39]

/-- What zlib makes of the zero bytes. -/
def zerosDeflated : List UInt8 := [120, 156, 99, 96, 192, 15, 0, 0, 32, 0, 1]

/-- zlib, as it is for these. -/
def deflate (room : ℕ) (p : List UInt8) : Option (List UInt8) :=
  if p = abc ∧ 11 ≤ room then some abcDeflated
  else if p = zeros ∧ 11 ≤ room then some zerosDeflated
  else none

/-- Its inverse. -/
def inflate (room : ℕ) (z : List UInt8) : Option (List UInt8) :=
  if z = abcDeflated ∧ 3 ≤ room then some abc
  else if z = zerosDeflated ∧ 32 ≤ room then some zeros
  else none

/-- SHA-1 and zlib, as they are for `"abc"` and for the zero bytes. -/
def samplePlatform : Platform where
  sha1 p :=
    if p = abc then
      [169, 153, 62, 54, 71, 6, 129, 106, 186, 62, 37, 113, 120, 80, 194, 108, 156, 208, 216, 157]
    else if p = zeros then
      [222, 138, 132, 123, 255, 140, 52, 61, 105, 184, 83, 162, 21, 230, 238, 119, 94, 242, 239, 150]
    else List.replicate 20 0
  sha1_length p := by
    split
    · rfl
    · split <;> rfl
  compress := deflate
  uncompress := inflate

/-- What can be compressed. -/
lemma deflate_some {room : ℕ} {p z : List UInt8} (h : deflate room p = some z) :
    11 ≤ room ∧ (p = abc ∧ z = abcDeflated ∨ p = zeros ∧ z = zerosDeflated) := by
  unfold deflate at h
  split at h
  case isTrue fits => exact ⟨fits.2, .inl ⟨fits.1, (Option.some.inj h).symm⟩⟩
  case isFalse =>
    obtain ⟨fits, e⟩ := Option.ite_none_right_eq_some.mp h
    exact ⟨fits.2, .inr ⟨fits.1, (Option.some.inj e).symm⟩⟩

/-- `"abc"` is restored where there is room for it. -/
lemma inflate_abc {room : ℕ} (le : 3 ≤ room) : inflate room abcDeflated = some abc := if_pos ⟨rfl, le⟩

/-- So are the zero bytes. -/
lemma inflate_zeros {room : ℕ} (le : 32 ≤ room) : inflate room zerosDeflated = some zeros := by
  have other : ¬ (zerosDeflated = abcDeflated ∧ 3 ≤ room) := fun e => absurd e.1 (by decide)
  rw [inflate, if_neg other, if_pos ⟨rfl, le⟩]

/-- These functions keep the promises of zlib. -/
lemma samplePlatform_zlib : samplePlatform.Zlib where
  nonempty h := by
    obtain ⟨_, ⟨_, rfl⟩ | ⟨_, rfl⟩⟩ := deflate_some h
    · exact List.cons_ne_nil _ _
    · exact List.cons_ne_nil _ _
  fits h := by
    obtain ⟨le, ⟨_, rfl⟩ | ⟨_, rfl⟩⟩ := deflate_some h
    · exact le
    · exact le
  restores h le := by
    obtain ⟨_, ⟨rfl, rfl⟩ | ⟨rfl, rfl⟩⟩ := deflate_some h
    · exact inflate_abc le
    · exact inflate_zeros le

/-- An input of three chunks, the first two of which are the same. -/
def sampleInput : List UInt8 := zeros ++ (zeros ++ abc)

/-- `SHA1_LEN` -/
def sha1Len : ℕ := 20

/-- `CHECKBIT` -/
def checkbit : ℕ := 123456

/-- `TYPE_FINGERPRINT` -/
def typeFingerprint : UInt8 := 0

/-- `TYPE_COMPRESS` -/
def typeCompress : UInt8 := 1

/-- `COMPRESS_GZIP` -/
def compressGzip : ℕ := 0

/-- `COMPRESS_NONE` -/
def compressNone : ℕ := 2

/-- `UNCOMPRESS_BOUND` -/
def uncompressBound : ℕ := 10000000

/-- `hash_from_key_fn` -/
def hashFromKeyFn (k : List UInt8) : BitVec 32 := BitVec.ofNat 32 (ofBytes (k.take 4))

/-- `keys_equal_fn` -/
def keysEqualFn (key1 key2 : List UInt8) : Bool := key1 == key2

/-- The functions of the table agree on which keys are the same. -/
lemma keyFns : Hashtable.KeyFns hashFromKeyFn keysEqualFn where
  refl k := beq_self_eq_true k
  symm eq := beq_iff_eq.mpr (beq_iff_eq.mp eq).symm
  trans eq eq' := beq_iff_eq.mpr ((beq_iff_eq.mp eq).trans (beq_iff_eq.mp eq'))
  hash eq := congrArg _ (beq_iff_eq.mp eq)

/-- `write_header` -/
def writeHeader (compressType : ℕ) : List UInt8 := toBytes 4 checkbit ++ [UInt8.ofNat compressType]

/-- `write_file` -/
def writeFile (type : UInt8) (content : List UInt8) : List UInt8 :=
  type :: toBytes 8 content.length ++ content

/-- `xread` of `len` bytes: what it returns, the bytes, and the rest of the file. -/
def xread (file : List UInt8) (len : ℕ) : ℤ × List UInt8 × List UInt8 :=
  if file.length < len then (0, file, [])
  else (toInt32 len, file.take len, file.drop len)

/-- `read_header`, where the file is long enough to hold one. -/
def readHeader (file : List UInt8) : Option (UInt8 × List UInt8) :=
  let (_, bs, file) := xread file 4
  if bs.length < 4 ∨ ofBytes bs ≠ checkbit then none
  else
    match xread file 1 with
    | (_, [compressType], file) => some (compressType, file)
    | _ => none

/-- A record of the file. -/
inductive Record where
  | fingerprint (sha1 : List UInt8)
  | compressed (data : List UInt8)
deriving DecidableEq

/-- `read_chunk`: what it returns, the record, and the rest of the file; `none` where it exits. -/
def readChunk (file : List UInt8) : Option (ℤ × Option Record × List UInt8) :=
  match file with
  | [] => some (0, none, [])
  | type :: file =>
    let (r, bs, file) := xread file 8
    if r = 0 then none
    else
      let len := ofBytes bs
      if type = typeFingerprint then
        if len ≠ sha1Len then none
        else
          let (r, sha1, file) := xread file sha1Len
          if r = 0 then none else some (toInt32 len, some (.fingerprint sha1), file)
      else if type = typeCompress then
        if len = 0 then none
        else
          let (r, data, file) := xread file len
          if r ≤ 0 then none else some (toInt32 len, some (.compressed data), file)
      else none

variable {plat : Platform} {file content : List UInt8}

/-- What stands at the front of a file is read. -/
lemma xread_append (bs file : List UInt8) : xread (bs ++ file) bs.length = (toInt32 bs.length, bs, file) := by
  rw [xread, if_neg (by rw [List.length_append]; omega), List.take_left, List.drop_left]

/-- A header is read as it was written. -/
lemma readHeader_writeHeader (compressType : ℕ) (file : List UInt8) :
    readHeader (writeHeader compressType ++ file) = some (UInt8.ofNat compressType, file) := by
  have first : xread (writeHeader compressType ++ file) 4 =
      (toInt32 4, toBytes 4 checkbit, UInt8.ofNat compressType :: file) := by
    have h := xread_append (toBytes 4 checkbit) (UInt8.ofNat compressType :: file)
    rw [length_toBytes] at h
    rw [writeHeader, List.append_assoc]
    exact h
  have second : xread (UInt8.ofNat compressType :: file) 1 = (toInt32 1, [UInt8.ofNat compressType], file) :=
    xread_append [UInt8.ofNat compressType] file
  have value : ofBytes (toBytes 4 checkbit) = checkbit := by
    rw [ofBytes_toBytes]
    rfl
  unfold readHeader
  rw [first]
  simp only [value, length_toBytes, second]
  simp

/-- A small length is an `int`. -/
lemma toInt32_of_lt {n : ℕ} (lt : n < intBound) : toInt32 n = n := by
  unfold toInt32 intBound at *
  exact Int.bmod_eq_of_le (by omega) (by omega)

/-- A small length is read as it was written. -/
lemma length_written (short : content.length < intBound) : ofBytes (toBytes 8 content.length) = content.length := by
  rw [ofBytes_toBytes]
  unfold intBound at short
  omega

/-- A record with data is read as it was written. -/
lemma readChunk_compress (short : content.length < intBound) (nonempty : content ≠ []) (file : List UInt8) :
    readChunk (writeFile typeCompress content ++ file) = some ((content.length : ℤ), some (.compressed content), file) := by
  have positive := List.length_pos_iff.mpr nonempty
  have first := xread_append (toBytes 8 content.length) (content ++ file)
  rw [length_toBytes] at first
  have second := xread_append content file
  rw [toInt32_of_lt short] at second
  rw [writeFile, List.append_assoc, List.cons_append, readChunk]
  simp only [first, length_written short, second, toInt32_of_lt short]
  rw [if_neg (by decide), if_neg (by decide), if_pos trivial, if_neg (by omega), if_neg (by omega)]

/-- So is a record with a fingerprint. -/
lemma readChunk_fingerprint (sized : content.length = sha1Len) (file : List UInt8) :
    readChunk (writeFile typeFingerprint content ++ file) = some ((sha1Len : ℤ), some (.fingerprint content), file) := by
  have first := xread_append (toBytes 8 content.length) (content ++ file)
  rw [length_toBytes] at first
  have second := xread_append content file
  have short : content.length < intBound := by
    rw [sized]
    decide
  rw [writeFile, List.append_assoc, List.cons_append, readChunk]
  simp only [first, length_written short, ← sized, second, toInt32_of_lt short]
  rw [if_neg (by decide), if_pos trivial, if_neg (by simp), if_neg (by rw [sized]; decide)]

end PromotionCache.Dedup
