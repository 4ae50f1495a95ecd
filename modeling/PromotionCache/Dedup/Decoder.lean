import PromotionCache.Dedup.Segments

/-!
# The decoder, and what it makes of the encoder's file

`Decode` of `dedup/decoder.c`. It keeps the chunks of the records with data in a table like the encoder's, so that
after every record the two tables are the same (`decodeLoop_archived`); a fingerprint then stands for the first
chunk that has it (`firstWith`). What comes out is what went in if no two chunks share their SHA-1 sum
(`decode_encode`).
-/

namespace PromotionCache.Dedup
open Lib

/-- The chunk cache and the output file. -/
structure Decoder where
  cache : Hashtable (List UInt8) (List UInt8)
  out : List UInt8

section
variable (plat : Platform)

/-- `uncompress_chunk`: the data of a chunk. -/
def uncompressChunk (compressType : ℕ) (data : List UInt8) : Option (List UInt8) :=
  if compressType = compressNone then some data
  else if compressType = compressGzip then plat.uncompress uncompressBound data
  else none

/-- What `Decode` does with a record. -/
def extract (compressType : ℕ) (s : Decoder) : Record → Option Decoder
  | .compressed data => do
    let chunk ← uncompressChunk plat compressType data
    if toInt32 chunk.length ≤ 0 then none
    else some ⟨s.cache.insert hashFromKeyFn (plat.sha1 chunk) chunk, s.out ++ chunk⟩
  | .fingerprint sha1 => do
    let chunk ← s.cache.search hashFromKeyFn keysEqualFn sha1
    some ⟨s.cache, s.out ++ chunk⟩

/-- `while (TRUE)` of `Decode`, with a bound on its rounds. -/
def decodeLoop (compressType : ℕ) : ℕ → Decoder → List UInt8 → Option Decoder
  | 0, _, _ => none
  | fuel + 1, s, file =>
    match readChunk file with
    | none => none
    | some (r, record, file) =>
      if r < 0 then none
      else if r = 0 then some s
      else
        match record with
        | none => none
        | some record => (extract plat compressType s record).bind (decodeLoop compressType fuel · file)

/-- `Decode` -/
def decode (file : List UInt8) : Option (List UInt8) := do
  let cache ← Hashtable.create (fun _ => 0) 65536
  let (compressType, records) ← readHeader file
  let s ← decodeLoop plat compressType.toNat (file.length + 1) ⟨cache, []⟩ records
  some s.out

end

/-- The first of some chunks that has the SHA-1 sum of a chunk. -/
def firstWith (plat : Platform) (chunks : List (List UInt8)) (chunk : List UInt8) : List UInt8 :=
  (chunks.find? (plat.sha1 · == plat.sha1 chunk)).getD chunk

/-- What the encoder makes of a chunk can be read back. -/
def Restores (plat : Platform) (compressType : ℕ) (chunk : List UInt8) : Prop :=
  chunk ≠ [] ∧ chunk.length < intBound ∧
    ∀ data, subCompress plat compressType chunk = some data →
      data ≠ [] ∧ data.length < intBound ∧ uncompressChunk plat compressType data = some chunk

/-- A cache after some chunks: for every SHA-1 sum, the first chunk that has it. -/
def Caches (plat : Platform) (cache : Hashtable (List UInt8) (List UInt8)) (done : List (List UInt8)) : Prop :=
  ∃ log, cache.Represents hashFromKeyFn keysEqualFn log ∧
    ∀ c, Hashtable.lookup keysEqualFn log (plat.sha1 c) = done.find? (plat.sha1 · == plat.sha1 c)

variable {plat : Platform} {compressType : ℕ} {s t : Encoder} {chunk : List UInt8} {done chunks : List (List UInt8)}
  {cache : Hashtable (List UInt8) (List UInt8)}

/-- A search gives the first chunk with the sum. -/
lemma Caches.search (h : Caches plat cache done) (c : List UInt8) :
    cache.search hashFromKeyFn keysEqualFn (plat.sha1 c) = done.find? (plat.sha1 · == plat.sha1 c) := by
  obtain ⟨log, rep, eq⟩ := h
  rw [rep.search keyFns, eq]

/-- A chunk with a new sum enters the cache. -/
lemma Caches.miss (h : Caches plat cache done)
    (missed : cache.search hashFromKeyFn keysEqualFn (plat.sha1 chunk) = none) :
    Caches plat (cache.insert hashFromKeyFn (plat.sha1 chunk) chunk) (done ++ [chunk]) := by
  rw [h.search] at missed
  obtain ⟨log, rep, eq⟩ := h
  have fresh : ∀ q ∈ log, keysEqualFn (plat.sha1 chunk) q.1 = false := by
    intro q mem
    by_contra same
    have found := Hashtable.lookup_of_mem keyFns rep.distinct mem (eq_true_of_ne_false same)
    rw [eq, missed] at found
    cases found
  refine ⟨_, rep.insert fresh, fun c => ?_⟩
  rw [List.find?_append, ← eq c]
  unfold Hashtable.lookup
  by_cases same : plat.sha1 c = plat.sha1 chunk
  · have absent := missed
    rw [← same, ← eq c] at absent
    unfold Hashtable.lookup at absent
    rw [absent, List.find?_cons_of_pos (p := fun p : List UInt8 × List UInt8 => keysEqualFn (plat.sha1 c) p.1)
      (beq_iff_eq.mpr same), Option.none_or,
      List.find?_cons_of_pos (p := fun d : List UInt8 => plat.sha1 d == plat.sha1 c) (beq_iff_eq.mpr same.symm)]
    rfl
  · rw [List.find?_cons_of_neg (p := fun p : List UInt8 × List UInt8 => keysEqualFn (plat.sha1 c) p.1)
      (a := (plat.sha1 chunk, chunk)) (fun e => same (eq_of_beq e)),
      List.find?_cons_of_neg (p := fun d : List UInt8 => plat.sha1 d == plat.sha1 c)
      (fun e => same (beq_iff_eq.mp e).symm), List.find?_nil, Option.or_none]

/-- A chunk with a known sum does not change the cache. -/
lemma Caches.hit (h : Caches plat cache done)
    (found : cache.search hashFromKeyFn keysEqualFn (plat.sha1 chunk) ≠ none) : Caches plat cache (done ++ [chunk]) := by
  rw [h.search] at found
  obtain ⟨log, rep, eq⟩ := h
  refine ⟨log, rep, fun c => ?_⟩
  rw [eq, List.find?_append]
  by_cases same : plat.sha1 c = plat.sha1 chunk
  · rw [same]
    cases first : done.find? (plat.sha1 · == plat.sha1 chunk) with
    | none => exact absurd first found
    | some d => rfl
  · rw [List.find?_cons_of_neg (p := fun d : List UInt8 => plat.sha1 d == plat.sha1 c)
      (fun e => same (beq_iff_eq.mp e).symm), List.find?_nil, Option.or_none]

/-- A chunk that has been seen keeps its first one. -/
lemma firstWith_append (mem : chunk ∈ done) (chunks : List (List UInt8)) :
    firstWith plat (done ++ chunks) chunk = firstWith plat done chunk := by
  unfold firstWith
  rw [List.find?_append]
  cases first : done.find? (plat.sha1 · == plat.sha1 chunk) with
  | none =>
    rw [List.find?_eq_none] at first
    exact absurd (beq_self_eq_true _) (first chunk mem)
  | some d => rfl

/-- The length of a chunk is positive as an `int`. -/
lemma toInt32_length (nonempty : chunk ≠ []) (short : chunk.length < intBound) : ¬ toInt32 chunk.length ≤ 0 := by
  rw [toInt32_of_lt short]
  have := List.length_pos_iff.mpr nonempty
  omega

/-- A record with data gives its chunk. -/
lemma extract_compressed {data : List UInt8} (positive : ¬ toInt32 chunk.length ≤ 0)
    (restored : uncompressChunk plat compressType data = some chunk) (d : Decoder) :
    extract plat compressType d (.compressed data) =
      some ⟨d.cache.insert hashFromKeyFn (plat.sha1 chunk) chunk, d.out ++ chunk⟩ := by
  have unfolded : extract plat compressType d (.compressed data) =
      (uncompressChunk plat compressType data).bind fun chunk =>
        if toInt32 chunk.length ≤ 0 then none
        else some ⟨d.cache.insert hashFromKeyFn (plat.sha1 chunk) chunk, d.out ++ chunk⟩ := rfl
  rw [unfolded, restored, Option.bind_some, if_neg positive]

/-- What the encoder writes for a chunk, the decoder reads, and does the same to its cache. -/
lemma extract_archived (caches : Caches plat s.cache done) (restores : Restores plat compressType chunk)
    (h : archive plat compressType s chunk = some t) :
    Caches plat t.cache (done ++ [chunk]) ∧ ∃ written r record, t.out = s.out ++ written ∧ written ≠ [] ∧ 0 < r ∧
      (∀ file, readChunk (written ++ file) = some (r, some record, file)) ∧
      ∀ out, extract plat (UInt8.ofNat compressType).toNat ⟨s.cache, out⟩ record =
        some ⟨t.cache, out ++ firstWith plat (done ++ [chunk]) chunk⟩ := by
  obtain ⟨nonempty, short, back⟩ := restores
  unfold archive at h
  simp only at h
  cases searched : s.cache.search hashFromKeyFn keysEqualFn (plat.sha1 chunk) with
  | none =>
    rw [searched] at h
    obtain ⟨data, compressed, h⟩ := Option.bind_eq_some_iff.mp h
    obtain rfl := Option.some.inj h
    obtain ⟨full, fits, restored⟩ := back data compressed
    have type : (UInt8.ofNat compressType).toNat = compressType := by
      unfold subCompress at compressed
      split at compressed
      case isTrue eq => rw [eq]; rfl
      case isFalse =>
        split at compressed
        case isTrue eq => rw [eq]; rfl
        case isFalse => cases compressed
    have first : firstWith plat (done ++ [chunk]) chunk = chunk := by
      rw [caches.search] at searched
      unfold firstWith
      rw [List.find?_append, searched, Option.none_or,
        List.find?_cons_of_pos (p := fun d : List UInt8 => plat.sha1 d == plat.sha1 chunk) (beq_self_eq_true _)]
      rfl
    have sized : 0 < data.length := List.length_pos_iff.mpr full
    refine ⟨caches.miss searched, _, data.length, .compressed data, rfl, by simp [writeFile], by omega,
      readChunk_compress fits full, fun out => ?_⟩
    rw [type, first, extract_compressed (toInt32_length nonempty short) restored]
  | some d =>
    rw [searched] at h
    obtain rfl := Option.some.inj h
    have first : firstWith plat (done ++ [chunk]) chunk = d := by
      rw [caches.search] at searched
      unfold firstWith
      rw [List.find?_append, searched]
      rfl
    refine ⟨caches.hit (by rw [searched]; exact Option.some_ne_none d), _, sha1Len, .fingerprint (plat.sha1 chunk), rfl,
      by simp [writeFile], by decide, readChunk_fingerprint (plat.sha1_length chunk), fun out => ?_⟩
    rw [first, extract, searched]
    rfl

/-- The decoder reads what the encoder wrote for some chunks. -/
lemma decodeLoop_archived (caches : Caches plat s.cache done) (restores : ∀ c ∈ chunks, Restores plat compressType c)
    (h : chunks.foldlM (archive plat compressType) s = some t) :
    ∃ written, t.out = s.out ++ written ∧ chunks.length ≤ written.length ∧
      ∀ file fuel out,
        decodeLoop plat (UInt8.ofNat compressType).toNat (chunks.length + fuel) ⟨s.cache, out⟩ (written ++ file) =
          decodeLoop plat (UInt8.ofNat compressType).toNat fuel
            ⟨t.cache, out ++ (chunks.map (firstWith plat (done ++ chunks))).flatten⟩ file := by
  induction chunks generalizing s done with
  | nil =>
    obtain rfl := Option.some.inj h
    exact ⟨[], (List.append_nil _).symm, Nat.le_refl _, fun file fuel out => by simp⟩
  | cons c cs ih =>
    rw [List.foldlM_cons] at h
    obtain ⟨s₁, first, rest⟩ := Option.bind_eq_some_iff.mp h
    obtain ⟨caches₁, w, r, record, out₁, full, positive, reads, step⟩ :=
      extract_archived caches (restores c List.mem_cons_self) first
    obtain ⟨ws, outs, count, reads'⟩ := ih caches₁ (fun d mem => restores d (List.mem_cons_of_mem c mem)) rest
    refine ⟨w ++ ws, by rw [outs, out₁, List.append_assoc], ?_, fun file fuel out => ?_⟩
    · have := List.length_pos_iff.mpr full
      rw [List.length_append, List.length_cons]
      omega
    · have order : (c :: cs).length + fuel = (cs.length + fuel) + 1 := by
        rw [List.length_cons]
        omega
      rw [order, List.append_assoc, decodeLoop, reads]
      simp only
      rw [if_neg (by omega), if_neg (by omega), step, Option.bind_some, reads', List.map_cons, List.flatten_cons,
        List.append_assoc, List.append_assoc, List.singleton_append]
      have kept : firstWith plat (done ++ [c] ++ cs) c = firstWith plat (done ++ [c]) c :=
        firstWith_append (List.mem_append_right done List.mem_cons_self) cs
      rw [← kept, List.append_assoc, List.singleton_append]

/-- Without compression every chunk can be read back. -/
lemma restores_none {c : List UInt8} (nonempty : c ≠ []) (short : c.length < intBound) : Restores plat compressNone c := by
  refine ⟨nonempty, short, fun data compressed => ?_⟩
  obtain rfl : c = data := by simpa only [subCompress, if_true, Option.some.injEq] using compressed
  exact ⟨nonempty, short, if_pos rfl⟩

/-- With gzip, a chunk can be read back that fits its buffer. -/
lemma restores_gzip (zlib : plat.Zlib) {c : List UInt8} (nonempty : c ≠ []) (bounded : c.length ≤ uncompressBound) :
    Restores plat compressGzip c := by
  have room : c.length + c.length >>> 9 + 12 < intBound := by
    rw [Nat.shiftRight_eq_div_pow]
    unfold uncompressBound at bounded
    unfold intBound
    omega
  refine ⟨nonempty, by omega, fun data compressed => ?_⟩
  have compressed : plat.compress (c.length + c.length >>> 9 + 12) c = some data := compressed
  exact ⟨zlib.nonempty compressed, Nat.lt_of_le_of_lt (zlib.fits compressed) room, zlib.restores compressed bounded⟩

/-- A chunk of another type is not written at all. -/
lemma restores_other (none : compressType ≠ compressNone) (gzip : compressType ≠ compressGzip) {c : List UInt8}
    (nonempty : c ≠ []) (short : c.length < intBound) : Restores plat compressType c := by
  refine ⟨nonempty, short, fun data compressed => ?_⟩
  rw [subCompress, if_neg none, if_neg gzip] at compressed
  cases compressed

/-- Where every chunk can be compressed, the serial encoder does not exit. -/
lemma foldlM_archive_total {cs : List (List UInt8)}
    (compresses : ∀ c ∈ cs, ∃ data, subCompress plat compressType c = some data) (s : Encoder) :
    ∃ t, cs.foldlM (archive plat compressType) s = some t := by
  induction cs generalizing s with
  | nil => exact ⟨s, rfl⟩
  | cons c cs ih =>
    have first : ∃ s₁, archive plat compressType s c = some s₁ := by
      obtain ⟨data, compressed⟩ := compresses c List.mem_cons_self
      unfold archive
      simp only
      cases s.cache.search hashFromKeyFn keysEqualFn (plat.sha1 c) with
      | none =>
        rw [compressed]
        exact ⟨_, rfl⟩
      | some d => exact ⟨_, rfl⟩
    obtain ⟨s₁, first⟩ := first
    obtain ⟨t, rest⟩ := ih (fun d mem => compresses d (List.mem_cons_of_mem c mem)) s₁
    exact ⟨t, by rw [List.foldlM_cons, first]; exact rest⟩

/-- The cache can be created. -/
lemma create_cache : ∃ cache : Hashtable (List UInt8) (List UInt8), Hashtable.create (fun _ => 0) 65536 = some cache :=
  ⟨_, if_neg (by decide)⟩

/-- It is empty then. -/
lemma create_caches (h : Hashtable.create (fun _ => 0) 65536 = some cache) : Caches plat cache [] := by
  have start : cache.Represents hashFromKeyFn keysEqualFn [] ∧ _ := Hashtable.create_spec h
  exact ⟨[], start.1, fun _ => rfl⟩

/-- Behind the header, the loop reads the records. -/
lemma decode_written (created : Hashtable.create (fun _ => 0) 65536 = some cache) {file written : List UInt8}
    (h : file = writeHeader compressType ++ written) :
    decode plat file =
      (decodeLoop plat (UInt8.ofNat compressType).toNat (file.length + 1) ⟨cache, []⟩ written).map (·.out) := by
  unfold decode
  rw [created]
  simp only [Option.bind_eq_bind, Option.bind_some]
  generalize file.length + 1 = fuel
  rw [h, readHeader_writeHeader, Option.bind_some]
  cases decodeLoop plat (UInt8.ofNat compressType).toNat fuel ⟨cache, []⟩ written with
  | none => rfl
  | some s => rfl

/-- Where SHA-1 keeps the chunks apart, the first chunk that has the sum of a chunk is the chunk. -/
lemma map_firstWith (apart : ∀ c ∈ chunks, ∀ d ∈ chunks, plat.sha1 c = plat.sha1 d → c = d) :
    chunks.map (firstWith plat chunks) = chunks := by
  refine (List.map_congr_left fun c mem => ?_).trans (List.map_id chunks)
  unfold firstWith
  cases found : chunks.find? (plat.sha1 · == plat.sha1 c) with
  | none => rfl
  | some d =>
    have same := List.find?_some found
    exact apart d (List.mem_of_find?_eq_some found) c mem (eq_of_beq same)

/-- Chunks that are not empty, and that `uncompress` has room for, can be read back. -/
lemma restores_all (zlib : plat.Zlib) (nonempty : ∀ c ∈ chunks, c ≠ []) (short : chunks.flatten.length < intBound)
    (bounded : compressType = compressGzip → ∀ c ∈ chunks, c.length ≤ uncompressBound) :
    ∀ c ∈ chunks, Restores plat compressType c := by
  intro c mem
  have within := (List.sublist_flatten_of_mem mem).length_le
  by_cases none : compressType = compressNone
  · exact none ▸ restores_none (nonempty c mem) (by omega)
  · by_cases gzip : compressType = compressGzip
    · rw [gzip]
      exact restores_gzip zlib (nonempty c mem) (bounded gzip c mem)
    · exact restores_other none gzip (nonempty c mem) (by omega)

/-- A file of some chunks is decoded to them, each replaced by the first one with its SHA-1 sum. -/
lemma decode_archived (created : Hashtable.create (fun _ => 0) 65536 = some cache)
    (restores : ∀ c ∈ chunks, Restores plat compressType c)
    (h : chunks.foldlM (archive plat compressType) (.start compressType cache) = some t) :
    decode plat t.out = some (chunks.map (firstWith plat chunks)).flatten := by
  obtain ⟨written, out, count, reads⟩ := decodeLoop_archived (create_caches created) restores h
  have all : decodeLoop plat (UInt8.ofNat compressType).toNat _ ⟨cache, []⟩ (written ++ []) = _ :=
    reads [] (t.out.length - chunks.length + 1) []
  have enough : chunks.length + (t.out.length - chunks.length + 1) = t.out.length + 1 := by
    rw [out, List.length_append]
    omega
  rw [enough, List.append_nil] at all
  rw [decode_written created out, all]
  rfl

/-- The chunks of the sample can be compressed. -/
lemma sample_compresses :
    ∀ c ∈ [zeros, zeros, abc], ∃ data, subCompress samplePlatform compressGzip c = some data := by
  simp only [List.forall_mem_cons]
  exact ⟨⟨_, rfl⟩, ⟨_, rfl⟩, ⟨_, rfl⟩, nofun⟩

/-- They fit the buffer of the decoder. -/
lemma sample_bounded : ∀ c ∈ [zeros, zeros, abc], c.length ≤ uncompressBound := by
  simp only [List.forall_mem_cons]
  exact ⟨by decide, by decide, by decide, nofun⟩

/-- SHA-1 tells them apart. -/
lemma sample_apart : ∀ c ∈ [zeros, zeros, abc], ∀ d ∈ [zeros, zeros, abc],
    samplePlatform.sha1 c = samplePlatform.sha1 d → c = d := by
  have differ : samplePlatform.sha1 zeros ≠ samplePlatform.sha1 abc := by decide
  have same (c) (mem : c ∈ [zeros, zeros, abc]) : c = zeros ∨ c = abc := by
    simpa only [List.mem_cons, List.not_mem_nil, or_false, or_self_left] using mem
  intro c mem d mem' eq
  obtain rfl | rfl := same c mem <;> obtain rfl | rfl := same d mem'
  · rfl
  · exact absurd eq differ
  · exact absurd eq.symm differ
  · rfl

/-- The file that the encoder writes is decoded to the chunks of the input, each replaced by the first one with its
    SHA-1 sum: to the input, if no two chunks share their sum. Uncompressed, every input is encoded. -/
theorem decode_encode (zlib : plat.Zlib) {size : ℕ} (pos : 0 < size) {input : List UInt8}
    (short : input.length < intBound)
    (bounded : compressType = compressGzip → ∀ c ∈ segments 0 input, c.length ≤ uncompressBound) :
    (compressType = compressNone → ∃ s, encode plat compressType size input = some s) ∧
      ∀ s, encode plat compressType size input = some s →
        decode plat s.out = some ((segments 0 input).map (firstWith plat (segments 0 input))).flatten ∧
          ((∀ c ∈ segments 0 input, ∀ d ∈ segments 0 input, plat.sha1 c = plat.sha1 d → c = d) →
            decode plat s.out = some input) := by
  obtain ⟨cache, created⟩ := create_cache
  have encoded : encode plat compressType size input =
      (segments 0 input).foldlM (archive plat compressType) (.start compressType cache) := by
    rw [encode_eq plat compressType pos short, created, Option.bind_some]
  rw [encoded]
  refine ⟨?_, fun s h => ?_⟩
  · rintro rfl
    exact foldlM_archive_total (fun c _ => ⟨c, rfl⟩) _
  · have restores := restores_all zlib (fun _ => segments_nonempty) (by rwa [segments_flatten]) bounded
    have decoded := decode_archived created restores h
    refine ⟨decoded, fun apart => ?_⟩
    rw [decoded, map_firstWith apart, segments_flatten]

/-- Three chunks, the second of which is written as a fingerprint. -/
theorem decode_encode_sample :
    ∃ s, encode samplePlatform compressGzip 40 sampleInput = some s ∧ decode samplePlatform s.out = some sampleInput := by
  have short : sampleInput.length < intBound := by decide
  obtain ⟨cache, created⟩ := create_cache
  obtain ⟨s, encoded⟩ := foldlM_archive_total sample_compresses (.start compressGzip cache)
  have encoded : encode samplePlatform compressGzip 40 sampleInput = some s := by
    rw [encode_eq samplePlatform compressGzip (by decide) short, created, segments_sample]
    exact encoded
  refine ⟨s, encoded, ?_⟩
  refine ((decode_encode samplePlatform_zlib (by decide) short fun _ => ?_).2 s encoded).2 ?_
  · rw [segments_sample]
    exact sample_bounded
  · rw [segments_sample]
    exact sample_apart

end PromotionCache.Dedup
