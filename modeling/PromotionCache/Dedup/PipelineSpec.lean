import PromotionCache.Dedup.Decoder
import PromotionCache.Dedup.Fragment
import PromotionCache.Dedup.Pipeline

/-!
# What the pipeline writes

However its threads interleave, the pipeline writes a beginning of the file that the serial encoder writes for the
same chunks, and does not stop before it has written all of it (`pipeline_run`): which of the chunks with the same
content is compressed depends on the order of the threads, but its data is written where the first one of them is
due, and the others, the compressed one included, become fingerprints. So the file decodes to the input
(`parallel_encode`).
-/

namespace PromotionCache.Dedup
open Lib

variable {plat : Platform} {compressType : ℕ} {chunks originals arrived written : List Chunk} {s : Pipeline}
  {t₀ t : Encoder} {c o : Chunk}

/-- The serial encoder has archived some chunks. -/
structure Archived (plat : Platform) (compressType : ℕ) (t₀ : Encoder) (written : List Chunk) (t : Encoder) : Prop where
  run : (written.map (·.chunk)).foldlM (archive plat compressType) t₀ = some t
  caches : Caches plat t.cache (written.map (·.chunk))

/-- The cache of the serial encoder knows the sums of the chunks that it has written. -/
lemma Archived.search (h : Archived plat compressType t₀ written t) (c : Chunk) :
    t.cache.search hashFromKeyFn keysEqualFn (plat.sha1 c.chunk) = none ↔
      ∀ d ∈ written, plat.sha1 d.chunk ≠ plat.sha1 c.chunk := by
  rw [h.caches.search, List.find?_eq_none, List.forall_mem_map]
  exact forall₂_congr fun d _ => by rw [beq_iff_eq]

/-- One more chunk is archived. -/
lemma Archived.snoc (h : Archived plat compressType t₀ written t) {t' : Encoder}
    (step : archive plat compressType t c.chunk = some t')
    (caches : Caches plat t'.cache (written.map (·.chunk) ++ [c.chunk])) :
    Archived plat compressType t₀ (written ++ [c]) t' where
  run := by
    rw [List.map_append, List.foldlM_append, h.run]
    exact (bind_pure _).trans step
  caches := by rwa [List.map_append]

/-- A chunk whose data is not in the file yet. -/
lemma Archived.miss (h : Archived plat compressType t₀ written t)
    (new : ∀ d ∈ written, plat.sha1 d.chunk ≠ plat.sha1 c.chunk) {data : List UInt8}
    (compressed : subCompress plat compressType c.chunk = some data) :
    ∃ t', Archived plat compressType t₀ (written ++ [c]) t' ∧ t'.out = t.out ++ writeFile typeCompress data := by
  have missed := (h.search c).mpr new
  have step : ∃ t', archive plat compressType t c.chunk = some t' ∧
      t'.cache = t.cache.insert hashFromKeyFn (plat.sha1 c.chunk) c.chunk ∧
      t'.out = t.out ++ writeFile typeCompress data := by
    unfold archive
    simp only [missed, compressed]
    exact ⟨_, rfl, rfl, rfl⟩
  obtain ⟨t', step, cache, out⟩ := step
  refine ⟨t', h.snoc step ?_, out⟩
  rw [cache]
  exact h.caches.miss missed

/-- A chunk whose data is in the file. -/
lemma Archived.hit (h : Archived plat compressType t₀ written t) {d : Chunk} (mem : d ∈ written)
    (same : plat.sha1 d.chunk = plat.sha1 c.chunk) :
    ∃ t', Archived plat compressType t₀ (written ++ [c]) t' ∧
      t'.out = t.out ++ writeFile typeFingerprint (plat.sha1 c.chunk) := by
  have found : t.cache.search hashFromKeyFn keysEqualFn (plat.sha1 c.chunk) ≠ none := fun none =>
    (h.search c).mp none d mem same
  have step : ∃ t', archive plat compressType t c.chunk = some t' ∧ t'.cache = t.cache ∧
      t'.out = t.out ++ writeFile typeFingerprint (plat.sha1 c.chunk) := by
    obtain ⟨e, found⟩ := Option.ne_none_iff_exists'.mp found
    unfold archive
    simp only [found]
    exact ⟨_, rfl, rfl, rfl⟩
  obtain ⟨t', step, cache, out⟩ := step
  refine ⟨t', h.snoc step ?_, out⟩
  rw [cache]
  exact h.caches.hit found

/-- What has been archived stays in the file. -/
lemma foldlM_archive_prefix {cs : List (List UInt8)} (h : cs.foldlM (archive plat compressType) t₀ = some t) :
    t₀.out <+: t.out := by
  induction cs generalizing t₀ with
  | nil =>
    obtain rfl := Option.some.inj h
    exact List.prefix_rfl
  | cons c cs ih =>
    rw [List.foldlM_cons] at h
    obtain ⟨t₁, first, rest⟩ := Option.bind_eq_some_iff.mp h
    refine List.IsPrefix.trans ?_ (ih rest)
    unfold archive at first
    simp only at first
    cases searched : t₀.cache.search hashFromKeyFn keysEqualFn (plat.sha1 c) with
    | none =>
      rw [searched] at first
      obtain ⟨data, _, first⟩ := Option.bind_eq_some_iff.mp first
      obtain rfl := Option.some.inj first
      exact List.prefix_append _ _
    | some d =>
      rw [searched] at first
      obtain rfl := Option.some.inj first
      exact List.prefix_append _ _

/-- The chunk cache has some chunks, under their SHA-1 sums. -/
def Enters (plat : Platform) (cache : Hashtable (List UInt8) Chunk) (originals : List Chunk) : Prop :=
  cache.Represents hashFromKeyFn keysEqualFn (originals.map fun o => (plat.sha1 o.chunk, o))

variable {cache : Hashtable (List UInt8) Chunk}

/-- The cache knows the sums of the chunks that have entered it. -/
lemma Enters.search_none (h : Enters plat cache originals) :
    cache.search hashFromKeyFn keysEqualFn (plat.sha1 c.chunk) = none ↔
      ∀ o ∈ originals, plat.sha1 o.chunk ≠ plat.sha1 c.chunk := by
  rw [Hashtable.Represents.search keyFns h, Hashtable.lookup, Option.map_eq_none_iff, List.find?_eq_none,
    List.forall_mem_map]
  refine forall₂_congr fun o _ => not_congr ?_
  rw [keysEqualFn, beq_iff_eq]
  exact eq_comm

/-- What it finds has entered it, with the same sum. -/
lemma Enters.search_some (h : Enters plat cache originals)
    (found : cache.search hashFromKeyFn keysEqualFn (plat.sha1 c.chunk) = some o) :
    o ∈ originals ∧ plat.sha1 o.chunk = plat.sha1 c.chunk := by
  rw [Hashtable.Represents.search keyFns h] at found
  obtain ⟨q, first, rfl⟩ := Option.map_eq_some_iff.mp found
  obtain ⟨d, mem, rfl⟩ := List.mem_map.mp (List.mem_of_find?_eq_some first)
  have eq := List.find?_some first
  exact ⟨mem, (eq_of_beq eq).symm⟩

/-- No two of its chunks have the same sum. -/
lemma Enters.injective (h : Enters plat cache originals) (mem : c ∈ originals) (mem' : o ∈ originals)
    (same : plat.sha1 c.chunk = plat.sha1 o.chunk) : c = o := by
  have find {d : Chunk} (mem : d ∈ originals) (same : plat.sha1 d.chunk = plat.sha1 o.chunk) :=
    Hashtable.lookup_of_mem keyFns h.distinct (k := plat.sha1 o.chunk)
      (List.mem_map_of_mem (f := fun o : Chunk => (plat.sha1 o.chunk, o)) mem) (beq_iff_eq.mpr same.symm)
  exact Option.some.inj ((find mem same).symm.trans (find mem' rfl))

/-- A chunk with a new sum enters. -/
lemma Enters.insert (h : Enters plat cache originals) (new : ∀ o ∈ originals, plat.sha1 o.chunk ≠ plat.sha1 c.chunk) :
    Enters plat (cache.insert hashFromKeyFn (plat.sha1 c.chunk) c) (c :: originals) := by
  refine Hashtable.Represents.insert h fun q mem => ?_
  obtain ⟨o, entered, rfl⟩ := List.mem_map.mp mem
  exact beq_false_of_ne (new o entered).symm

/-- After some steps: the chunks that are compressed are entered in the cache, every chunk that has been looked up has
    one of them with its sum as its original, and an original has been flushed if a chunk with its sum is written. -/
structure Consistent (plat : Platform) (compressType : ℕ) (t₀ : Encoder)
    (chunks originals arrived written : List Chunk) (t : Encoder) (s : Pipeline) : Prop where
  accounts : ∀ a, s.deduplicateQue.count a + s.compressQue.count a + s.sendBuf.count a + s.reorderQue.count a +
    arrived.count a = chunks.count a
  cache : Enters plat s.cache originals
  entered : ∀ o ∈ originals, o ∈ chunks ∧ o ∉ s.deduplicateQue ∧ s.isDuplicate o = false
  original : ∀ c ∈ chunks, c ∉ s.deduplicateQue →
    s.original c ∈ originals ∧ plat.sha1 (s.original c).chunk = plat.sha1 c.chunk
  fresh : ∀ c, c ∈ s.deduplicateQue ∨ c ∈ s.compressQue → s.state c = .uncompressed
  compressing : ∀ c ∈ s.compressQue, c ∈ originals
  waiting : ∀ o ∈ originals, s.state o = .uncompressed → o ∈ s.compressQue
  data : ∀ o ∈ originals, s.state o = .compressed → subCompress plat compressType o.chunk = some (s.compressedData o)
  flushed : ∀ o ∈ originals, s.state o = .flushed ↔ ∃ d ∈ written, s.original d = o
  reorder : Arrived chunks arrived s.reorder
  room : 1024 ≤ s.reorder.chunksPerAnchorMax
  pending : written ++ s.pending = s.reorder.out
  archived : Archived plat compressType t₀ written t
  out : t.out = s.out
  failed : s.failed = false

/-- A chunk moves from one list to another. -/
lemma count_move {xs : List Chunk} (mem : c ∈ xs) (ys : List Chunk) (a : Chunk) :
    (xs.erase c).count a + (ys ++ [c]).count a = xs.count a + ys.count a := by
  have moved : (xs.erase c ++ (ys ++ [c])).Perm (xs ++ ys) := by
    rw [← List.append_assoc]
    refine (List.perm_append_singleton c _).trans ?_
    exact (List.perm_cons_erase mem).symm.append_right ys
  rw [← List.count_append, moved.count_eq, List.count_append]

namespace Consistent

/-- Every chunk is in one of the queues, or has arrived. -/
lemma perm (h : Consistent plat compressType t₀ chunks originals arrived written t s) :
    (s.deduplicateQue ++ s.compressQue ++ s.sendBuf ++ s.reorderQue ++ arrived).Perm chunks := by
  rw [List.perm_iff_count]
  intro a
  simp only [List.count_append]
  exact h.accounts a

/-- It is in one of them alone. -/
lemma nodup (h : Consistent plat compressType t₀ chunks originals arrived written t s) (once : chunks.Nodup) :
    (s.deduplicateQue ++ s.compressQue ++ s.sendBuf ++ s.reorderQue ++ arrived).Nodup := h.perm.nodup_iff.mpr once

/-- What has been written has arrived. -/
lemma written_arrived (h : Consistent plat compressType t₀ chunks originals arrived written t s) :
    s.reorder.out ⊆ arrived := by
  obtain ⟨_, _, _, m, _, accounts⟩ := h.reorder
  intro c mem
  exact Multiset.mem_coe.mp (accounts ▸ Multiset.mem_add.mpr (.inr (Multiset.mem_coe.mpr mem)))

/-- A chunk that has arrived is behind `Deduplicate`. -/
lemma behind (h : Consistent plat compressType t₀ chunks originals arrived written t s) (once : chunks.Nodup)
    (mem : c ∈ arrived) : c ∈ chunks ∧ c ∉ s.deduplicateQue := by
  refine ⟨h.perm.subset (List.mem_append_right _ mem), fun before => ?_⟩
  have apart := (List.nodup_append.mp (h.nodup once)).2.2
  refine apart c ?_ c mem rfl
  simp only [List.mem_append, before, true_or]

/-- What has been written is past the first stage. -/
lemma written_behind (h : Consistent plat compressType t₀ chunks originals arrived written t s) (once : chunks.Nodup)
    (mem : c ∈ written) : c ∈ chunks ∧ c ∉ s.deduplicateQue :=
  h.behind once (h.written_arrived (h.pending ▸ List.mem_append_left _ mem))

/-- What has been written is a beginning of all chunks. -/
lemma written_prefix (h : Consistent plat compressType t₀ chunks originals arrived written t s) : written <+: chunks := by
  obtain ⟨_, _, ⟨rest, all, _⟩, _⟩ := h.reorder
  exact ⟨s.pending ++ rest, by rw [← List.append_assoc, h.pending, all]⟩

/-- Only what has arrived is written. -/
lemma written_length (h : Consistent plat compressType t₀ chunks originals arrived written t s) (once : chunks.Nodup) :
    written.length ≤ arrived.length := by
  refine (List.subperm_of_subset (h.written_prefix.sublist.nodup once) fun c mem => ?_).length_le
  exact h.written_arrived (h.pending ▸ List.mem_append_left _ mem)

/-- A chunk goes on to `Reorder`. -/
lemma send (h : Consistent plat compressType t₀ chunks originals arrived written t s) (mem : c ∈ s.sendBuf) :
    Consistent plat compressType t₀ chunks originals arrived written t (s.send c) := by
  refine { h with accounts := fun a => ?_ }
  have moved := count_move mem s.reorderQue a
  have total := h.accounts a
  simp only [Pipeline.send]
  omega

section Deduplicate
variable (h : Consistent plat compressType t₀ chunks originals arrived written t s) (once : chunks.Nodup)
include h once

/-- A chunk that has been taken out of the queue is not in it. -/
lemma gone : c ∉ s.deduplicateQue.erase c := by
  have all := h.nodup once
  simp only [List.append_assoc] at all
  exact (List.nodup_append.mp all).1.not_mem_erase

/-- What is behind `Deduplicate` has the original that it had. -/
lemma flushed_behind {s' : Pipeline} (others : ∀ d ∉ s.deduplicateQue, s'.original d = s.original d) :
    (∃ d ∈ written, s'.original d = o) ↔ ∃ d ∈ written, s.original d = o :=
  exists_congr fun d => and_congr_right fun wrote => by rw [others d (h.written_behind once wrote).2]

variable (mem : c ∈ s.deduplicateQue)
include mem

/-- A chunk with a new sum goes on to be compressed. -/
lemma miss (missed : s.cache.search hashFromKeyFn keysEqualFn (plat.sha1 c.chunk) = none) :
    Consistent plat compressType t₀ chunks (c :: originals) arrived written t (s.miss plat c) := by
  have inside : c ∈ chunks := h.perm.subset (by simp only [List.mem_append, mem, true_or])
  have apart {d : Chunk} (out : d ∉ s.deduplicateQue) : d ≠ c := fun e => out (e ▸ mem)
  have left {d : Chunk} (out : d ∉ s.deduplicateQue) : d ∉ s.deduplicateQue.erase c := fun e =>
    out (List.mem_of_mem_erase e)
  have others (d : Chunk) (out : d ∉ s.deduplicateQue) : (s.miss plat c).original d = s.original d := by
    unfold Pipeline.original Pipeline.miss
    simp only
    rw [Function.update_of_ne (apart out)]
  have own : (s.miss plat c).original c = c := by
    unfold Pipeline.original Pipeline.miss
    simp only
    rw [Function.update_self]
    rfl
  refine { h with
    accounts := fun a => ?_, cache := h.cache.insert (h.cache.search_none.mp missed), entered := fun o mem' => ?_,
    original := fun d mem' out => ?_, fresh := fun d mem' => h.fresh d ?_, compressing := fun d mem' => ?_,
    waiting := fun o mem' state => ?_, data := fun o mem' state => ?_, flushed := fun o mem' => ?_ }
  · have moved := count_move mem s.compressQue a
    have total := h.accounts a
    simp only [Pipeline.miss]
    omega
  · rcases List.mem_cons.mp mem' with rfl | mem'
    · exact ⟨inside, h.gone once, Function.update_self _ _ _⟩
    · obtain ⟨known, out, unique⟩ := h.entered o mem'
      exact ⟨known, left out, (Function.update_of_ne (apart out) _ _).trans unique⟩
  · by_cases same : d = c
    · rw [same, own]
      exact ⟨List.mem_cons_self, rfl⟩
    · have out : d ∉ s.deduplicateQue := fun e => out ((List.mem_erase_of_ne same).mpr e)
      obtain ⟨known, sum⟩ := h.original d mem' out
      rw [others d out]
      exact ⟨List.mem_cons_of_mem c known, sum⟩
  · rcases mem' with mem' | mem'
    · exact .inl (List.mem_of_mem_erase mem')
    · rcases List.mem_append.mp mem' with mem' | mem'
      · exact .inr mem'
      · exact .inl (List.mem_singleton.mp mem' ▸ mem)
  · rcases List.mem_append.mp mem' with mem' | mem'
    · exact List.mem_cons_of_mem c (h.compressing d mem')
    · exact List.mem_singleton.mp mem' ▸ List.mem_cons_self
  · rcases List.mem_cons.mp mem' with rfl | mem'
    · exact List.mem_append_right _ (List.mem_singleton_self o)
    · exact List.mem_append_left _ (h.waiting o mem' state)
  · rcases List.mem_cons.mp mem' with rfl | mem'
    · exact absurd ((h.fresh o (.inl mem)).symm.trans state) (by decide)
    · exact h.data o mem' state
  · rw [h.flushed_behind once others]
    rcases List.mem_cons.mp mem' with rfl | mem'
    · refine ⟨fun state => absurd ((h.fresh o (.inl mem)).symm.trans state) (by decide), ?_⟩
      rintro ⟨d, wrote, eq⟩
      obtain ⟨known, out⟩ := h.written_behind once wrote
      have entered := (h.original d known out).1
      rw [eq] at entered
      exact absurd mem (h.entered o entered).2.1
    · exact h.flushed o mem'

/-- A chunk with a known sum goes on to be sent. -/
lemma hit {entry : Chunk} (found : s.cache.search hashFromKeyFn keysEqualFn (plat.sha1 c.chunk) = some entry) :
    Consistent plat compressType t₀ chunks originals arrived written t (s.hit c entry) := by
  obtain ⟨known, sum⟩ := h.cache.search_some found
  have apart {d : Chunk} (out : d ∉ s.deduplicateQue) : d ≠ c := fun e => out (e ▸ mem)
  have left {d : Chunk} (out : d ∉ s.deduplicateQue) : d ∉ s.deduplicateQue.erase c := fun e =>
    out (List.mem_of_mem_erase e)
  have others (d : Chunk) (out : d ∉ s.deduplicateQue) : (s.hit c entry).original d = s.original d := by
    unfold Pipeline.original Pipeline.hit
    simp only
    rw [Function.update_of_ne (apart out), Function.update_of_ne (apart out)]
  have own : (s.hit c entry).original c = entry := by
    unfold Pipeline.original Pipeline.hit
    simp only
    rw [Function.update_self, Function.update_self]
    rfl
  refine { h with
    accounts := fun a => ?_, entered := fun o mem' => ?_, original := fun d mem' out => ?_,
    fresh := fun d mem' => h.fresh d (mem'.imp_left List.mem_of_mem_erase), flushed := fun o mem' => ?_ }
  · have moved := count_move mem s.sendBuf a
    have total := h.accounts a
    simp only [Pipeline.hit]
    omega
  · obtain ⟨known, out, unique⟩ := h.entered o mem'
    exact ⟨known, left out, (Function.update_of_ne (apart out) _ _).trans unique⟩
  · by_cases same : d = c
    · rw [same, own]
      exact ⟨known, sum⟩
    · have out : d ∉ s.deduplicateQue := fun e => out ((List.mem_erase_of_ne same).mpr e)
      rw [others d out]
      exact h.original d mem' out
  · rw [h.flushed_behind once others]
    exact h.flushed o mem'

end Deduplicate

/-- A chunk has been compressed. -/
lemma store (h : Consistent plat compressType t₀ chunks originals arrived written t s) (once : chunks.Nodup)
    (mem : c ∈ s.compressQue) {data : List UInt8} (compressed : subCompress plat compressType c.chunk = some data) :
    Consistent plat compressType t₀ chunks originals arrived written t (s.store c data) := by
  have before := h.fresh c (.inr mem)
  have entered := h.compressing c mem
  have gone : c ∉ s.compressQue.erase c := by
    have all := h.nodup once
    simp only [List.append_assoc] at all
    exact (List.nodup_append.mp (List.nodup_append.mp all).2.1).1.not_mem_erase
  have other {o : Chunk} (ne : o ≠ c) : (s.store c data).state o = s.state o := Function.update_of_ne ne _ _
  have own : (s.store c data).state c = .compressed := Function.update_self _ _ _
  refine { h with
    accounts := fun a => ?_, fresh := fun d mem' => ?_, compressing := fun d mem' => ?_,
    waiting := fun o mem' state => ?_, data := fun o mem' state => ?_, flushed := fun o mem' => ?_ }
  · have moved := count_move mem s.sendBuf a
    have total := h.accounts a
    simp only [Pipeline.store]
    omega
  · have ne : d ≠ c := by
      rintro rfl
      rcases mem' with mem' | mem'
      · exact (h.entered d entered).2.1 mem'
      · exact gone mem'
    rw [other ne]
    exact h.fresh d (mem'.imp_right List.mem_of_mem_erase)
  · exact h.compressing d (List.mem_of_mem_erase mem')
  · have ne : o ≠ c := by
      rintro rfl
      rw [own] at state
      cases state
    rw [other ne] at state
    exact (List.mem_erase_of_ne ne).mpr (h.waiting o mem' state)
  · by_cases same : o = c
    · subst same
      rw [compressed]
      exact congrArg some (Function.update_self o data s.compressedData).symm
    · rw [other same] at state
      rw [h.data o mem' state]
      exact congrArg some (Function.update_of_ne same _ s.compressedData).symm
  · by_cases same : o = c
    · subst same
      rw [own]
      refine ⟨nofun, fun wrote => ?_⟩
      have state := (h.flushed o entered).mpr wrote
      rw [before] at state
      cases state
    · rw [other same]
      exact h.flushed o mem'

/-- The chunks that arrive are written in their order, after those that have been. -/
lemma receive (h : Consistent plat compressType t₀ chunks originals arrived written t s) (once : chunks.Nodup)
    (numbered : Numbered chunks) (small : ∀ c ∈ chunks, c.sequence.l1num < 2048) (idle : s.pending = [])
    {reorderQue : List Chunk} (que : s.reorderQue = c :: reorderQue) :
    ∃ s', s.receive c reorderQue = s' ∧
      Consistent plat compressType t₀ chunks originals (arrived ++ [c]) written t s' ∧
      s'.deduplicateQue = s.deduplicateQue ∧ s'.compressQue = s.compressQue ∧ s'.sendBuf = s.sendBuf ∧
      s'.reorderQue = reorderQue := by
  have all := h.nodup once
  have sub : arrived ++ [c] ⊆ chunks := fun d mem => h.perm.subset (by
    rcases List.mem_append.mp mem with mem | mem
    · exact List.mem_append_right _ mem
    · rw [List.mem_singleton.mp mem, que]
      simp)
  have fresh : (arrived ++ [c]).Nodup := by
    rw [que, List.append_assoc] at all
    have tail := (List.nodup_append.mp all).2.1
    rw [List.cons_append, List.nodup_cons] at tail
    refine (List.perm_append_singleton c arrived).nodup_iff.mpr (List.nodup_cons.mpr ⟨fun mem => ?_, ?_⟩)
    · exact tail.1 (List.mem_append_right _ mem)
    · exact (List.nodup_append.mp tail.2).2.1
  have fits : c.sequence.l1num < 2 * s.reorder.chunksPerAnchorMax := by
    have bound := small c (sub (List.mem_append_right _ (List.mem_singleton_self c)))
    have room := h.room
    omega
  obtain ⟨reorder, arrives, arrived', max⟩ := h.reorder.arrive numbered sub fresh fits
  have longer := h.reorder.prefix arrived'
  have written' : written = s.reorder.out := by rw [← h.pending, idle, List.append_nil]
  have state : s.receive c reorderQue =
      { s with reorderQue, reorder, pending := reorder.out.drop s.reorder.out.length } := by
    rw [Pipeline.receive, arrives]
  refine ⟨_, state, { h with accounts := fun a => ?_, reorder := arrived', room := ?_, pending := ?_ }, rfl, rfl, rfl,
    rfl⟩
  · have moved := count_move (List.mem_cons_self (a := c) (l := reorderQue)) arrived a
    have total := h.accounts a
    rw [que] at total
    rw [List.erase_cons_head] at moved
    simp only
    omega
  · have room := h.room
    simp only
    rw [max]
    split <;> omega
  · simp only
    rw [written']
    exact List.prefix_iff_eq_append.mp longer

/-- The thread of `Reorder` writes a chunk as the serial encoder does. -/
lemma write (h : Consistent plat compressType t₀ chunks originals arrived written t s) (once : chunks.Nodup)
    (apart : ∀ c ∈ chunks, ∀ d ∈ chunks, plat.sha1 c.chunk = plat.sha1 d.chunk → c.chunk = d.chunk)
    {pending : List Chunk} (head : s.pending = c :: pending) {s' : Pipeline} (step : s.write plat c pending = some s') :
    ∃ t', Consistent plat compressType t₀ chunks originals arrived (written ++ [c]) t' s' ∧
      s'.deduplicateQue = s.deduplicateQue ∧ s'.compressQue = s.compressQue ∧ s'.sendBuf = s.sendBuf ∧
      s'.reorderQue = s.reorderQue := by
  have due : c ∈ s.reorder.out := by
    rw [← h.pending, head]
    exact List.mem_append_right _ List.mem_cons_self
  obtain ⟨known, out⟩ := h.behind once (h.written_arrived due)
  obtain ⟨entered, sum⟩ := h.original c known out
  have advanced : written ++ [c] ++ pending = s.reorder.out := by
    rw [← h.pending, head, List.append_assoc, List.singleton_append]
  unfold Pipeline.write at step
  simp only at step
  cases state : s.state (s.original c) with
  | uncompressed =>
    rw [state] at step
    cases step
  | compressed =>
    rw [state] at step
    obtain rfl := Option.some.inj step
    have new : ∀ d ∈ written, plat.sha1 d.chunk ≠ plat.sha1 c.chunk := by
      intro d wrote same
      obtain ⟨known', out'⟩ := h.written_behind once wrote
      obtain ⟨entered', sum'⟩ := h.original d known' out'
      have eq := h.cache.injective entered' entered (sum'.trans (same.trans sum.symm))
      have flushed := (h.flushed _ entered).mpr ⟨d, wrote, eq⟩
      rw [state] at flushed
      cases flushed
    have data := h.data _ entered state
    rw [apart _ (h.entered _ entered).1 c known sum] at data
    obtain ⟨t', archived, file⟩ := h.archived.miss new data
    have other {o : Chunk} (ne : o ≠ s.original c) : (s.flush (s.original c) pending).state o = s.state o :=
      Function.update_of_ne ne _ _
    have own : (s.flush (s.original c) pending).state (s.original c) = .flushed := Function.update_self _ _ _
    refine ⟨t', { h with
      fresh := fun d mem => ?_, waiting := fun o mem state' => ?_, data := fun o mem state' => ?_,
      flushed := fun o mem => ?_, pending := advanced, archived := archived, out := ?_ }, rfl, rfl, rfl, rfl⟩
    · have before := h.fresh d mem
      rw [other fun eq => by rw [eq, state] at before; cases before]
      exact before
    · by_cases same : o = s.original c
      · rw [same, own] at state'
        cases state'
      · rw [other same] at state'
        exact h.waiting o mem state'
    · by_cases same : o = s.original c
      · rw [same, own] at state'
        cases state'
      · rw [other same] at state'
        exact h.data o mem state'
    · by_cases same : o = s.original c
      · rw [same, own]
        exact ⟨fun _ => ⟨c, List.mem_append_right _ (List.mem_singleton_self c), rfl⟩, fun _ => rfl⟩
      · rw [other same, h.flushed o mem]
        constructor
        · rintro ⟨d, wrote, eq⟩
          exact ⟨d, List.mem_append_left _ wrote, eq⟩
        · rintro ⟨d, wrote, eq⟩
          rcases List.mem_append.mp wrote with wrote | wrote
          · exact ⟨d, wrote, eq⟩
          · rw [List.mem_singleton.mp wrote] at eq
            exact absurd eq.symm same
    · rw [file, h.out]
      rfl
  | flushed =>
    rw [state] at step
    obtain rfl := Option.some.inj step
    obtain ⟨d, wrote, eq⟩ := (h.flushed _ entered).mp state
    obtain ⟨known', out'⟩ := h.written_behind once wrote
    have sum' := (h.original d known' out').2
    rw [eq, sum] at sum'
    obtain ⟨t', archived, file⟩ := h.archived.hit wrote sum'.symm
    refine ⟨t', { h with
      flushed := fun o mem => ?_, pending := advanced, archived := archived, out := ?_ }, rfl, rfl, rfl, rfl⟩
    · refine (h.flushed o mem).trans ⟨?_, ?_⟩
      · rintro ⟨e, wrote, eq⟩
        exact ⟨e, List.mem_append_left _ wrote, eq⟩
      · rintro ⟨e, wrote', eq'⟩
        rcases List.mem_append.mp wrote' with wrote' | wrote'
        · exact ⟨e, wrote', eq'⟩
        · rw [List.mem_singleton.mp wrote'] at eq'
          exact ⟨d, wrote, eq.trans eq'⟩
    · rw [file, h.out, ← sum]
      rfl

end Consistent

/-- What holds after `k` steps: every step brings a chunk closer to the file. -/
def Reached (plat : Platform) (compressType : ℕ) (t₀ : Encoder) (chunks : List Chunk) (k : ℕ) (s : Pipeline) : Prop :=
  ∃ originals arrived written t, Consistent plat compressType t₀ chunks originals arrived written t s ∧
    k + 5 * s.deduplicateQue.length + 4 * s.compressQue.length + 3 * s.sendBuf.length + 2 * s.reorderQue.length +
      arrived.length ≤ 5 * chunks.length + written.length

section
variable {room queueSize k : ℕ} (numbered : Numbered chunks) (small : ∀ c ∈ chunks, c.sequence.l1num < 2048)
  (apart : ∀ c ∈ chunks, ∀ d ∈ chunks, plat.sha1 c.chunk = plat.sha1 d.chunk → c.chunk = d.chunk)
  (compresses : ∀ c ∈ chunks, ∃ data, subCompress plat compressType c.chunk = some data)

/-- The pipeline as it starts. -/
lemma reached_start (created : Hashtable.create (fun _ => 0) 65536 = some cache)
    {cache₀ : Hashtable (List UInt8) (List UInt8)} (created₀ : Hashtable.create (fun _ => 0) 65536 = some cache₀) :
    Reached plat compressType (.start compressType cache₀) chunks 0 (.start compressType cache chunks) := by
  have empty : cache.Represents hashFromKeyFn keysEqualFn [] := (Hashtable.create_spec created).1
  refine ⟨[], [], [], .start compressType cache₀, ?_, ?_⟩
  · exact {
      accounts := fun a => by simp [Pipeline.start]
      cache := empty
      entered := fun _ => nofun
      original := fun c mem out => absurd mem out
      fresh := fun _ _ => rfl
      compressing := fun _ => nofun
      waiting := fun _ => nofun
      data := fun _ => nofun
      flushed := fun _ => nofun
      reorder := arrived_start chunks
      room := Nat.le_refl _
      pending := rfl
      archived := ⟨rfl, create_caches created₀⟩
      out := rfl
      failed := rfl }
  · simp [Pipeline.start]

/-- No thread has exited, and no `assert` has failed. -/
lemma Reached.failed (h : Reached plat compressType t₀ chunks k s) : s.failed = false := by
  obtain ⟨_, _, _, _, consistent, _⟩ := h
  exact consistent.failed

include numbered small apart compresses

/-- A step of the pipeline. -/
lemma Reached.step (h : Reached plat compressType t₀ chunks k s) {a : PipelineAction} {s' : Pipeline}
    (step : s.step plat compressType room queueSize a = some s') : Reached plat compressType t₀ chunks (k + 1) s' := by
  obtain ⟨originals, arrived, written, t, h, bound⟩ := h
  have once := numbered.nodup
  cases a with
  | deduplicate c =>
    obtain ⟨⟨mem, _⟩, step⟩ := Option.ite_none_right_eq_some.mp step
    obtain rfl := Option.some.inj step
    have fewer := List.length_erase_of_mem mem
    have positive := List.length_pos_of_mem mem
    unfold Pipeline.deduplicate
    cases searched : s.cache.search hashFromKeyFn keysEqualFn (plat.sha1 c.chunk) with
    | none =>
      refine ⟨_, _, _, _, h.miss once mem searched, ?_⟩
      simp only [Pipeline.miss, List.length_append, List.length_singleton]
      omega
    | some entry =>
      refine ⟨_, _, _, _, h.hit once mem searched, ?_⟩
      simp only [Pipeline.hit, List.length_append, List.length_singleton]
      omega
  | compress c =>
    obtain ⟨⟨mem, _⟩, step⟩ := Option.ite_none_right_eq_some.mp step
    obtain rfl := Option.some.inj step
    have fewer := List.length_erase_of_mem mem
    have positive := List.length_pos_of_mem mem
    obtain ⟨data, compressed⟩ := compresses c (h.entered c (h.compressing c mem)).1
    unfold Pipeline.compress
    rw [h.fresh c (.inr mem), compressed]
    refine ⟨_, _, _, _, h.store once mem compressed, ?_⟩
    simp only [Pipeline.store, List.length_append, List.length_singleton]
    omega
  | send c =>
    obtain ⟨⟨mem, _⟩, step⟩ := Option.ite_none_right_eq_some.mp step
    obtain rfl := Option.some.inj step
    have fewer := List.length_erase_of_mem mem
    have positive := List.length_pos_of_mem mem
    refine ⟨_, _, _, _, h.send mem, ?_⟩
    simp only [Pipeline.send, List.length_append, List.length_singleton]
    omega
  | receive =>
    cases idle : s.pending with
    | cons c pending =>
      simp only [Pipeline.step, idle] at step
      cases step
    | nil =>
      cases que : s.reorderQue with
      | nil =>
        simp only [Pipeline.step, idle, que] at step
        cases step
      | cons c reorderQue =>
        simp only [Pipeline.step, idle, que] at step
        obtain ⟨t', moved, h', dq, cq, sb, rq⟩ := h.receive once numbered small idle que
        obtain rfl := moved.symm.trans (Option.some.inj step)
        refine ⟨_, _, _, _, h', ?_⟩
        rw [que, List.length_cons] at bound
        rw [dq, cq, sb, rq, List.length_append, List.length_singleton]
        omega
  | write =>
    cases head : s.pending with
    | nil =>
      simp only [Pipeline.step, head] at step
      cases step
    | cons c pending =>
      simp only [Pipeline.step, head] at step
      obtain ⟨t', h', dq, cq, sb, rq⟩ := h.write once apart head step
      refine ⟨_, _, _, _, h', ?_⟩
      rw [dq, cq, sb, rq, List.length_append, List.length_singleton]
      omega

omit small apart compresses in
/-- A pipeline that cannot go on has written everything. -/
lemma Reached.finished (h : Reached plat compressType t₀ chunks k s) (pos : 0 < room)
    (fewer : chunks.length < queueSize) (stuck : ∀ a, s.step plat compressType room queueSize a = none) :
    ∃ t, Archived plat compressType t₀ chunks t ∧ t.out = s.out ∧ s.reorder.flush 1 = some s.reorder := by
  obtain ⟨originals, arrived, written, t, h, _⟩ := h
  have once := numbered.nodup
  have total := h.perm.length_eq
  simp only [List.length_append] at total
  have noSend : s.sendBuf = [] := by
    by_contra left
    obtain ⟨c, rest, eq⟩ := List.exists_cons_of_ne_nil left
    have now : c ∈ s.sendBuf ∧ s.reorderQue.length + 1 < queueSize := by
      rw [eq, List.length_cons] at total
      exact ⟨eq ▸ List.mem_cons_self, by omega⟩
    have moves : s.step plat compressType room queueSize (.send c) = some (s.send c) := if_pos now
    rw [stuck] at moves
    cases moves
  have empty : s.sendBuf.length < room := by rwa [noSend]
  have noDeduplicate : s.deduplicateQue = [] := by
    by_contra left
    obtain ⟨c, rest, eq⟩ := List.exists_cons_of_ne_nil left
    have moves : s.step plat compressType room queueSize (.deduplicate c) = some (s.deduplicate plat c) :=
      if_pos ⟨eq ▸ List.mem_cons_self, empty⟩
    rw [stuck] at moves
    cases moves
  have noCompress : s.compressQue = [] := by
    by_contra left
    obtain ⟨c, rest, eq⟩ := List.exists_cons_of_ne_nil left
    have moves : s.step plat compressType room queueSize (.compress c) = some (s.compress plat compressType c) :=
      if_pos ⟨eq ▸ List.mem_cons_self, empty⟩
    rw [stuck] at moves
    cases moves
  -- the thread of `Reorder` waits for nothing, since all originals have been compressed
  have idle : s.pending = [] := by
    by_contra left
    obtain ⟨c, pending, eq⟩ := List.exists_cons_of_ne_nil left
    have due : c ∈ s.reorder.out := by
      rw [← h.pending, eq]
      exact List.mem_append_right _ List.mem_cons_self
    obtain ⟨known, out⟩ := h.behind once (h.written_arrived due)
    have waits := stuck .write
    simp only [Pipeline.step, eq, Pipeline.write] at waits
    cases state : s.state (s.original c) with
    | uncompressed =>
      have mem := h.waiting _ (h.original c known out).1 state
      rw [noCompress] at mem
      cases mem
    | compressed =>
      rw [state] at waits
      cases waits
    | flushed =>
      rw [state] at waits
      cases waits
  have noReorder : s.reorderQue = [] := by
    by_contra left
    obtain ⟨c, rest, eq⟩ := List.exists_cons_of_ne_nil left
    have moves : s.step plat compressType room queueSize .receive = some (s.receive c rest) := by
      simp only [Pipeline.step, idle, eq]
    rw [stuck] at moves
    cases moves
  have perm := h.perm
  simp only [noSend, noDeduplicate, noCompress, noReorder, List.nil_append] at perm
  obtain ⟨flushed, out⟩ := h.reorder.complete (perm.nodup_iff.mpr once) perm.subset perm.symm.subset
  have all : written = chunks := by rw [← out, ← h.pending, idle, List.append_nil]
  exact ⟨t, all ▸ h.archived, h.out, flushed⟩

/-- Every run of the pipeline keeps the accounts. -/
lemma reached_run (created : Hashtable.create (fun _ => 0) 65536 = some cache)
    {cache₀ : Hashtable (List UInt8) (List UInt8)} (created₀ : Hashtable.create (fun _ => 0) 65536 = some cache₀)
    {actions : List PipelineAction}
    (h : run (Pipeline.step plat compressType room queueSize) (.start compressType cache chunks) actions = some s) :
    Reached plat compressType (.start compressType cache₀) chunks actions.length s := by
  have step : ∀ bs a, bs ++ [a] <+: actions → ∀ s t,
      run (Pipeline.step plat compressType room queueSize) (.start compressType cache chunks) bs = some s →
      Reached plat compressType (.start compressType cache₀) chunks bs.length s →
      s.step plat compressType room queueSize a = some t →
      Reached plat compressType (.start compressType cache₀) chunks (bs ++ [a]).length t := by
    intro bs a _ s t _ before step
    rw [List.length_append]
    exact before.step numbered small apart compresses step
  exact run_inv_of (reached_start created created₀) step h

omit small apart compresses in
/-- A run has at most five steps for each chunk. -/
lemma Reached.bounded (h : Reached plat compressType t₀ chunks k s) : k ≤ 5 * chunks.length := by
  obtain ⟨_, _, _, _, consistent, bound⟩ := h
  have fewer := consistent.written_length numbered.nodup
  omega

/-- Some run comes to its end. -/
lemma exists_stuck (created : Hashtable.create (fun _ => 0) 65536 = some cache) :
    ∃ actions s, run (Pipeline.step plat compressType room queueSize) (.start compressType cache chunks) actions = some s ∧
      ∀ a, s.step plat compressType room queueSize a = none := by
  by_contra going
  have longer (k : ℕ) : ∃ actions s, actions.length = k ∧
      run (Pipeline.step plat compressType room queueSize) (.start compressType cache chunks) actions = some s := by
    induction k with
    | zero => exact ⟨[], _, rfl, rfl⟩
    | succ k ih =>
      obtain ⟨actions, s, sized, reached⟩ := ih
      obtain ⟨a, moves⟩ : ∃ a, s.step plat compressType room queueSize a ≠ none := by
        by_contra stuck
        exact going ⟨actions, s, reached, fun a => not_not.mp fun moves => stuck ⟨a, moves⟩⟩
      obtain ⟨t, moves⟩ := Option.ne_none_iff_exists'.mp moves
      exact ⟨actions ++ [a], t, by rw [List.length_append, sized]; rfl, run_snoc.mpr ⟨s, reached, moves⟩⟩
  obtain ⟨actions, s, sized, reached⟩ := longer (5 * chunks.length + 1)
  obtain ⟨cache₀, created₀⟩ := create_cache
  have bounded := (reached_run numbered small apart compresses created created₀ reached).bounded numbered
  omega

end

/-- The chunks of the sample are numbered. -/
lemma sample_numbered : Numbered (parallelChunks sampleInput) := (parallelChunks_spec sampleInput).1

/-- The sample is one coarse chunk. -/
lemma sample_small : ∀ c ∈ parallelChunks sampleInput, c.sequence.l1num < 2048 :=
  fun _ mem => l1num_parallelChunks (by decide) mem

/-- What the chunks of the sample hold. -/
lemma chunk_sample {c : Chunk} (mem : c ∈ parallelChunks sampleInput) : c.chunk ∈ [zeros, zeros, abc] := by
  rw [parallelChunks_sample] at mem
  exact List.mem_map_of_mem (f := SeqChunk.chunk) mem

/-- SHA-1 tells the chunks of the sample apart. -/
lemma sample_sums : ∀ c ∈ parallelChunks sampleInput, ∀ d ∈ parallelChunks sampleInput,
    samplePlatform.sha1 c.chunk = samplePlatform.sha1 d.chunk → c.chunk = d.chunk :=
  fun _ mem _ mem' => sample_apart _ (chunk_sample mem) _ (chunk_sample mem')

/-- The chunks of the sample can be compressed. -/
lemma sample_data : ∀ c ∈ parallelChunks sampleInput,
    ∃ data, subCompress samplePlatform compressGzip c.chunk = some data :=
  fun _ mem => sample_compresses _ (chunk_sample mem)

/-- Some run of the pipeline of Encode over the sample comes to its end. -/
lemma sample_stuck : ∃ cache actions s, Hashtable.create (fun _ => 0) 65536 = some cache ∧
    run (Pipeline.step samplePlatform compressGzip 20 1048576) (.start compressGzip cache (parallelChunks sampleInput))
      actions = some s ∧
    ∀ a, s.step samplePlatform compressGzip 20 1048576 a = none := by
  have created : ∃ cache : Hashtable (List UInt8) Chunk, Hashtable.create (fun _ => 0) 65536 = some cache :=
    ⟨_, if_neg (by decide)⟩
  obtain ⟨cache, created⟩ := created
  obtain ⟨actions, s, ends⟩ := exists_stuck sample_numbered sample_small sample_sums sample_data created
  exact ⟨cache, actions, s, created, ends⟩

/-- However the threads interleave, no thread exits and no `assert` fails, there are at most five steps for each
    chunk, and the file is a beginning of the one that the serial encoder writes for the same chunks; when no thread
    can go on, it is that file, and `Reorder` has nothing left to flush. SHA-1 must tell the chunks apart, and the
    queue in front of `Reorder` must have room for all of them. -/
theorem pipeline_run {room queueSize : ℕ} (numbered : Numbered chunks)
    (small : ∀ c ∈ chunks, c.sequence.l1num < 2048)
    (apart : ∀ c ∈ chunks, ∀ d ∈ chunks, plat.sha1 c.chunk = plat.sha1 d.chunk → c.chunk = d.chunk)
    (compresses : ∀ c ∈ chunks, ∃ data, subCompress plat compressType c.chunk = some data)
    (created : Hashtable.create (fun _ => 0) 65536 = some cache)
    {cache₀ : Hashtable (List UInt8) (List UInt8)} (created₀ : Hashtable.create (fun _ => 0) 65536 = some cache₀)
    {actions : List PipelineAction}
    (h : run (Pipeline.step plat compressType room queueSize) (.start compressType cache chunks) actions = some s) :
    ∃ t, (chunks.map (·.chunk)).foldlM (archive plat compressType) (.start compressType cache₀) = some t ∧
      s.failed = false ∧ s.out <+: t.out ∧ actions.length ≤ 5 * chunks.length ∧
      (0 < room → chunks.length < queueSize → (∀ a, s.step plat compressType room queueSize a = none) →
        s.out = t.out ∧ s.reorder.flush 1 = some s.reorder) := by
  have reached := reached_run numbered small apart compresses created created₀ h
  obtain ⟨t, serial⟩ := foldlM_archive_total (List.forall_mem_map.mpr compresses) (.start compressType cache₀)
  refine ⟨t, serial, reached.failed, ?_, reached.bounded numbered, fun pos fewer stuck => ?_⟩
  · obtain ⟨_, _, written, t', consistent, _⟩ := reached
    obtain ⟨rest, all⟩ := consistent.written_prefix
    rw [← all, List.map_append, List.foldlM_append, consistent.archived.run] at serial
    rw [← consistent.out]
    exact foldlM_archive_prefix serial
  · obtain ⟨t', archived, out, flushed⟩ := reached.finished numbered pos fewer stuck
    obtain rfl := Option.some.inj (archived.run.symm.trans serial)
    exact ⟨out.symm, flushed⟩

/-- Three chunks, the second of which is a duplicate. -/
theorem pipeline_run_sample :
    ∃ cache cache₀ actions s t,
      run (Pipeline.step samplePlatform compressGzip 20 1048576)
        (.start compressGzip cache (parallelChunks sampleInput)) actions = some s ∧
      [zeros, zeros, abc].foldlM (archive samplePlatform compressGzip) (.start compressGzip cache₀) = some t ∧
      s.failed = false ∧ s.out = t.out := by
  obtain ⟨cache, actions, s, created, reached, stuck⟩ := sample_stuck
  obtain ⟨cache₀, created₀⟩ := create_cache
  obtain ⟨t, serial, ok, _, _, finished⟩ :=
    pipeline_run sample_numbered sample_small sample_sums sample_data created created₀ reached
  have fewer : (parallelChunks sampleInput).length < 1048576 := by
    rw [parallelChunks_sample]
    decide
  rw [parallelChunks_sample] at serial
  exact ⟨cache, cache₀, actions, s, t, reached, serial, ok, (finished (by decide) fewer stuck).1⟩

/-- In every run of the parallel encoder that cannot go on, the file decodes to the input. -/
theorem parallel_encode (zlib : plat.Zlib) {room queueSize : ℕ} {input : List UInt8} (short : input.length < intBound)
    (bounded : compressType = compressGzip → ∀ c ∈ parallelChunks input, c.chunk.length ≤ uncompressBound)
    (apart : ∀ c ∈ parallelChunks input, ∀ d ∈ parallelChunks input,
      plat.sha1 c.chunk = plat.sha1 d.chunk → c.chunk = d.chunk)
    (compresses : ∀ c ∈ parallelChunks input, ∃ data, subCompress plat compressType c.chunk = some data)
    (created : Hashtable.create (fun _ => 0) 65536 = some cache) (pos : 0 < room)
    (fewer : (parallelChunks input).length < queueSize) {actions : List PipelineAction}
    (h : run (Pipeline.step plat compressType room queueSize) (.start compressType cache (parallelChunks input)) actions =
      some s)
    (stuck : ∀ a, s.step plat compressType room queueSize a = none) :
    s.failed = false ∧ decode plat s.out = some input := by
  obtain ⟨numbered, flat, full⟩ := parallelChunks_spec input
  obtain ⟨cache₀, created₀⟩ := create_cache
  have reached := reached_run numbered (fun c mem => l1num_parallelChunks short mem) apart compresses created created₀ h
  refine ⟨reached.failed, ?_⟩
  obtain ⟨t, archived, out, _⟩ := reached.finished numbered pos fewer stuck
  rw [← out]
  have restores : ∀ c ∈ (parallelChunks input).map (·.chunk), Restores plat compressType c :=
    restores_all zlib (List.forall_mem_map.mpr full) (by rwa [flat])
      fun gzip => List.forall_mem_map.mpr (bounded gzip)
  have apart' : ∀ c ∈ (parallelChunks input).map (·.chunk), ∀ d ∈ (parallelChunks input).map (·.chunk),
      plat.sha1 c = plat.sha1 d → c = d :=
    List.forall_mem_map.mpr fun c mem => List.forall_mem_map.mpr fun d mem' => apart c mem d mem'
  rw [decode_archived created₀ restores archived.run, map_firstWith apart', flat]

/-- The same chunks, written and read back. -/
theorem parallel_encode_sample :
    ∃ cache actions s,
      run (Pipeline.step samplePlatform compressGzip 20 1048576)
        (.start compressGzip cache (parallelChunks sampleInput)) actions = some s ∧
      s.failed = false ∧ decode samplePlatform s.out = some sampleInput := by
  obtain ⟨cache, actions, s, created, reached, stuck⟩ := sample_stuck
  have short : sampleInput.length < intBound := by decide
  have fewer : (parallelChunks sampleInput).length < 1048576 := by
    rw [parallelChunks_sample]
    decide
  exact ⟨cache, actions, s, reached, parallel_encode samplePlatform_zlib short
    (fun _ c mem => sample_bounded _ (chunk_sample mem)) sample_sums sample_data created (by decide) fewer reached stuck⟩

end PromotionCache.Dedup
