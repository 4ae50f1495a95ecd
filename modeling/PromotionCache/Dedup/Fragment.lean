import PromotionCache.Dedup.ReorderSpec
import PromotionCache.Dedup.Segments

/-!
# The first two stages of the parallel encoder

`Fragment` and `FragmentRefine` of `dedup/encoder.c`. The first stage cuts the input into coarse chunks, none of which
is cut within its first `ANCHOR_JUMP` bytes, and numbers them; the second cuts each of these on its own, and numbers
the pieces. Whatever the size of the buffers, the pieces are those of `parallelChunks`, numbered in the order of the
input (`fragment_refine`).

`rf_win` is a global that nothing assigns, `rf_win_dataprocess` is assigned 0: both stages use a window of length 0.
The queues between the stages are in `Queue.lean`.
-/

namespace PromotionCache.Dedup
open Lib

/-- `ANCHOR_JUMP` -/
def anchorJump : ℕ := 2 * 1024 * 1024

/-- What the first stage makes of a coarse chunk. -/
structure CoarseChunk where
  l1num : ℕ
  data : List UInt8
deriving DecidableEq

/-- `anchorcount`, and the coarse chunks that have been sent. -/
structure Fragmenter where
  anchorcount : ℕ
  sent : List CoarseChunk

section
variable (tabs : Tables)

/-- The loop that cuts a buffer into coarse chunks, with a bound on its rounds, and what it leaves of the buffer. -/
def coarseLoop : ℕ → Fragmenter → CoarseChunk → Option (Fragmenter × CoarseChunk)
  | 0, _, _ => none
  | fuel + 1, s, chunk =>
    let n := chunk.data.length
    if anchorJump < n then
      let offset := rabinseg tabs (chunk.data.drop anchorJump) (toInt32 (n - anchorJump))
      if offset = 0 then none
      else
        let cut := ((offset + anchorJump) % 2 ^ 64).toNat
        if cut < n then
          coarseLoop fuel ⟨s.anchorcount + 1, s.sent ++ [⟨chunk.l1num, chunk.data.take cut⟩]⟩
            ⟨s.anchorcount, chunk.data.drop cut⟩
        else some (s, chunk)
    else some (s, chunk)

/-- `while (1)` of `Fragment`, with a bound on its rounds: `temp` is what the last round left, `input` what the
    preloading buffer still has. -/
def fragmentLoop (maxbuf : ℕ) : ℕ → Fragmenter → CoarseChunk → List UInt8 → Option (List CoarseChunk)
  | 0, _, _, _ => none
  | fuel + 1, s, temp, input =>
    let read := input.take maxbuf
    -- a new buffer takes the next number, an extended one keeps its own
    let chunk : CoarseChunk := if temp.data = [] then ⟨s.anchorcount, read⟩ else ⟨temp.l1num, temp.data ++ read⟩
    let s : Fragmenter := if temp.data = [] then ⟨s.anchorcount + 1, s.sent⟩ else s
    if chunk.data = [] then some s.sent
    else if read = [] then some (s.sent ++ [chunk])
    else do
      let (s, temp) ← coarseLoop tabs chunk.data.length s chunk
      fragmentLoop maxbuf fuel s temp (input.drop maxbuf)

/-- The loop of `FragmentRefine` over a coarse chunk, with a bound on its rounds. -/
def refineLoop : ℕ → ℕ → CoarseChunk → Option (List (SeqChunk (List UInt8)))
  | 0, _, _ => none
  | fuel + 1, chcount, chunk =>
    let offset := (rabinseg tabs chunk.data (toInt32 chunk.data.length) % 2 ^ 64).toNat
    if offset < chunk.data.length then do
      let rest ← refineLoop fuel (chcount + 1) ⟨chunk.l1num, chunk.data.drop offset⟩
      some (⟨⟨chunk.l1num, chcount⟩, false, chunk.data.take offset⟩ :: rest)
    else some [⟨⟨chunk.l1num, chcount⟩, true, chunk.data⟩]

end

/-- `Fragment` -/
def fragment (maxbuf : ℕ) (input : List UInt8) : Option (List CoarseChunk) :=
  fragmentLoop (rabininit 0) maxbuf (input.length + 2) ⟨0, []⟩ ⟨0, []⟩ input

/-- What `FragmentRefine` does with a coarse chunk. -/
def fragmentRefine (chunk : CoarseChunk) : Option (List (SeqChunk (List UInt8))) :=
  refineLoop (rabininit 0) chunk.data.length 0 chunk

/-- The length of the first coarse chunk of an input longer than `ANCHOR_JUMP`. -/
def coarseCut (p : List UInt8) : ℕ := anchorJump + cutAt 0 (p.drop anchorJump)

/-- The coarse chunks of an input. -/
def coarse (p : List UInt8) : List (List UInt8) :=
  if anchorJump < p.length ∧ coarseCut p < p.length then
    p.take (coarseCut p) :: coarse (p.drop (coarseCut p))
  else if p = [] then [] else [p]
termination_by p.length
decreasing_by
  have pos : 0 < anchorJump := by decide
  rw [List.length_drop]
  unfold coarseCut at *
  omega

/-- Coarse chunks, numbered from `l1num`. -/
def numberCoarse : ℕ → List (List UInt8) → List CoarseChunk
  | _, [] => []
  | l1num, p :: ps => ⟨l1num, p⟩ :: numberCoarse (l1num + 1) ps

/-- The pieces of a coarse chunk, numbered from `l2num`. -/
def numberFine (l1num : ℕ) : ℕ → List (List UInt8) → List (SeqChunk (List UInt8))
  | _, [] => []
  | l2num, [p] => [⟨⟨l1num, l2num⟩, true, p⟩]
  | l2num, p :: q :: ps => ⟨⟨l1num, l2num⟩, false, p⟩ :: numberFine l1num (l2num + 1) (q :: ps)

/-- The chunks of an input, as the parallel encoder cuts and numbers it. -/
def parallelChunks (input : List UInt8) : List (SeqChunk (List UInt8)) :=
  (numberCoarse 0 (coarse input)).flatMap fun c => numberFine c.l1num 0 (segments 0 c.data)

variable {p q : List UInt8} {k : ℕ}

/-- A coarse chunk ends at the first cut behind `ANCHOR_JUMP` bytes. -/
lemma coarse_cut (h : EndsAt 0 (p.drop anchorJump) k) (lt : anchorJump + k < p.length) :
    coarse p = p.take (anchorJump + k) :: coarse (p.drop (anchorJump + k)) := by
  have place : coarseCut p = anchorJump + k := by rw [coarseCut, h.cutAt]
  rw [coarse, place, if_pos ⟨by omega, lt⟩]

/-- An input without such a cut is one coarse chunk. -/
lemma coarse_whole (h : EndsAt 0 (p.drop anchorJump) (p.length - anchorJump)) (nonempty : p ≠ []) : coarse p = [p] := by
  have place : coarseCut p = anchorJump + (p.length - anchorJump) := by rw [coarseCut, h.cutAt]
  rw [coarse, place, if_neg (by omega), if_neg nonempty]

/-- So is a short input. -/
lemma coarse_short (short : p.length ≤ anchorJump) (nonempty : p ≠ []) : coarse p = [p] := by
  rw [coarse, if_neg (by omega), if_neg nonempty]

/-- An empty input has no chunk. -/
lemma coarse_nil : coarse [] = [] := by
  rw [coarse, if_neg fun inside => absurd inside.1 (Nat.not_lt_zero _), if_pos rfl]

/-- An input is one coarse chunk, or is cut behind the first `ANCHOR_JUMP` bytes. -/
lemma coarse_cases (nonempty : p ≠ []) : coarse p = [p] ∨
    ∃ k, EndsAt 0 (p.drop anchorJump) k ∧ nwindow ≤ k ∧ anchorJump + k < p.length := by
  by_cases short : p.length ≤ anchorJump
  · exact .inl (coarse_short short nonempty)
  · obtain ⟨k, h⟩ := exists_endsAt 0 (p.drop anchorJump)
    have le := h.le
    rw [List.length_drop] at le
    rcases Nat.lt_or_eq_of_le le with lt | eq
    · exact .inr ⟨k, h, h.window_le (by rw [List.length_drop]; omega), by omega⟩
    · exact .inl (coarse_whole (eq ▸ h) nonempty)

/-- The coarse chunks make up the input, none is empty, and all but the last are longer than `ANCHOR_JUMP`. -/
lemma coarse_spec (p : List UInt8) :
    (coarse p).flatten = p ∧ (∀ c ∈ coarse p, c ≠ []) ∧ ∀ c ∈ (coarse p).dropLast, anchorJump + nwindow ≤ c.length := by
  induction n : p.length using Nat.strongRecOn generalizing p with
  | _ n ih =>
    by_cases nonempty : p = []
    · rw [nonempty, coarse_nil]
      exact ⟨rfl, fun _ => nofun, fun _ => nofun⟩
    · rcases coarse_cases nonempty with whole | ⟨k, h, window, lt⟩
      · rw [whole]
        refine ⟨List.flatten_singleton, fun c mem => ?_, fun _ => nofun⟩
        rw [List.mem_singleton.mp mem]
        exact nonempty
      · have positive : 0 < nwindow := by decide
        obtain ⟨flat, full, long⟩ := ih _ (by rw [List.length_drop]; omega) (p := p.drop (anchorJump + k)) rfl
        have sized : (p.take (anchorJump + k)).length = anchorJump + k := by
          rw [List.length_take]
          omega
        rw [coarse_cut h lt]
        refine ⟨by rw [List.flatten_cons, flat, List.take_append_drop], fun c mem => ?_, fun c mem => ?_⟩
        · rcases List.mem_cons.mp mem with rfl | mem
          · exact List.ne_nil_of_length_pos (by omega)
          · exact full c mem
        · cases rest : coarse (p.drop (anchorJump + k)) with
          | nil =>
            rw [rest] at mem
            cases mem
          | cons d ds =>
            rw [rest, List.dropLast_cons_cons, List.mem_cons, ← rest] at mem
            rcases mem with rfl | mem
            · omega
            · exact long c mem

/-- There are no more coarse chunks than pieces of `ANCHOR_JUMP` bytes, and one. -/
lemma coarse_length (p : List UInt8) : (coarse p).length * anchorJump ≤ p.length + anchorJump := by
  induction n : p.length using Nat.strongRecOn generalizing p with
  | _ n ih =>
    by_cases nonempty : p = []
    · rw [nonempty, coarse_nil]
      simp
    · rcases coarse_cases nonempty with whole | ⟨k, h, window, lt⟩
      · rw [whole, List.length_singleton]
        omega
      · have positive : 0 < nwindow := by decide
        have dropped : (p.drop (anchorJump + k)).length = p.length - (anchorJump + k) := List.length_drop
        have rest := ih _ (by omega) (p.drop (anchorJump + k)) rfl
        rw [coarse_cut h lt, List.length_cons, Nat.add_mul]
        omega

/-- The sequence number after some chunks of which the first has the number `s`. -/
def afterFrom (s : Sequence) (chunks : List (SeqChunk (List UInt8))) : Sequence :=
  (chunks.getLast?.map SeqChunk.after).getD s

/-- The chunks are numbered one after the other, from `s` on. -/
def NumberedFrom : Sequence → List (SeqChunk (List UInt8)) → Prop
  | _, [] => True
  | s, c :: cs => c.sequence = s ∧ NumberedFrom c.after cs

/-- The number behind some chunks is that of the last one. -/
lemma afterFrom_cons (s : Sequence) (c : SeqChunk (List UInt8)) (cs : List (SeqChunk (List UInt8))) :
    afterFrom s (c :: cs) = afterFrom c.after cs := by
  unfold afterFrom
  cases cs with
  | nil => rfl
  | cons d ds => rw [List.getLast?_cons_cons, List.getLast?_eq_some_getLast (List.cons_ne_nil d ds)]; rfl

/-- Numbered chunks, followed by chunks numbered from there on. -/
lemma NumberedFrom.append {s : Sequence} {xs ys : List (SeqChunk (List UInt8))} (h : NumberedFrom s xs)
    (h' : NumberedFrom (afterFrom s xs) ys) : NumberedFrom s (xs ++ ys) := by
  induction xs generalizing s with
  | nil => exact h'
  | cons c cs ih =>
    rw [afterFrom_cons] at h'
    exact ⟨h.1, ih h.2 h'⟩

/-- Every chunk has the number behind those before it. -/
lemma NumberedFrom.sequence_eq {s : Sequence} {chunks before : List (SeqChunk (List UInt8))}
    {c : SeqChunk (List UInt8)} (h : NumberedFrom s chunks) (pre : before ++ [c] <+: chunks) :
    c.sequence = afterFrom s before := by
  induction before generalizing s chunks with
  | nil =>
    obtain ⟨rest, rfl⟩ := pre
    exact h.1
  | cons d ds ih =>
    obtain ⟨rest, rfl⟩ := pre
    rw [afterFrom_cons]
    exact ih h.2 ⟨rest, rfl⟩

/-- Chunks numbered from the first number on. -/
lemma NumberedFrom.numbered {chunks : List (SeqChunk (List UInt8))} (h : NumberedFrom ⟨0, 0⟩ chunks) : Numbered chunks :=
  fun _ _ pre => h.sequence_eq pre

/-- The pieces of a coarse chunk: the number after them is that of the next coarse chunk. -/
lemma numberFine_spec (l1num l2num : ℕ) {ps : List (List UInt8)} (nonempty : ps ≠ []) :
    NumberedFrom ⟨l1num, l2num⟩ (numberFine l1num l2num ps) ∧
      afterFrom ⟨l1num, l2num⟩ (numberFine l1num l2num ps) = ⟨l1num + 1, 0⟩ ∧
      (numberFine l1num l2num ps).map (·.chunk) = ps := by
  induction ps generalizing l2num with
  | nil => exact absurd rfl nonempty
  | cons p ps ih =>
    cases ps with
    | nil => exact ⟨⟨rfl, trivial⟩, rfl, rfl⟩
    | cons q ps =>
      obtain ⟨numbered, after, data⟩ := ih (l2num + 1) (List.cons_ne_nil q ps)
      rw [numberFine]
      refine ⟨⟨rfl, numbered⟩, ?_, ?_⟩
      · rw [afterFrom_cons]
        exact after
      · rw [List.map_cons, data]

/-- The coarse chunks of two parts are numbered one after the other. -/
lemma numberCoarse_append (l1num : ℕ) (ps qs : List (List UInt8)) :
    numberCoarse l1num (ps ++ qs) = numberCoarse l1num ps ++ numberCoarse (l1num + ps.length) qs := by
  induction ps generalizing l1num with
  | nil => rfl
  | cons p ps ih =>
    have shift : l1num + 1 + ps.length = l1num + (p :: ps).length := by
      rw [List.length_cons]
      omega
    rw [List.cons_append, numberCoarse, ih, shift]
    rfl

/-- Numbering changes no data. -/
lemma numberCoarse_data (l1num : ℕ) (ps : List (List UInt8)) : (numberCoarse l1num ps).map (·.data) = ps := by
  induction ps generalizing l1num with
  | nil => rfl
  | cons p ps ih => rw [numberCoarse, List.map_cons, ih]

/-- All chunks, from the coarse chunk numbered `l1num` on. -/
lemma numbered_flatMap (l1num : ℕ) {ps : List (List UInt8)} (nonempty : ∀ p ∈ ps, p ≠ []) :
    let chunks := (numberCoarse l1num ps).flatMap fun c => numberFine c.l1num 0 (segments 0 c.data)
    NumberedFrom ⟨l1num, 0⟩ chunks ∧ chunks.map (·.chunk) = ps.flatMap (segments 0) := by
  intro chunks
  induction ps generalizing l1num with
  | nil => exact ⟨trivial, rfl⟩
  | cons p ps ih =>
    have some : segments 0 p ≠ [] := fun none => nonempty p List.mem_cons_self (by
      have flat := segments_flatten 0 p
      rw [none] at flat
      exact flat.symm)
    obtain ⟨numbered, after, data⟩ := numberFine_spec l1num 0 some
    obtain ⟨numbered', data'⟩ := ih (l1num + 1) fun q mem => nonempty q (List.mem_cons_of_mem p mem)
    have split : chunks = numberFine l1num 0 (segments 0 p) ++
        (numberCoarse (l1num + 1) ps).flatMap fun c => numberFine c.l1num 0 (segments 0 c.data) := List.flatMap_cons
    rw [split]
    exact ⟨numbered.append (after ▸ numbered'), by rw [List.map_append, data, data', List.flatMap_cons]⟩

/-- The pieces of a coarse chunk have its number. -/
lemma l1num_numberFine {l1num l2num : ℕ} {ps : List (List UInt8)} {c : SeqChunk (List UInt8)}
    (mem : c ∈ numberFine l1num l2num ps) : c.sequence.l1num = l1num := by
  induction ps generalizing l2num with
  | nil => cases mem
  | cons p ps ih =>
    cases ps with
    | nil => rw [List.mem_singleton.mp mem]
    | cons q ps =>
      rcases List.mem_cons.mp mem with rfl | mem
      · rfl
      · exact ih mem

/-- The numbers of the coarse chunks are below how many they are. -/
lemma l1num_numberCoarse {l1num : ℕ} {ps : List (List UInt8)} {c : CoarseChunk} (mem : c ∈ numberCoarse l1num ps) :
    c.l1num < l1num + ps.length := by
  induction ps generalizing l1num with
  | nil => cases mem
  | cons p ps ih =>
    rw [List.length_cons]
    rcases List.mem_cons.mp mem with rfl | mem
    · exact Nat.lt_add_of_pos_right (Nat.succ_pos _)
    · have := ih mem
      omega

/-- The coarse chunks of an input are few. -/
lemma l1num_parallelChunks {input : List UInt8} (short : input.length < intBound) {c : SeqChunk (List UInt8)}
    (mem : c ∈ parallelChunks input) : c.sequence.l1num < 2048 := by
  obtain ⟨d, inside, mem⟩ := List.mem_flatMap.mp mem
  have bound := l1num_numberCoarse inside
  have few := coarse_length input
  rw [l1num_numberFine mem]
  unfold anchorJump at few
  unfold intBound at short
  omega

/-- The chunks are numbered, make up the input, and are not empty. -/
lemma parallelChunks_spec (input : List UInt8) :
    Numbered (parallelChunks input) ∧ ((parallelChunks input).map (·.chunk)).flatten = input ∧
      ∀ c ∈ parallelChunks input, c.chunk ≠ [] := by
  obtain ⟨flat, full, _⟩ := coarse_spec input
  obtain ⟨numbered, data⟩ := numbered_flatMap 0 full
  have data : (parallelChunks input).map (·.chunk) = (coarse input).flatMap (segments 0) := data
  refine ⟨NumberedFrom.numbered numbered, ?_, fun c mem => ?_⟩
  · rw [data, List.flatMap_def, List.flatten_flatten, List.map_map]
    have own : (List.flatten ∘ segments 0) = id := funext fun p => segments_flatten 0 p
    rw [own, List.map_id, flat]
  · have mem := List.mem_map_of_mem (f := (·.chunk)) mem
    rw [data] at mem
    obtain ⟨p, _, mem⟩ := List.mem_flatMap.mp mem
    exact segments_nonempty mem

/-- What the loop makes of a buffer, in front of whatever the input still has. -/
lemma coarseLoop_eq {fuel : ℕ} (nonempty : p ≠ []) (short : p.length < intBound) (enough : p.length ≤ fuel) :
    ∃ cs rest, (∀ q, coarse (p ++ q) = cs ++ coarse (rest ++ q)) ∧ coarse rest = [rest] ∧ rest ≠ [] ∧
      rest.length ≤ p.length ∧
      ∀ l1num sent, coarseLoop (rabininit 0) fuel ⟨l1num + 1, sent⟩ ⟨l1num, p⟩ =
        some (⟨l1num + cs.length + 1, sent ++ numberCoarse l1num cs⟩, ⟨l1num + cs.length, rest⟩) := by
  induction fuel generalizing p with
  | zero => exact absurd (List.length_pos_iff.mpr nonempty) (by omega)
  | succ fuel ih =>
    have jump : anchorJump = 2097152 := rfl
    by_cases small : p.length ≤ anchorJump
    · refine ⟨[], p, fun _ => rfl, coarse_short small nonempty, nonempty, Nat.le_refl _, fun l1num sent => ?_⟩
      rw [coarseLoop]
      simp only
      rw [if_neg (by omega)]
      simp [numberCoarse]
    · obtain ⟨k, h⟩ := exists_endsAt 0 (p.drop anchorJump)
      have behind : (p.drop anchorJump).length = p.length - anchorJump := List.length_drop
      have le := h.le
      have window := h.window
      rw [behind] at le window
      unfold nwindow at window
      have behind' : ((p.length : ℤ) - anchorJump) = ((p.drop anchorJump).length : ℤ) := by omega
      have offset : rabinseg (rabininit 0) (p.drop anchorJump) (toInt32 ((p.length : ℤ) - anchorJump)) = k := by
        rw [behind', toInt32_of_lt (by omega)]
        exact h.rabinseg
      have value : (((k : ℤ) + anchorJump) % 2 ^ 64).toNat = anchorJump + k := by
        unfold intBound at short
        omega
      have round (l1num : ℕ) (sent : List CoarseChunk) :
          coarseLoop (rabininit 0) (fuel + 1) ⟨l1num + 1, sent⟩ ⟨l1num, p⟩ =
            if anchorJump + k < p.length then
              coarseLoop (rabininit 0) fuel ⟨l1num + 2, sent ++ [⟨l1num, p.take (anchorJump + k)⟩]⟩
                ⟨l1num + 1, p.drop (anchorJump + k)⟩
            else some (⟨l1num + 1, sent⟩, ⟨l1num, p⟩) := by
        rw [coarseLoop]
        simp only
        rw [if_pos (by omega), offset, value, if_neg (by omega)]
      rcases Nat.lt_or_eq_of_le le with lt | eq
      · have shorter : (p.drop (anchorJump + k)).length = p.length - (anchorJump + k) := List.length_drop
        obtain ⟨cs, rest, cut, whole, full, bound, loop⟩ :=
          ih (p := p.drop (anchorJump + k)) (List.ne_nil_of_length_pos (by omega)) (by omega) (by omega)
        refine ⟨p.take (anchorJump + k) :: cs, rest, fun q => ?_, whole, full, by omega, fun l1num sent => ?_⟩
        · have extended : EndsAt 0 ((p ++ q).drop anchorJump) k := by
            rw [List.drop_append_of_le_length (by omega)]
            exact h.extend (by omega) q
          rw [coarse_cut extended (by rw [List.length_append]; omega), List.take_append_of_le_length (by omega),
            List.drop_append_of_le_length (by omega), cut, List.cons_append]
        · rw [round, if_pos (by omega), loop, numberCoarse, List.append_assoc, List.singleton_append, List.length_cons]
          have shift : l1num + 1 + cs.length = l1num + (cs.length + 1) := by omega
          rw [shift]
      · refine ⟨[], p, fun _ => rfl, coarse_whole (eq ▸ h) nonempty, nonempty, Nat.le_refl _, fun l1num sent => ?_⟩
        rw [round, if_neg (by omega)]
        simp [numberCoarse]

/-- A buffer that has been filled from what the last round left, and the number it has. -/
lemma fragmentLoop_eq {fuel size l1num : ℕ} {sent : List CoarseChunk} {temp input : List UInt8} (pos : 0 < size)
    (short : temp.length + input.length < intBound) (whole : temp ≠ [] → coarse temp = [temp])
    (enough : input.length < fuel) :
    fragmentLoop (rabininit 0) size fuel ⟨if temp = [] then l1num else l1num + 1, sent⟩ ⟨l1num, temp⟩ input =
      some (sent ++ numberCoarse l1num (coarse (temp ++ input))) := by
  induction fuel generalizing l1num sent temp input with
  | zero => exact absurd enough (Nat.not_lt_zero _)
  | succ fuel ih =>
    have round : fragmentLoop (rabininit 0) size (fuel + 1) ⟨if temp = [] then l1num else l1num + 1, sent⟩
        ⟨l1num, temp⟩ input =
          if temp ++ input.take size = [] then some sent
          else if input.take size = [] then some (sent ++ [⟨l1num, temp ++ input.take size⟩])
          else (coarseLoop (rabininit 0) (temp ++ input.take size).length ⟨l1num + 1, sent⟩
            ⟨l1num, temp ++ input.take size⟩).bind fun (s, temp) =>
              fragmentLoop (rabininit 0) size fuel s temp (input.drop size) := by
      by_cases empty : temp = []
      · subst empty
        rfl
      · rw [fragmentLoop]
        simp only [if_neg empty]
        rfl
    rw [round]
    by_cases empty : temp ++ input.take size = []
    · obtain ⟨noTemp, noRead⟩ := List.append_eq_nil_iff.mp empty
      have noInput : input = [] := (List.take_eq_nil_iff.mp noRead).resolve_left (Nat.ne_of_gt pos)
      rw [if_pos empty, noTemp, noInput, List.append_nil, coarse_nil, numberCoarse, List.append_nil]
    · rw [if_neg empty]
      by_cases noRead : input.take size = []
      · have noInput : input = [] := (List.take_eq_nil_iff.mp noRead).resolve_left (Nat.ne_of_gt pos)
        rw [noRead, List.append_nil] at empty
        rw [if_pos noRead, noRead, noInput, List.append_nil, whole empty]
        rfl
      · rw [if_neg noRead]
        have taken : (input.take size).length ≤ input.length := List.length_take_le' _ _
        have dropped : (input.take size).length + (input.drop size).length = input.length := by
          rw [← List.length_append, List.take_append_drop]
        have positive := List.length_pos_iff.mpr noRead
        have total : (temp ++ input.take size).length = temp.length + (input.take size).length := List.length_append
        obtain ⟨cs, rest, cut, whole', full, bound, loop⟩ := coarseLoop_eq empty (by omega) (Nat.le_refl _)
        have joined : temp ++ input = temp ++ input.take size ++ input.drop size := by
          rw [List.append_assoc, List.take_append_drop]
        have next : fragmentLoop (rabininit 0) size fuel
            ⟨if rest = [] then l1num + cs.length else l1num + cs.length + 1, sent ++ numberCoarse l1num cs⟩
            ⟨l1num + cs.length, rest⟩ (input.drop size) = _ := ih (by omega) (fun _ => whole') (by omega)
        rw [if_neg full] at next
        rw [loop, Option.bind_some, joined, cut, numberCoarse_append, ← List.append_assoc]
        exact next

/-- The second stage cuts a coarse chunk as the serial encoder would cut it. -/
lemma refineLoop_eq {fuel l1num l2num : ℕ} (nonempty : p ≠ []) (short : p.length < intBound) (enough : p.length ≤ fuel) :
    refineLoop (rabininit 0) fuel l2num ⟨l1num, p⟩ = some (numberFine l1num l2num (segments 0 p)) := by
  induction fuel generalizing p l2num with
  | zero => exact absurd (List.length_pos_iff.mpr nonempty) (by omega)
  | succ fuel ih =>
    obtain ⟨k, h⟩ := exists_endsAt 0 p
    have offset : rabinseg (rabininit 0) p (toInt32 p.length) = k := by
      rw [toInt32_of_lt short]
      exact h.rabinseg
    have window := h.window
    have le := h.le
    unfold nwindow at window
    have value : ((k : ℤ) % 2 ^ 64).toNat = k := by
      unfold intBound at short
      omega
    rw [refineLoop]
    simp only [offset, value]
    have positive := List.length_pos_iff.mpr nonempty
    rcases Nat.lt_or_eq_of_le le with lt | eq
    · have shorter : (p.drop k).length = p.length - k := List.length_drop
      have some' : p.drop k ≠ [] := List.ne_nil_of_length_pos (by omega)
      rw [if_pos lt, ih some' (by omega) (by omega), segments_cut h lt]
      cases rest : segments 0 (p.drop k) with
      | nil =>
        have flat := segments_flatten 0 (p.drop k)
        rw [rest] at flat
        exact absurd flat.symm some'
      | cons d ds => rfl
    · rw [if_neg (by omega), segments_whole (eq ▸ h), if_neg nonempty]
      rfl

/-- A map that never fails. -/
lemma mapM_some {α β : Type*} {f : α → Option β} {g : α → β} {as : List α} (h : ∀ a ∈ as, f a = some (g a)) :
    as.mapM f = some (as.map g) := by
  induction as with
  | nil => rfl
  | cons a as ih =>
    rw [List.mapM_cons, h a List.mem_cons_self, ih fun b mem => h b (List.mem_cons_of_mem a mem)]
    rfl

/-- The first stage cuts and numbers the coarse chunks, whatever the size of its buffer. -/
lemma fragment_eq {size : ℕ} (pos : 0 < size) {input : List UInt8} (short : input.length < intBound) :
    fragment size input = some (numberCoarse 0 (coarse input)) := by
  have start : ([] : List UInt8) ≠ [] → coarse [] = [[]] := fun some => (some rfl).elim
  exact fragmentLoop_eq pos (by rw [List.length_nil]; omega) start (by omega)

/-- The second stage cuts them all. -/
lemma refine_eq {input : List UInt8} (short : input.length < intBound) :
    (numberCoarse 0 (coarse input)).mapM fragmentRefine =
      some ((numberCoarse 0 (coarse input)).map fun c => numberFine c.l1num 0 (segments 0 c.data)) := by
  refine mapM_some fun c mem => ?_
  have mem : c.data ∈ coarse input := numberCoarse_data 0 (coarse input) ▸ List.mem_map_of_mem mem
  obtain ⟨flat, full, _⟩ := coarse_spec input
  have le : c.data.length ≤ input.length := by
    conv_rhs => rw [← flat]
    exact (List.sublist_flatten_of_mem mem).length_le
  exact refineLoop_eq (full _ mem) (by omega) (Nat.le_refl _)

/-- Whatever the size of the buffers, the two stages cut the input into the same chunks, which make it up, are not
    empty, and are numbered in their order; all coarse chunks but the last are longer than `ANCHOR_JUMP`. -/
theorem fragment_refine {size : ℕ} (pos : 0 < size) {input : List UInt8} (short : input.length < intBound) :
    ∃ chunks fine, fragment size input = some chunks ∧ chunks.mapM fragmentRefine = some fine ∧
      fine.flatten = parallelChunks input ∧ Numbered fine.flatten ∧
      (fine.flatten.map (·.chunk)).flatten = input ∧ (∀ c ∈ fine.flatten, c.chunk ≠ []) ∧
      ∀ c ∈ chunks.dropLast, anchorJump + nwindow ≤ c.data.length := by
  obtain ⟨numbered, flat, full⟩ := parallelChunks_spec input
  have joined : ((numberCoarse 0 (coarse input)).map fun c => numberFine c.l1num 0 (segments 0 c.data)).flatten =
      parallelChunks input := rfl
  refine ⟨_, _, fragment_eq pos short, refine_eq short, joined, joined ▸ numbered, joined ▸ flat, joined ▸ full,
    fun c mem => ?_⟩
  have mem : c.data ∈ ((numberCoarse 0 (coarse input)).map (·.data)).dropLast := by
    rw [← List.map_dropLast]
    exact List.mem_map_of_mem mem
  rw [numberCoarse_data] at mem
  exact (coarse_spec input).2.2 _ mem

/-- The sample is one coarse chunk of three pieces. -/
lemma parallelChunks_sample :
    parallelChunks sampleInput = [⟨⟨0, 0⟩, false, zeros⟩, ⟨⟨0, 1⟩, false, zeros⟩, ⟨⟨0, 2⟩, true, abc⟩] := by
  have one : coarse sampleInput = [sampleInput] := coarse_short (by decide) (List.cons_ne_nil _ _)
  rw [parallelChunks, one, numberCoarse, numberCoarse, List.flatMap_cons, segments_sample]
  rfl

/-- The sample, read in pieces of 40 bytes. -/
theorem fragment_refine_sample :
    ∃ chunks fine, fragment 40 sampleInput = some chunks ∧ chunks.mapM fragmentRefine = some fine ∧
      fine.flatten = [⟨⟨0, 0⟩, false, zeros⟩, ⟨⟨0, 1⟩, false, zeros⟩, ⟨⟨0, 2⟩, true, abc⟩] ∧ Numbered fine.flatten := by
  have short : sampleInput.length < intBound := by decide
  obtain ⟨chunks, fine, fragmented, refined, eq, numbered, _⟩ := fragment_refine (by decide : 0 < 40) short
  exact ⟨chunks, fine, fragmented, refined, eq.trans parallelChunks_sample, numbered⟩

end PromotionCache.Dedup
