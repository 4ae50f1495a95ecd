import PromotionCache.Dedup.Encoder

/-!
# Where the encoder cuts

The chunks that the encoder archives are those into which `rabinseg` cuts the whole input (`segments`), whatever the
size of its buffer (`readLoop_eq`): a place found in a buffer is found in everything that starts with it
(`EndsAt.extend`), and what the loop leaves of a buffer is cut where the longer buffer is.
-/

namespace PromotionCache.Dedup
open Lib

/-- The length of the first chunk of an input, cut with a window of `winlen`. -/
@[irreducible] def cutAt (winlen : ℤ) (p : List UInt8) : ℕ := (rabinseg (rabininit winlen) p p.length).toNat

/-- The chunks of an input. -/
def segments (winlen : ℤ) (p : List UInt8) : List (List UInt8) :=
  if 0 < cutAt winlen p ∧ cutAt winlen p < p.length then
    p.take (cutAt winlen p) :: segments winlen (p.drop (cutAt winlen p))
  else if p = [] then [] else [p]
termination_by p.length
decreasing_by
  rw [List.length_drop]
  omega

variable {plat : Platform} {compressType k : ℕ} {winlen : ℤ} {p q : List UInt8} {s : Encoder}

/-- A chunk that is cut has the length of the window. -/
lemma EndsAt.window_le (h : EndsAt winlen p k) (lt : k < p.length) : nwindow ≤ k := by
  have := h.window
  omega

/-- What is tested depends on the bytes before. -/
lemma tested_append (le : k ≤ p.length) : tested winlen (p ++ q) k = tested winlen p k := by
  rw [tested, tested, List.take_append_of_le_length le, List.take_append_of_le_length (by omega)]

/-- A place that is found in a buffer is found in everything that starts with it. -/
lemma EndsAt.extend (h : EndsAt winlen p k) (lt : k < p.length) (q : List UInt8) : EndsAt winlen (p ++ q) k where
  le := by
    rw [List.length_append]
    omega
  window := (Nat.min_le_left _ _).trans (h.window_le lt)
  first j le below cut := by
    unfold IsCut at cut
    rw [tested_append (by omega)] at cut
    exact h.first j le below cut
  cut _ := by
    unfold IsCut
    rw [tested_append lt.le]
    exact h.cut lt

/-- `rabinseg` returns the end. -/
lemma EndsAt.rabinseg (h : EndsAt winlen p k) : rabinseg (rabininit winlen) p p.length = k :=
  let ⟨_, eq, ends⟩ := rabinseg_spec winlen p
  eq.trans (congrArg _ (ends.unique h))

/-- The first chunk goes up to its end. -/
lemma EndsAt.cutAt (h : EndsAt winlen p k) : cutAt winlen p = k := by
  unfold Dedup.cutAt
  rw [h.rabinseg, Int.toNat_natCast]

/-- The first chunk, and then those of the rest. -/
lemma segments_cut (h : EndsAt winlen p k) (lt : k < p.length) :
    segments winlen p = p.take k :: segments winlen (p.drop k) := by
  have positive : 0 < k := Nat.lt_of_lt_of_le (by decide) (h.window_le lt)
  rw [segments, h.cutAt, if_pos ⟨positive, lt⟩]

/-- An input without a cut is one chunk. -/
lemma segments_whole (h : EndsAt winlen p p.length) : segments winlen p = if p = [] then [] else [p] := by
  rw [segments, h.cutAt, if_neg fun inside => Nat.lt_irrefl _ inside.2]

/-- An input has a first chunk. -/
lemma exists_endsAt (winlen : ℤ) (p : List UInt8) : ∃ k, EndsAt winlen p k := by
  obtain ⟨k, _, h⟩ := rabinseg_spec winlen p
  exact ⟨k, h⟩

/-- An input shorter than the window is one chunk. -/
lemma segments_short (nonempty : p ≠ []) (short : p.length < nwindow) : segments winlen p = [p] := by
  have whole : EndsAt winlen p p.length :=
    ⟨Nat.le_refl _, Nat.min_le_right _ _, fun j le lt => by omega, fun lt => absurd lt (Nat.lt_irrefl _)⟩
  rw [segments_whole whole, if_neg nonempty]

/-- The chunks make up the input. -/
lemma segments_flatten (winlen : ℤ) (p : List UInt8) : (segments winlen p).flatten = p := by
  induction n : p.length using Nat.strongRecOn generalizing p with
  | _ n ih =>
    obtain ⟨k, h⟩ := exists_endsAt winlen p
    rcases Nat.lt_or_eq_of_le h.le with lt | eq
    · have window := h.window_le lt
      unfold nwindow at window
      rw [segments_cut h lt, List.flatten_cons, ih _ (by rw [List.length_drop]; omega) _ rfl, List.take_append_drop]
    · rw [segments_whole (eq ▸ h)]
      split
      case isTrue empty => rw [empty, List.flatten_nil]
      case isFalse => rw [List.flatten_singleton]

/-- No chunk is empty. -/
lemma segments_nonempty {c : List UInt8} (mem : c ∈ segments winlen p) : c ≠ [] := by
  induction n : p.length using Nat.strongRecOn generalizing p with
  | _ n ih =>
    obtain ⟨k, h⟩ := exists_endsAt winlen p
    rcases Nat.lt_or_eq_of_le h.le with lt | eq
    · have window := h.window_le lt
      unfold nwindow at window
      rw [segments_cut h lt] at mem
      rcases List.mem_cons.mp mem with rfl | mem
      · refine List.ne_nil_of_length_pos ?_
        rw [List.length_take]
        omega
      · exact ih _ (by rw [List.length_drop]; omega) mem rfl
    · rw [segments_whole (eq ▸ h)] at mem
      split at mem
      case isTrue => cases mem
      case isFalse nonempty =>
        rw [List.mem_singleton.mp mem]
        exact nonempty

/-- What the loop makes of a buffer, in front of whatever the input still has. -/
lemma splitLoop_eq {fuel : ℕ} (nonempty : p ≠ []) (short : p.length < intBound) (enough : p.length ≤ fuel) :
    ∃ cs rest, (∀ q, segments 0 (p ++ q) = cs ++ segments 0 (rest ++ q)) ∧ EndsAt 0 rest rest.length ∧
      rest.length ≤ p.length ∧
      ∀ s, splitLoop plat compressType (rabininit 0) fuel s p =
        (cs.foldlM (archive plat compressType) s).map (·, rest) := by
  induction fuel generalizing p with
  | zero => exact absurd (List.length_pos_iff.mpr nonempty) (by omega)
  | succ fuel ih =>
    have positive := List.length_pos_iff.mpr nonempty
    obtain ⟨k, h⟩ := exists_endsAt 0 p
    have offset : rabinseg (rabininit 0) p (toInt32 p.length) = k := by
      rw [toInt32_of_lt short]
      exact h.rabinseg
    have window := h.window
    have le := h.le
    unfold nwindow at window
    have value : ((k : ℤ) % 2 ^ 64).toNat = k := by
      unfold intBound at short
      omega
    have round (s : Encoder) : splitLoop plat compressType (rabininit 0) (fuel + 1) s p =
        if k < p.length then
          (archive plat compressType s (p.take k)).bind fun s =>
            splitLoop plat compressType (rabininit 0) fuel s (p.drop k)
        else some (s, p) := by
      rw [splitLoop]
      simp only [offset, value]
      rw [if_neg (by omega)]
      rfl
    rcases Nat.lt_or_eq_of_le le with lt | eq
    · have shorter : (p.drop k).length = p.length - k := List.length_drop
      obtain ⟨cs, rest, cut, whole, bound, loop⟩ :=
        ih (p := p.drop k) (List.ne_nil_of_length_pos (by omega)) (by omega) (by omega)
      refine ⟨p.take k :: cs, rest, fun q => ?_, whole, by omega, fun s => ?_⟩
      · have longer : k < (p ++ q).length := by
          rw [List.length_append]
          omega
        rw [segments_cut (h.extend lt q) longer, List.take_append_of_le_length le, List.drop_append_of_le_length le,
          cut, List.cons_append]
      · rw [round, if_pos lt, List.foldlM_cons]
        cases archive plat compressType s (p.take k) with
        | none => rfl
        | some s' => exact loop s'
    · refine ⟨[], p, fun q => rfl, eq ▸ h, Nat.le_refl _, fun s => ?_⟩
      rw [round, if_neg (by omega)]
      rfl

/-- The loop archives the chunks of what it has left and what it still reads. -/
lemma readLoop_eq {fuel size : ℕ} {temp input : List UInt8} (pos : 0 < size)
    (short : temp.length + input.length < intBound) (whole : EndsAt 0 temp temp.length)
    (enough : input.length < fuel) :
    readLoop plat compressType (rabininit 0) size fuel s temp input =
      (segments 0 (temp ++ input)).foldlM (archive plat compressType) s := by
  induction fuel generalizing s temp input with
  | zero => exact absurd enough (Nat.not_lt_zero _)
  | succ fuel ih =>
    unfold readLoop
    simp only
    by_cases empty : temp ++ input.take size = []
    · obtain ⟨noTemp, noRead⟩ := List.append_eq_nil_iff.mp empty
      have noInput : input = [] := (List.take_eq_nil_iff.mp noRead).resolve_left (Nat.ne_of_gt pos)
      rw [if_pos empty, noTemp, noInput, List.append_nil]
      rw [noTemp] at whole
      rw [segments_whole whole]
      rfl
    · rw [if_neg empty]
      by_cases noRead : input.take size = []
      · have noInput : input = [] := (List.take_eq_nil_iff.mp noRead).resolve_left (Nat.ne_of_gt pos)
        rw [noRead, List.append_nil] at empty
        rw [if_pos noRead, noRead, noInput, List.append_nil, segments_whole whole, if_neg empty, List.foldlM_cons]
        exact (bind_pure _).symm
      · rw [if_neg noRead]
        have taken : (input.take size).length ≤ input.length := List.length_take_le' _ _
        have dropped : (input.take size).length + (input.drop size).length = input.length := by
          rw [← List.length_append, List.take_append_drop]
        have positive := List.length_pos_iff.mpr noRead
        have total : (temp ++ input.take size).length = temp.length + (input.take size).length := List.length_append
        obtain ⟨cs, rest, cut, whole', bound, loop⟩ := splitLoop_eq empty (by omega) (Nat.le_refl _)
        have joined : temp ++ input = temp ++ input.take size ++ input.drop size := by
          rw [List.append_assoc, List.take_append_drop]
        rw [loop, joined, cut, List.foldlM_append]
        cases cs.foldlM (archive plat compressType) s with
        | none => rfl
        | some s' =>
          change readLoop plat compressType (rabininit 0) size fuel s' rest (input.drop size) = _
          exact ih (by omega) whole' (by omega)

/-- The encoder archives the chunks of the whole input. -/
lemma encode_eq (plat : Platform) (compressType : ℕ) {size : ℕ} (pos : 0 < size) {input : List UInt8}
    (short : input.length < intBound) :
    encode plat compressType size input =
      (Hashtable.create (fun _ => 0) 65536).bind fun cache =>
        (segments 0 input).foldlM (archive plat compressType) (.start compressType cache) := by
  have none : EndsAt 0 [] ([] : List UInt8).length :=
    ⟨Nat.le_refl _, Nat.min_le_right _ _, fun j _ lt => absurd lt (Nat.not_lt_zero _), fun lt => absurd lt (by simp)⟩
  unfold encode
  cases Hashtable.create (fun _ => 0) 65536 with
  | none => rfl
  | some cache => exact readLoop_eq pos (by rw [List.length_nil]; omega) none (by omega)

/-- All chunks but the last have at least `NWINDOW` bytes. -/
lemma segments_length {c : List UInt8} (mem : c ∈ (segments winlen p).dropLast) : nwindow ≤ c.length := by
  induction n : p.length using Nat.strongRecOn generalizing p with
  | _ n ih =>
    obtain ⟨k, h⟩ := exists_endsAt winlen p
    rcases Nat.lt_or_eq_of_le h.le with lt | eq
    · have window := h.window_le lt
      rw [segments_cut h lt] at mem
      cases rest : segments winlen (p.drop k) with
      | nil =>
        rw [rest] at mem
        cases mem
      | cons d ds =>
        rw [rest, List.dropLast_cons_cons, List.mem_cons, ← rest] at mem
        rcases mem with rfl | mem
        · rw [List.length_take]
          omega
        · unfold nwindow at window
          exact ih _ (by rw [List.length_drop]; omega) mem rfl
    · rw [segments_whole (eq ▸ h)] at mem
      split at mem
      case isTrue => cases mem
      case isFalse => cases mem

/-- Zero bytes are cut as soon as the window is full. -/
lemma segments_zeros (nonempty : p ≠ []) : segments 0 (zeros ++ p) = zeros :: segments 0 p := by
  have size : zeros.length = nwindow := rfl
  have longer : nwindow < (zeros ++ p).length := by
    have := List.length_pos_iff.mpr nonempty
    rw [List.length_append, size]
    omega
  have ends : EndsAt 0 (zeros ++ p) nwindow := by
    refine ⟨longer.le, Nat.min_le_left _ _, fun j le lt => absurd lt (Nat.not_lt.mpr le), fun _ => ?_⟩
    rw [IsCut, tested_append size.ge]
    decide +kernel
  rw [segments_cut ends longer, List.take_left' size, List.drop_left' size]

/-- The sample is cut behind each 32 zero bytes. -/
lemma segments_sample : segments 0 sampleInput = [zeros, zeros, abc] := by
  have short : abc.length < nwindow := by decide
  have nonempty : abc ≠ [] := List.cons_ne_nil _ _
  rw [sampleInput, segments_zeros (List.append_ne_nil_of_right_ne_nil _ nonempty), segments_zeros nonempty,
    segments_short nonempty short]

/-- The encoder archives the chunks of the whole input, whatever the size of its buffer: they make up the input,
    none is empty, and all but the last have at least `NWINDOW` bytes. -/
theorem encode_segments (plat : Platform) (compressType : ℕ) {size : ℕ} (pos : 0 < size) {input : List UInt8}
    (short : input.length < intBound) :
    (encode plat compressType size input =
      (Hashtable.create (fun _ => 0) 65536).bind fun cache =>
        (segments 0 input).foldlM (archive plat compressType) (.start compressType cache)) ∧
      (segments 0 input).flatten = input ∧ (∀ c ∈ segments 0 input, c ≠ []) ∧
      ∀ c ∈ (segments 0 input).dropLast, nwindow ≤ c.length :=
  ⟨encode_eq plat compressType pos short, segments_flatten 0 input, fun _ => segments_nonempty,
    fun _ => segments_length⟩

/-- The sample, read in pieces of 40 bytes. -/
theorem encode_segments_sample :
    encode samplePlatform compressGzip 40 sampleInput =
        ((Hashtable.create (fun _ => 0) 65536).bind fun cache =>
          [zeros, zeros, abc].foldlM (archive samplePlatform compressGzip) (.start compressGzip cache)) ∧
      ∀ c ∈ [zeros, zeros], nwindow ≤ c.length := by
  have short : sampleInput.length < intBound := by decide
  obtain ⟨encoded, _, _, long⟩ := encode_segments samplePlatform compressGzip (by decide : 0 < 40) short
  rw [segments_sample] at encoded long
  exact ⟨encoded, long⟩

end PromotionCache.Dedup
