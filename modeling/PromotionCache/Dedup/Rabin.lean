import Mathlib.Data.Int.Notation
import PromotionCache.Lib.Horner

/-!
# Rabin fingerprints

`dedup/rabin.c`: the tables that `rabininit` fills, and `rabinseg`, which finds the end of the next chunk of a
buffer. The tables stand for multiplication of polynomials (`push_eq`, `fpwinreduce_eq`), so the value that the
loop tests is a difference of two fingerprints (`rolling`); with a window of `NWINDOW` bytes it is the fingerprint
of the last 32 bytes alone. The encoder calls `rabininit` with a window of 0.
-/

namespace PromotionCache.Dedup
open Lib

/-- A table of 256 words. -/
abbrev Table := BitVec 8 → BitVec 32

/-- `irrpoly` -/
def irrpoly : BitVec 32 := 0x45c2b6a1#32

/-- `NWINDOW` -/
def nwindow : ℕ := 32

/-- `RabinMask` -/
def rabinMask : BitVec 32 := 0xfff#32

/-- `x >> 24`, as an index of a table -/
def top (x : BitVec 32) : BitVec 8 := (x >>> 24).setWidth 8

/-- `fpreduce` -/
def fpreduce (x irr : BitVec 32) : BitVec 32 :=
  (fun x : BitVec 32 => if x >>> 31 ≠ 0#32 then (x <<< 1) ^^^ irr else x <<< 1)^[32] x

/-- `fpmkredtab` -/
def fpmkredtab (irr : BitVec 32) (s : ℕ) : Table :=
  fun i => fpreduce (i.setWidth 32 <<< s) irr

/-- `fpwinreduce` -/
def fpwinreduce (winlen : ℤ) (x : BitVec 32) (rabintab : Table) : BitVec 32 :=
  let winval := ((0#32 <<< 8) ||| x) ^^^ rabintab (top 0#32)
  (fun winval : BitVec 32 => (winval <<< 8) ^^^ rabintab (top winval))^[(winlen - 1).toNat] winval

/-- `fpmkwinredtab` -/
def fpmkwinredtab (winlen : ℤ) (rabintab : Table) : Table :=
  fun i => fpwinreduce winlen (i.setWidth 32) rabintab

/-- `rabintab` and `rabinwintab` -/
structure Tables where
  rabintab : Table
  rabinwintab : Table

/-- `rabininit` -/
def rabininit (winlen : ℤ) : Tables :=
  let rabintab := fpmkredtab irrpoly 0
  ⟨rabintab, fpmkwinredtab winlen rabintab⟩

/-- `x = h >> 24; h = (h<<8) | b; h ^= rabintab[x]` -/
def push (rabintab : Table) (h : BitVec 32) (b : UInt8) : BitVec 32 :=
  ((h <<< 8) ||| b.toBitVec.setWidth 32) ^^^ rabintab (top h)

/-- The second loop of `rabinseg`, at byte `i`, with the bytes that leave the window and those that enter it. -/
def seek (t : Tables) : BitVec 32 → ℕ → List UInt8 → List UInt8 → ℕ
  | h, i, x :: outs, b :: ins =>
    let h := push t.rabintab (h ^^^ t.rabinwintab x.toBitVec) b
    if h &&& rabinMask = 0#32 then i + 1 else seek t h (i + 1) outs ins
  | _, i, _, _ => i

/-- `rabinseg` of the first `n` bytes of `p` -/
def rabinseg (t : Tables) (p : List UInt8) (n : ℤ) : ℤ :=
  if n < nwindow then n
  else
    let p := p.take n.toNat
    let h := (p.take nwindow).foldl (push t.rabintab) 0#32
    if h &&& rabinMask = 0#32 then nwindow else seek t h nwindow p (p.drop nwindow)

/-- Multiplication by the eighth power of the variable: a byte further, bit by bit. -/
def shiftByte : BitVec 32 → BitVec 32 := (shiftReduce irrpoly)^[8]

/-- The remainder of the polynomial that the bits of the bytes stand for. -/
def fingerprint (p : List UInt8) : BitVec 32 := horner shiftByte (p.map (·.toBitVec.setWidth 32))

/-- What the loop tests after `i` bytes. -/
def tested (winlen : ℤ) (p : List UInt8) (i : ℕ) : BitVec 32 :=
  fingerprint (p.take i) ^^^ shiftByte^[max 1 winlen.toNat] (fingerprint (p.take (i - nwindow)))

/-- A place where a chunk may end. -/
def IsCut (winlen : ℤ) (p : List UInt8) (i : ℕ) : Prop := tested winlen p i &&& rabinMask = 0#32

variable {p outs ins : List UInt8} {b : UInt8} {h : BitVec 32} {winlen : ℤ} {i : ℕ}

/-- The loop of `fpreduce` shifts 32 times. -/
lemma fpreduce_eq (x irr : BitVec 32) : fpreduce x irr = (shiftReduce irr)^[32] x := by
  have same : (fun x : BitVec 32 => if x >>> 31 ≠ 0#32 then (x <<< 1) ^^^ irr else x <<< 1) = shiftReduce irr := by
    funext x
    have shifted : (x >>> 31 ≠ 0#32) ↔ x.msb = true := by
      rw [BitVec.msb_eq_decide, decide_eq_true_eq, ne_eq, ← BitVec.toNat_inj, BitVec.toNat_ushiftRight,
        Nat.shiftRight_eq_div_pow]
      simp only [BitVec.toNat_ofNat]
      omega
    unfold shiftReduce
    simp only [shifted]
  unfold fpreduce
  rw [same]

/-- A shift by a byte is linear. -/
lemma shiftByte_linear : XorLinear shiftByte := (shiftReduce_linear irrpoly).iterate 8

/-- A word is its top byte and the rest. -/
lemma split_top (x : BitVec 32) : x = (x >>> 24) <<< 24 ^^^ (x <<< 8) >>> 8 := by
  apply BitVec.eq_of_getLsbD_eq
  intro i lt
  simp only [BitVec.getLsbD_xor, BitVec.getLsbD_shiftLeft, BitVec.getLsbD_ushiftRight]
  rcases Nat.lt_or_ge i 24 with low | high
  · simp [low, lt, Nat.add_comm 8 i, show i + 8 < 32 by omega]
  · simp [lt, Nat.not_lt.mpr high, Nat.add_sub_of_le high, show ¬ 8 + i < 32 by omega]

/-- Without its top byte, a word is shifted as it is. -/
lemma shiftByte_low (x : BitVec 32) : shiftByte ((x <<< 8) >>> 8) = x <<< 8 := by
  unfold shiftByte
  rw [shiftReduce_iterate]
  · apply BitVec.eq_of_getLsbD_eq
    intro i lt
    simp only [BitVec.getLsbD_shiftLeft, BitVec.getLsbD_ushiftRight]
    rcases Nat.lt_or_ge i 8 with low | high
    · simp [low]
    · simp [lt, Nat.not_lt.mpr high, Nat.add_sub_of_le high]
  · intro i le
    simp only [BitVec.getLsbD_shiftLeft, BitVec.getLsbD_ushiftRight]
    simp [show ¬ 8 + i < 32 by omega]

/-- The top byte is what the table is for. -/
lemma shiftByte_high (x : BitVec 32) : shiftByte ((x >>> 24) <<< 24) = fpmkredtab irrpoly 0 (top x) := by
  have widened : (top x).setWidth 32 = x >>> 24 := by
    apply BitVec.eq_of_toNat_eq
    have lt : (x >>> 24).toNat < 2 ^ 8 := by
      rw [BitVec.toNat_ushiftRight, Nat.shiftRight_eq_div_pow]
      have := x.isLt
      omega
    rw [top, BitVec.toNat_setWidth, BitVec.toNat_setWidth, Nat.mod_eq_of_lt lt, Nat.mod_eq_of_lt (by omega)]
  have raised : (shiftReduce irrpoly)^[24] (x >>> 24) = (x >>> 24) <<< 24 := by
    refine shiftReduce_iterate irrpoly fun i le => ?_
    rw [BitVec.getLsbD_ushiftRight, BitVec.getLsbD_of_ge x (24 + i) (by omega)]
  rw [fpmkredtab, BitVec.shiftLeft_zero, widened, fpreduce_eq, shiftByte, ← raised, ← Function.iterate_add_apply]

/-- The table stands for the part of the product that leaves the word. -/
lemma slide_eq (h : BitVec 32) : (h <<< 8) ^^^ fpmkredtab irrpoly 0 (top h) = shiftByte h := by
  conv_rhs => rw [split_top h, shiftByte_linear, shiftByte_high, shiftByte_low]
  rw [BitVec.xor_comm]

/-- A byte is pushed in. -/
lemma push_eq (h : BitVec 32) (b : UInt8) :
    push (fpmkredtab irrpoly 0) h b = shiftByte h ^^^ b.toBitVec.setWidth 32 := by
  have apart : (h <<< 8) ||| b.toBitVec.setWidth 32 = (h <<< 8) ^^^ b.toBitVec.setWidth 32 := by
    apply BitVec.eq_of_getLsbD_eq
    intro i lt
    simp only [BitVec.getLsbD_or, BitVec.getLsbD_xor, BitVec.getLsbD_shiftLeft, BitVec.getLsbD_setWidth]
    rcases Nat.lt_or_ge i 8 with low | high
    · simp [low]
    · simp [BitVec.getLsbD_of_ge b.toBitVec i high]
  rw [push, apart, BitVec.xor_assoc, BitVec.xor_comm (b.toBitVec.setWidth 32), ← BitVec.xor_assoc, slide_eq]

/-- Bytes that are pushed in one after the other make up the fingerprint. -/
lemma foldl_push (p : List UInt8) : p.foldl (push (fpmkredtab irrpoly 0)) 0#32 = fingerprint p := by
  rw [fingerprint, horner, List.foldl_map]
  congr 1
  funext h b
  exact push_eq h b

/-- The second table multiplies by the power that belongs to the window. -/
lemma fpwinreduce_eq (winlen : ℤ) (x : BitVec 32) :
    fpwinreduce winlen x (fpmkredtab irrpoly 0) = shiftByte^[winlen.toNat - 1] x := by
  have first : ((0#32 <<< 8) ||| x) ^^^ fpmkredtab irrpoly 0 (top 0#32) = x := by
    have zero := slide_eq 0#32
    rw [shiftByte_linear.zero, BitVec.zero_shiftLeft, BitVec.zero_xor] at zero
    rw [zero, BitVec.zero_shiftLeft, BitVec.zero_or, BitVec.xor_zero]
  have same : (fun winval : BitVec 32 => (winval <<< 8) ^^^ fpmkredtab irrpoly 0 (top winval)) = shiftByte :=
    funext slide_eq
  have count : (winlen - 1).toNat = winlen.toNat - 1 := by omega
  rw [fpwinreduce, first, same, count]

/-- The fingerprint of one more byte. -/
lemma fingerprint_concat (p : List UInt8) (b : UInt8) :
    fingerprint (p ++ [b]) = shiftByte (fingerprint p) ^^^ b.toBitVec.setWidth 32 := by
  rw [fingerprint, List.map_append, List.map_singleton, horner_concat, fingerprint]

/-- The value of the loop is that of the two fingerprints, one byte further. -/
lemma tested_succ (bound : nwindow ≤ i) (enters : p[i]? = some b) {x : UInt8} (leaves : p[i - nwindow]? = some x) :
    push (rabininit winlen).rabintab (tested winlen p i ^^^ (rabininit winlen).rabinwintab x.toBitVec) b =
      tested winlen p (i + 1) := by
  have more : p.take (i + 1) = p.take i ++ [b] := by
    rw [List.take_add_one, enters]
    rfl
  have less : p.take (i + 1 - nwindow) = p.take (i - nwindow) ++ [x] := by
    rw [Nat.sub_add_comm bound, List.take_add_one, leaves]
    rfl
  have power : shiftByte (shiftByte^[winlen.toNat - 1] (x.toBitVec.setWidth 32)) =
      shiftByte^[max 1 winlen.toNat] (x.toBitVec.setWidth 32) := by
    rw [← Function.iterate_succ_apply' shiftByte]
    congr 2
    omega
  have swap (n : ℕ) (y : BitVec 32) : shiftByte (shiftByte^[n] y) = shiftByte^[n] (shiftByte y) := by
    rw [← Function.iterate_succ_apply' shiftByte, Function.iterate_succ_apply]
  change push (fpmkredtab irrpoly 0) (_ ^^^ fpwinreduce winlen (x.toBitVec.setWidth 32) (fpmkredtab irrpoly 0)) b = _
  rw [push_eq, fpwinreduce_eq, tested, tested, more, less, fingerprint_concat, fingerprint_concat,
    shiftByte_linear, shiftByte_linear, power, swap, shiftByte_linear.iterate]
  simp only [BitVec.xor_assoc, BitVec.xor_comm (b.toBitVec.setWidth 32)]

/-- The first value that is tested has nothing to take out. -/
lemma tested_first (p : List UInt8) : tested winlen p nwindow = fingerprint (p.take nwindow) := by
  have none : fingerprint (p.take (nwindow - nwindow)) = 0#32 := rfl
  rw [tested, none, (shiftByte_linear.iterate _).zero, BitVec.xor_zero]

/-- The first chunk of `p` has `k` bytes. -/
structure EndsAt (winlen : ℤ) (p : List UInt8) (k : ℕ) : Prop where
  le : k ≤ p.length
  window : min nwindow p.length ≤ k
  first : ∀ j, nwindow ≤ j → j < k → ¬ IsCut winlen p j
  cut : k < p.length → IsCut winlen p k

/-- A chunk has one end. -/
lemma EndsAt.unique {k k' : ℕ} (h : EndsAt winlen p k) (h' : EndsAt winlen p k') : k = k' := by
  have le := h.le
  have le' := h'.le
  have window := h.window
  have window' := h'.window
  rcases Nat.lt_trichotomy k k' with lt | eq | gt
  · exact absurd (h.cut (by omega)) (h'.first k (by omega) lt)
  · exact eq
  · exact absurd (h'.cut (by omega)) (h.first k' (by omega) gt)

/-- At the end of the buffer the loop is over. -/
lemma seek_nil (t : Tables) (h : BitVec 32) (i : ℕ) (outs : List UInt8) : seek t h i outs [] = i := by
  cases outs <;> rfl

/-- The loop finds the next end, if there was none before. -/
lemma seek_endsAt (bound : nwindow ≤ i) (le : i ≤ p.length) (eq : h = tested winlen p i)
    (passed : ∀ j, nwindow ≤ j → j ≤ i → ¬ IsCut winlen p j) :
    EndsAt winlen p (seek (rabininit winlen) h i (p.drop (i - nwindow)) (p.drop i)) := by
  induction n : p.length - i generalizing h i with
  | zero =>
    have last : i = p.length := by omega
    rw [last, List.drop_length, seek_nil]
    exact ⟨Nat.le_refl _, Nat.min_le_right _ _, fun j le lt => passed j le (by omega), fun lt => absurd lt (by omega)⟩
  | succ n ih =>
    have lt : i < p.length := by omega
    have leaves : i - nwindow < p.length := by omega
    rw [List.drop_eq_getElem_cons leaves, List.drop_eq_getElem_cons lt]
    have next : _ = tested winlen p (i + 1) :=
      tested_succ bound (List.getElem?_eq_getElem lt) (List.getElem?_eq_getElem leaves)
    unfold seek
    simp only
    rw [eq, next]
    split
    case isTrue cut =>
      refine ⟨lt, by omega, fun j le lt => passed j le (by omega), fun _ => cut⟩
    case isFalse notCut =>
      have shifted : i + 1 - nwindow = i - nwindow + 1 := Nat.sub_add_comm bound
      rw [← shifted]
      refine ih (by omega) lt rfl (fun j le le' => ?_) (by omega)
      rcases Nat.lt_or_ge i j with gt | old
      · obtain rfl : j = i + 1 := by omega
        exact notCut
      · exact passed j le old

/-- `rabinseg` returns an end. -/
lemma rabinseg_spec (winlen : ℤ) (p : List UInt8) :
    ∃ k : ℕ, rabinseg (rabininit winlen) p p.length = k ∧ EndsAt winlen p k := by
  unfold rabinseg
  split
  case isTrue short =>
    refine ⟨p.length, rfl, Nat.le_refl _, Nat.min_le_right _ _, fun j le lt => ?_, fun lt => absurd lt (by omega)⟩
    omega
  case isFalse long =>
    have enough : nwindow ≤ p.length := by omega
    have start : (p.take nwindow).foldl (push (rabininit winlen).rabintab) 0#32 = tested winlen p nwindow :=
      (foldl_push _).trans (tested_first p).symm
    simp only [Int.toNat_natCast, List.take_length, start]
    split
    case isTrue cut =>
      exact ⟨nwindow, rfl, enough, Nat.min_le_left _ _, fun j le lt => absurd lt (by omega), fun _ => cut⟩
    case isFalse notCut =>
      refine ⟨_, rfl, ?_⟩
      have start := seek_endsAt (Nat.le_refl nwindow) enough rfl fun j le le' => by
        obtain rfl : j = nwindow := Nat.le_antisymm le' le
        exact notCut
      rw [Nat.sub_self, List.drop_zero] at start
      exact start

/-- With a window of `NWINDOW` bytes, the places depend on the last 32 bytes alone. -/
lemma tested_nwindow (p : List UInt8) (bound : nwindow ≤ i) (le : i ≤ p.length) :
    tested nwindow p i = fingerprint ((p.take i).drop (i - nwindow)) := by
  have part := horner_drop shiftByte_linear (i - nwindow) ((p.take i).map (·.toBitVec.setWidth 32))
  have count : ((p.take i).map (·.toBitVec.setWidth 32)).length - (i - nwindow) = nwindow := by
    rw [List.length_map, List.length_take]
    omega
  rw [count, ← List.map_drop, ← List.map_take, List.take_take, Nat.min_eq_left (Nat.sub_le _ _)] at part
  exact part.symm

/-- `rabinseg` finds the first place where the two fingerprints of a prefix agree in the bits of the mask, at
    least `NWINDOW` bytes into the buffer. With a window of `NWINDOW` bytes, it looks at the fingerprint of the last 32
    bytes alone. -/
theorem rabinseg_endsAt (winlen : ℤ) (p : List UInt8) (k : ℕ) :
    (rabinseg (rabininit winlen) p p.length = k ↔ EndsAt winlen p k) ∧
      ∀ i, nwindow ≤ i → i ≤ p.length → tested nwindow p i = fingerprint ((p.take i).drop (i - nwindow)) := by
  refine ⟨?_, fun i => tested_nwindow p⟩
  obtain ⟨k', eq, ends⟩ := rabinseg_spec winlen p
  constructor
  · intro e
    obtain rfl : k' = k := by omega
    exact ends
  · intro ends'
    rw [eq, ends.unique ends']

end PromotionCache.Dedup
