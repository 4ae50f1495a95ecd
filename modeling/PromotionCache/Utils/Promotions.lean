import PromotionCache.Lib.Runs
import PromotionCache.Lib.Text
import PromotionCache.Utils.Promoter

/-!
# Files of promotions

`read_promotions_over_time` of `utils/common.h` reads lines with a time and a huge page each into ranges of
neighbouring pages. Three of its local variables are not initialised; a loop of five of them cuts the lines
into maximal runs (`readPromotionsOverTime_eq`). All arithmetic is that of `unsigned long`: the page after the
last one of the address space is page zero.
-/

namespace PromotionCache.Utils
open Lib

/-- The contents of a file; the size of a file is an `off_t`. -/
structure TextFile where
  text : List Char
  fits : text.length < 2 ^ 63

/-- The lines that `getline` reads one after the other, without the newline. -/
def lines (text : List Char) : List (List Char) :=
  if (text.splitOn '\n').getLast? = some [] then (text.splitOn '\n').dropLast else text.splitOn '\n'

/-- `result[0]` and `result[1]` as numbers. -/
def timePage (line : List Char) : Option (UInt64 × UInt64) :=
  match (cString line).splitOn ',' with
  | time :: page :: _ => do
    let time ← stoul time
    let page ← stoul page
    some (time, page)
  | _ => none

/-- The local variables that last from line to line, and what `data` points to. -/
structure Locals where
  data : RangeMap
  start : UInt64
  time : UInt64
  offset : UInt64
  numOffsets : UInt64

/-- `(*data)[time].push_back(range)` -/
def pushBack (data : RangeMap) (time : UInt64) (range : UInt64 × UInt64) : RangeMap :=
  data.insert time (data.getD time [] ++ [range])

/-- An iteration of the loop, from the numbers of its line. -/
def readOffset (pmdPagesize : UInt64) (s : Locals) (line : UInt64 × UInt64) : Locals :=
  let tmpTime := line.1
  -- a new time
  let s := if tmpTime ≠ s.time then
      { s with
        data := if 0 < s.numOffsets then pushBack s.data s.time (s.start, s.numOffsets * pmdPagesize)
          else s.data
        numOffsets := 0
        offset := 0 - 1 }
    else s
  let s := { s with time := tmpTime }
  let tmpOffset := line.2 * pmdPagesize
  let s := if tmpOffset = s.offset + pmdPagesize ∨ s.numOffsets = 0 then
      { s with
        start := if s.numOffsets = 0 then tmpOffset else s.start
        numOffsets := s.numOffsets + 1 }
    else
      { s with
        data := pushBack s.data s.time (s.start, s.numOffsets * pmdPagesize)
        start := tmpOffset
        numOffsets := 1 }
  { s with offset := tmpOffset }

/-- `read_promotions_over_time` into an empty map, with what its variables hold at first. -/
def readPromotionsOverTime (pmdPagesize start time offset : UInt64) (file : TextFile) : Option RangeMap := do
  let s ← (lines file.text).foldlM (fun s line => do
    let line ← timePage line
    some (readOffset pmdPagesize s line)) ⟨∅, start, time, offset, 0⟩
  some (if (lines file.text).isEmpty then s.data
    else pushBack s.data s.time (s.start, s.numOffsets * pmdPagesize))

/-- A line continues the range of the line before it. -/
def follows (pmdPagesize : UInt64) (before line : UInt64 × UInt64) : Bool :=
  line.1 = before.1 && line.2 * pmdPagesize = before.2 * pmdPagesize + pmdPagesize

/-- The range of a run. -/
def rangeOf (pmdPagesize : UInt64) (run : List (UInt64 × UInt64)) : UInt64 × UInt64 :=
  ((run.head?.getD (0, 0)).2 * pmdPagesize, UInt64.ofNat run.length * pmdPagesize)

/-- The range of a run comes under its time. -/
def pushRun (pmdPagesize : UInt64) (data : RangeMap) (run : List (UInt64 × UInt64)) : RangeMap :=
  pushBack data (run.head?.getD (0, 0)).1 (rangeOf pmdPagesize run)

/-- The loop has handed on the ranges in `data`, and holds the lines of one range. -/
structure Pending (pmdPagesize : UInt64) (s : Locals) (data : RangeMap)
    (run : List (UInt64 × UInt64)) : Prop where
  data : s.data = data
  start : s.start = (run.head?.getD (0, 0)).2 * pmdPagesize
  count : s.numOffsets = UInt64.ofNat run.length
  time : s.time = (run.head?.getD (0, 0)).1
  last : ∀ line ∈ run.getLast?, s.time = line.1 ∧ s.offset = line.2 * pmdPagesize

section
variable {pmdPagesize start time offset : UInt64} {s : Locals} {data : RangeMap}
  {run recs : List (UInt64 × UInt64)} {line before : UInt64 × UInt64} {file : TextFile}

/-- Nothing is handed on where nothing is held, whatever the other variables say. -/
lemma Pending.first (none : s.numOffsets = 0) :
    Pending pmdPagesize (readOffset pmdPagesize s line) s.data [line] := by
  have zero : ¬ (0 : UInt64) < 0 := UInt64.lt_irrefl 0
  constructor <;> by_cases new : line.1 = s.time <;> simp [readOffset, new, none, zero]

/-- A run that is pending has been counted. -/
lemma Pending.count_ne (h : Pending pmdPagesize s data run) (ne : run ≠ [])
    (few : run.length < 2 ^ 64) : s.numOffsets ≠ 0 := by
  have pos := List.length_pos_iff.mpr ne
  rw [h.count]
  intro zero
  have value := congrArg UInt64.toNat zero
  rw [UInt64.toNat_ofNat', Nat.mod_eq_of_lt few] at value
  exact absurd value (by simpa using ne)

/-- The next page is held with the others. -/
lemma Pending.same (h : Pending pmdPagesize s data (run ++ [before]))
    (few : (run ++ [before]).length < 2 ^ 64) (goes : follows pmdPagesize before line = true) :
    Pending pmdPagesize (readOffset pmdPagesize s line) data (run ++ [before] ++ [line]) := by
  have some := h.count_ne (by simp) few
  obtain ⟨time, offset⟩ := h.last before (by simp)
  rw [follows, Bool.and_eq_true, decide_eq_true_eq, decide_eq_true_eq] at goes
  have head : (run ++ [before] ++ [line]).head? = (run ++ [before]).head? := by simp
  have state : readOffset pmdPagesize s line =
      { s with offset := line.2 * pmdPagesize, numOffsets := s.numOffsets + 1 } := by
    have same : line.1 = s.time := by rw [time, goes.1]
    simp [readOffset, same, offset, goes.2, some]
  rw [state]
  constructor
  · exact h.data
  · rw [head]
    exact h.start
  · rw [List.length_append, List.length_singleton, UInt64.ofNat_add, ← h.count]
    rfl
  · rw [head]
    exact h.time
  · intro line' mem
    obtain rfl : line = line' := by simpa using mem
    exact ⟨by rw [time, goes.1], rfl⟩

/-- Otherwise the range of the others is handed on. -/
lemma Pending.next (h : Pending pmdPagesize s data (run ++ [before]))
    (few : (run ++ [before]).length < 2 ^ 64) (stops : follows pmdPagesize before line = false) :
    Pending pmdPagesize (readOffset pmdPagesize s line)
      (pushRun pmdPagesize data (run ++ [before])) [line] := by
  have some := h.count_ne (by simp) few
  have pos : 0 < s.numOffsets := UInt64.pos_iff_ne_zero.mpr some
  obtain ⟨time, offset⟩ := h.last before (by simp)
  have pushed : pushBack s.data s.time (s.start, s.numOffsets * pmdPagesize) =
      pushRun pmdPagesize data (run ++ [before]) := by
    rw [pushRun, rangeOf, h.data, ← h.time, ← h.start, ← h.count]
  rw [← pushed]
  by_cases new : line.1 = s.time
  · have apart : line.2 * pmdPagesize ≠ s.offset + pmdPagesize := by
      intro near
      rw [follows, ← time, new, ← offset, near] at stops
      simp at stops
    constructor <;> simp [readOffset, new, some, apart]
  · constructor <;> simp [readOffset, new, pos]

/-- The lines are parsed and then read. -/
lemma foldlM_timePage (ls : List (List Char)) (s : Locals) :
    (ls.foldlM (fun s line => do
      let line ← timePage line
      some (readOffset pmdPagesize s line)) s) =
      (ls.mapM timePage).map fun recs => recs.foldl (readOffset pmdPagesize) s := by
  induction ls generalizing s with
  | nil => rfl
  | cons l ls ih =>
    rw [List.foldlM_cons, List.mapM_cons]
    cases timePage l with
    | none => rfl
    | some line =>
      have step := ih (readOffset pmdPagesize s line)
      cases e : ls.mapM timePage with
      | none =>
        rw [e] at step
        exact step
      | some recs =>
        rw [e] at step
        exact step

/-- A split gives one piece more than characters at most. -/
lemma length_splitOn_le (cs : List Char) (c : Char) : (cs.splitOn c).length ≤ cs.length + 1 := by
  induction cs with
  | nil => simp
  | cons d cs ih =>
    rw [List.splitOn_cons_eq_if_modifyHead]
    split <;> simp <;> omega

/-- A text has one line more than characters at most. -/
lemma length_lines_le (text : List Char) : (lines text).length ≤ text.length + 1 := by
  have le := length_splitOn_le text '\n'
  rw [lines]
  split
  · rw [List.length_dropLast]
    omega
  · exact le

/-- Every line gives a record. -/
lemma length_of_mapM {ls : List (List Char)} (read : ls.mapM timePage = some recs) :
    recs.length = ls.length := by
  induction ls generalizing recs with
  | nil =>
    obtain rfl := Option.some.inj read
    rfl
  | cons l ls ih =>
    rw [List.mapM_cons] at read
    obtain ⟨line, _, read⟩ := Option.bind_eq_some_iff.mp read
    obtain ⟨rest, hrest, read⟩ := Option.bind_eq_some_iff.mp read
    obtain rfl := Option.some.inj read
    rw [List.length_cons, List.length_cons, ih hrest]

/-- Whatever the variables hold at first, the file is cut into its maximal runs. -/
theorem readPromotionsOverTime_eq (read : (lines file.text).mapM timePage = some recs) :
    readPromotionsOverTime pmdPagesize start time offset file =
      some ((recs.splitBy (follows pmdPagesize)).foldl (pushRun pmdPagesize) ∅) := by
  have len : recs.length = (lines file.text).length := length_of_mapM read
  have few : recs.length < 2 ^ 64 := by
    have le := length_lines_le file.text
    have fits := file.fits
    omega
  rw [readPromotionsOverTime, foldlM_timePage, read]
  simp only [Option.map_some, Option.bind_eq_bind, Option.bind_some, List.isEmpty_iff_length_eq_zero,
    ← len, List.length_eq_zero_iff]
  by_cases none : recs = []
  · rw [if_pos none, none]
    rfl
  · have short : ∀ run, run <:+: recs → run.length < 2 ^ 64 := fun run part =>
      Nat.lt_of_le_of_lt part.length_le few
    obtain ⟨gs, g, cut, held⟩ := foldl_splitBy (r := follows pmdPagesize) (pushRun pmdPagesize)
      (Pending pmdPagesize) none (fun _ => Pending.first (s := ⟨∅, start, time, offset, 0⟩) rfl)
      (fun _ _ _ _ _ part goes held => held.same (short _ part) goes)
      (fun _ _ _ _ _ part stops held => held.next (short _ part) stops)
    rw [if_neg none, cut, List.foldl_append, List.foldl_cons, List.foldl_nil, pushRun, rangeOf,
      held.data, ← held.time, ← held.start, ← held.count]

end
end PromotionCache.Utils
