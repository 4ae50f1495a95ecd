import PromotionCache.Lib.While
import PromotionCache.Utils.Promotions

/-!
# The promoter of the launcher

`launch/common/common.h` has copies of `read_promotions_over_time` and `launch_promoter`. The first writes its last
range even if there is no line, and the second goes on as long as its target lives, also behind the last promotion.
-/

namespace PromotionCache.Apps.LaunchCommon
open Lib Utils

/-- `read_promotions_over_time` into an empty map, with what its variables hold at first. Its loop is that of the
    other copy. -/
def readPromotionsOverTime (pmdPagesize start time offset : UInt64) (file : TextFile) : Option RangeMap := do
  let s ← (lines file.text).foldlM (fun s line => do
    let line ← timePage line
    some (readOffset pmdPagesize s line)) ⟨∅, start, time, offset, 0⟩
  some (pushBack s.data s.time (s.start, s.numOffsets * pmdPagesize))

/-- The copies fill the same map, whatever the variables of each hold at first. -/
def Agree (pmdPagesize : UInt64) (file : TextFile) (start time offset start' time' offset' : UInt64) : Prop :=
  (readPromotionsOverTime pmdPagesize start time offset file).map (fun m => m.toList) =
    (Utils.readPromotionsOverTime pmdPagesize start' time' offset' file).map fun m => m.toList

section
variable {pmdPagesize start time offset start' time' offset' : UInt64} {file : TextFile}

/-- Only the empty text has no lines. -/
lemma lines_eq_nil {text : List Char} : lines text = [] ↔ text = [] := by
  constructor
  · intro none
    unfold lines at none
    split at none
    case isTrue last =>
      -- the only piece is the empty one
      have only : text.splitOn '\n' = [[]] := by
        rw [← List.dropLast_append_getLast? [] last, none]
        rfl
      cases text with
      | nil => rfl
      | cons c cs =>
        rw [List.splitOn_cons_eq_if_modifyHead] at only
        split at only
        case isTrue => exact absurd (List.cons.inj only).2 (List.splitOn_ne_nil _ _)
        case isFalse =>
          cases e : cs.splitOn '\n' with
          | nil => exact absurd e (List.splitOn_ne_nil _ _)
          | cons piece pieces =>
            rw [e, List.modifyHead_cons] at only
            cases (List.cons.inj only).1
    case isFalse => exact absurd none (List.splitOn_ne_nil _ _)
  · rintro rfl
    rfl

/-- With a line to read the copies are the same. -/
lemma readPromotionsOverTime_same (some : lines file.text ≠ []) :
    readPromotionsOverTime pmdPagesize start time offset file =
      Utils.readPromotionsOverTime pmdPagesize start time offset file := by
  rw [readPromotionsOverTime, Utils.readPromotionsOverTime, List.isEmpty_eq_false_iff.mpr some]
  rfl

/-- What the variables hold at first does not matter. -/
lemma readPromotionsOverTime_any : Utils.readPromotionsOverTime pmdPagesize start time offset file =
    Utils.readPromotionsOverTime pmdPagesize start' time' offset' file := by
  cases read : (lines file.text).mapM timePage with
  | none =>
    rw [Utils.readPromotionsOverTime, Utils.readPromotionsOverTime, foldlM_timePage, foldlM_timePage, read]
    rfl
  | some recs => rw [readPromotionsOverTime_eq read, readPromotionsOverTime_eq read]

/-- The copies agree if and only if the file is not empty. -/
theorem agree_iff : Agree pmdPagesize file start time offset start' time' offset' ↔ file.text ≠ [] := by
  rw [Ne, ← lines_eq_nil]
  constructor
  · intro agree none
    have range : readPromotionsOverTime pmdPagesize start time offset file =
        some (pushBack ∅ time (start, 0 * pmdPagesize)) := by
      rw [readPromotionsOverTime, none]
      rfl
    have nothing : Utils.readPromotionsOverTime pmdPagesize start' time' offset' file = some ∅ := by
      rw [Utils.readPromotionsOverTime, none]
      rfl
    rw [Agree, range, nothing, Option.map_some, Option.map_some, Option.some.injEq] at agree
    have sizes := congrArg List.length agree
    rw [Std.TreeMap.length_toList, Std.TreeMap.length_toList, pushBack, Std.TreeMap.size_insert] at sizes
    cases sizes
  · intro some
    rw [Agree, readPromotionsOverTime_same some, readPromotionsOverTime_any]

/-- The empty file leaves a range of no pages under whatever `time` holds. -/
theorem empty_file_differs : ¬ ∀ (file : TextFile) (start time offset start' time' offset' : UInt64),
    Agree 2097152 file start time offset start' time' offset' := by
  intro agree
  have sizes := congrArg (Option.map List.length) (agree ⟨[], by decide⟩ 0 7 0 0 7 0)
  cases sizes

end

/-- The variables of `launch_promoter` in its loop, with the number of iterations and what they did. An iterator is a
    key of the map, or nothing at `end()`. -/
structure Promoter where
  iterations : Nat
  promotionsOverTime : RangeMap
  it : Option UInt64
  events : List Event

/-- `begin()` -/
def first (m : RangeMap) : Option UInt64 := m.toList.head?.map Prod.fst

/-- `it++` at a key of the map -/
def increment (m : RangeMap) (it : UInt64) : Option UInt64 :=
  (m.toList.find? fun entry => it < entry.1).map Prod.fst

/-- `promotions_over_time[time]`, which makes an entry if there is none: the map then, and the ranges. -/
def operatorIndex (m : RangeMap) (time : UInt64) : RangeMap × List (UInt64 × UInt64) :=
  match m[time]? with
  | some ranges => (m, ranges)
  | none => (m.insert time [], [])

/-- An iteration of the loop. It has no result where an iterator at `end()` is dereferenced or incremented. -/
def iteration (pmdPagesize : UInt64) (s : Promoter) : Option Promoter := do
  let time ← s.it
  let (promotionsOverTime, madviseRanges) := operatorIndex s.promotionsOverTime time
  let promoted ← adviseRanges pmdPagesize time .promote madviseRanges
  some
    { iterations := s.iterations + 1
      promotionsOverTime
      it := increment promotionsOverTime time
      events := s.events ++ promoted ++ [.usleep promotionSleepTime] }

/-- `launch_promoter` once the file is read and the application runs, for at most so many calls of `kill`, which tell
    whether the target is alive. -/
def launchPromoter (kill : Nat → Bool) (pmdPagesize : UInt64) (promotions : RangeMap) (fuel : Nat) :
    Option Promoter :=
  whileLoop (fun s => kill s.iterations) (iteration pmdPagesize) fuel
    ⟨0, promotions, first promotions, [.usleep appTime]⟩

/-- Each range is issued once and in increasing order of time, and the program comes to its end. -/
def Launched (kill : Nat → Bool) (pmdPagesize : UInt64) (promotions : RangeMap) : Prop :=
  ∃ fuel s, launchPromoter kill pmdPagesize promotions fuel = some s ∧
    (calls s.events).Perm (callsFor .promote promotions.toList) ∧
      (calls s.events).Pairwise fun a b => a.time ≤ b.time

/-- So many calls of `kill` find the target alive. -/
def LivesFor (kill : Nat → Bool) (k : Nat) : Prop := (∀ n < k, kill n = true) ∧ kill k = false

/-- The calls for some entries, with all ranges cut to huge pages. -/
def callsOf (pmdPagesize : UInt64) (entries : Iterator) : List Call :=
  entries.flatMap fun (time, ranges) => ranges.map (callFor pmdPagesize time .promote)

/-- The entries that the loop has left behind, and the one that it is at. -/
structure At (kill : Nat → Bool) (pmdPagesize : UInt64) (promotions : RangeMap) (s : Promoter) : Prop where
  same : s.promotionsOverTime = promotions
  within : s.iterations ≤ promotions.toList.length
  it : s.it = (promotions.toList.drop s.iterations).head?.map Prod.fst
  alive : ∀ n < s.iterations, kill n = true
  issued : calls s.events = callsOf pmdPagesize (promotions.toList.take s.iterations)
  zero : pmdPagesize = 0 → ∀ entry ∈ promotions.toList.take s.iterations, entry.2 = []

section
variable {kill : Nat → Bool} {pmdPagesize time : UInt64} {advice : Advice} {ranges : List (UInt64 × UInt64)}
  {promotions : RangeMap} {s t : Promoter} {entries : Iterator} {k : Nat}

/-- `operator[]` finds an entry that is there, and adds none. -/
lemma operatorIndex_mem {entry : UInt64 × List (UInt64 × UInt64)} (mem : entry ∈ promotions.toList) :
    operatorIndex promotions entry.1 = (promotions, entry.2) := by
  have look : promotions[entry.1]? = some entry.2 := Std.TreeMap.mem_toList_iff_getElem?_eq_some.mp mem
  rw [operatorIndex, look]

/-- Behind an entry comes the next one. -/
lemma increment_eq {before after : Iterator} {entry : UInt64 × List (UInt64 × UInt64)}
    (split : promotions.toList = before ++ entry :: after) :
    increment promotions entry.1 = after.head?.map Prod.fst := by
  have sorted := sorted_toList promotions
  rw [split] at sorted
  obtain ⟨_, sorted, less⟩ := List.pairwise_append.mp sorted
  obtain ⟨greater, _⟩ := List.pairwise_cons.mp sorted
  have none : before.find? (fun e => decide (entry.1 < e.1)) = none := by
    rw [List.find?_eq_none]
    intro e he
    rw [decide_eq_true_eq]
    exact UInt64.lt_asymm (less e he entry List.mem_cons_self)
  rw [increment, split, List.find?_append, none, Option.none_or, List.find?_cons_of_neg]
  · cases after with
    | nil => rfl
    | cons e after =>
      have next : decide (entry.1 < e.1) = true := decide_eq_true (greater e List.mem_cons_self)
      rw [List.find?_cons, next]
      rfl
  · rw [decide_eq_true_eq]
    exact UInt64.lt_irrefl _

/-- The loop starts at the first entry. -/
lemma At.start : At kill pmdPagesize promotions ⟨0, promotions, first promotions, [.usleep appTime]⟩ where
  same := rfl
  within := Nat.zero_le _
  it := rfl
  alive := nofun
  issued := rfl
  zero _ _ mem := by
    rw [List.take_zero] at mem
    cases mem

/-- An iteration, at an entry and with a page size for its ranges. -/
lemma At.next (at' : At kill pmdPagesize promotions s) (more : kill s.iterations = true)
    {entry : UInt64 × List (UInt64 × UInt64)} (look : promotions.toList[s.iterations]? = some entry)
    (size : pmdPagesize = 0 → entry.2 = []) :
    ∃ t, iteration pmdPagesize s = some t ∧ t.iterations = s.iterations + 1 ∧ At kill pmdPagesize promotions t := by
  obtain ⟨lt, here⟩ := List.getElem?_eq_some_iff.mp look
  have split : promotions.toList = promotions.toList.take s.iterations ++
      entry :: promotions.toList.drop (s.iterations + 1) := by
    rw [← here, List.getElem_cons_drop, List.take_append_drop]
  have it : s.it = some entry.1 := by
    rw [at'.it, List.head?_drop, look]
    rfl
  have taken : promotions.toList.take (s.iterations + 1) = promotions.toList.take s.iterations ++ [entry] := by
    rw [List.take_add_one, look]
    rfl
  have ranges : ¬ (pmdPagesize = 0 ∧ entry.2 ≠ []) := fun h => h.2 (size h.1)
  have step : iteration pmdPagesize s = some
      { iterations := s.iterations + 1
        promotionsOverTime := promotions
        it := increment promotions entry.1
        events := s.events ++ (entry.2.map fun range => .madvise (callFor pmdPagesize entry.1 .promote range)) ++
          [.usleep promotionSleepTime] } := by
    rw [iteration, it, at'.same]
    simp only [Option.bind_eq_bind, Option.bind_some, operatorIndex_mem (List.mem_of_getElem? look),
      adviseRanges_cut, if_neg ranges]
  refine ⟨_, step, rfl, rfl, lt, ?_, ?_, ?_, ?_⟩
  · dsimp only
    rw [increment_eq split]
  · intro n le
    rcases Nat.lt_succ_iff_lt_or_eq.mp le with lt | rfl
    · exact at'.alive n lt
    · exact more
  · dsimp only
    rw [taken, calls_append, calls_append, calls_cut, at'.issued, callsOf, callsOf, List.flatMap_append,
      List.flatMap_singleton]
    exact List.append_nil _
  · intro zero e mem
    dsimp only at mem
    rw [taken, List.mem_append, List.mem_singleton] at mem
    rcases mem with mem | rfl
    · exact at'.zero zero e mem
    · exact size zero

/-- Behind the last entry the next iteration dereferences `end()`. -/
lemma At.end' (at' : At kill pmdPagesize promotions s) (all : promotions.toList[s.iterations]? = none) :
    iteration pmdPagesize s = none := by
  have it : s.it = none := by
    rw [at'.it, List.head?_drop, all]
    rfl
  rw [iteration, it]
  rfl

/-- Without a page size the first range stops the program. -/
lemma At.stop (at' : At kill 0 promotions s) {entry : UInt64 × List (UInt64 × UInt64)}
    (look : promotions.toList[s.iterations]? = some entry) (some : entry.2 ≠ []) : iteration 0 s = none := by
  have it : s.it = Option.some entry.1 := by
    rw [at'.it, List.head?_drop, look]
    rfl
  rw [iteration, it, at'.same]
  simp only [Option.bind_eq_bind, Option.bind_some, operatorIndex_mem (List.mem_of_getElem? look),
    adviseRanges_zero some, Option.bind_none]

/-- A result of an iteration is at the next entry. -/
lemma At.iteration (at' : At kill pmdPagesize promotions s) (more : kill s.iterations = true)
    (h : iteration pmdPagesize s = some t) : At kill pmdPagesize promotions t := by
  cases look : promotions.toList[s.iterations]? with
  | none =>
    rw [at'.end' look] at h
    cases h
  | some entry =>
    have size : pmdPagesize = 0 → entry.2 = [] := by
      rintro rfl
      by_contra some
      rw [at'.stop look some] at h
      cases h
    obtain ⟨u, step, _, next⟩ := at'.next more look size
    obtain rfl : u = t := Option.some.inj (step.symm.trans h)
    exact next

/-- The loop has ended with the entries for which the target has lived. -/
lemma launch_result {fuel : Nat} (h : launchPromoter kill pmdPagesize promotions fuel = some s) :
    At kill pmdPagesize promotions s ∧ LivesFor kill s.iterations := by
  obtain ⟨heads, dead⟩ := whileLoop_heads h
  have at' : At kill pmdPagesize promotions s := heads.inv .start fun _ _ at' more step => at'.iteration more step
  exact ⟨at', at'.alive, dead⟩

/-- The loop goes on only while the process lives. -/
lemma At.lt (at' : At kill pmdPagesize promotions s) (more : kill s.iterations = true) (lives : LivesFor kill k) :
    s.iterations < k := by
  refine Nat.lt_of_not_le fun ge => ?_
  have dead := lives.2
  rcases Nat.eq_or_lt_of_le ge with rfl | gt
  · rw [more] at dead
    cases dead
  · rw [at'.alive k gt] at dead
    cases dead

/-- If the target does not live longer than there are entries, the loop ends. -/
lemma exists_launch (lives : LivesFor kill k) (le : k ≤ promotions.toList.length)
    (zero : pmdPagesize = 0 → ∀ entry ∈ promotions.toList.take k, entry.2 = []) :
    ∃ fuel s, launchPromoter kill pmdPagesize promotions fuel = some s := by
  have step : ∀ s, At kill pmdPagesize promotions s → kill s.iterations = true →
      ∃ t, iteration pmdPagesize s = some t ∧ At kill pmdPagesize promotions t ∧
        k - t.iterations < k - s.iterations := by
    intro s at' more
    have lt := at'.lt more lives
    have look : promotions.toList[s.iterations]? = some promotions.toList[s.iterations] :=
      List.getElem?_eq_getElem (lt.trans_le le)
    have here : promotions.toList[s.iterations] ∈ promotions.toList.take k :=
      List.mem_take_iff_getElem.mpr ⟨s.iterations, lt_min lt (lt.trans_le le), rfl⟩
    obtain ⟨t, h, count, next⟩ := at'.next more look fun z => zero z _ here
    exact ⟨t, h, next, by omega⟩
  obtain ⟨fuel, s, h, _⟩ := whileLoop_total _ (fun s : Promoter => k - s.iterations) At.start step
  exact ⟨fuel, s, h⟩

/-- The lives of two targets with the same checks are equally long. -/
lemma LivesFor.unique {j : Nat} (lives : LivesFor kill j) (lives' : LivesFor kill k) : j = k := by
  rcases Nat.lt_trichotomy j k with lt | rfl | gt
  · exact absurd (lives'.1 j lt) (by rw [lives.2]; exact Bool.false_ne_true)
  · rfl
  · exact absurd (lives.1 k gt) (by rw [lives'.2]; exact Bool.false_ne_true)

/-- The loop never uses an iterator at `end()` if and only if the target does not live longer than there are entries. -/
theorem returns_iff (pos : pmdPagesize ≠ 0) :
    (∃ fuel s, launchPromoter kill pmdPagesize promotions fuel = some s) ↔
      ∃ k, LivesFor kill k ∧ k ≤ promotions.size := by
  rw [← Std.TreeMap.length_toList]
  constructor
  · rintro ⟨_, s, h⟩
    obtain ⟨at', lives⟩ := launch_result h
    exact ⟨s.iterations, lives, at'.within⟩
  · rintro ⟨k, lives, le⟩
    exact exists_launch lives le fun zero => absurd zero pos

/-- The ranges that are aligned are advised as they are. -/
lemma callsOf_aligned (aligned : AllAligned pmdPagesize entries) :
    callsOf pmdPagesize entries = callsFor .promote entries := by
  refine List.flatMap_congr ?_
  intro entry mem
  refine List.map_congr_left ?_
  intro range hr
  exact callFor_aligned (aligned entry mem range hr)

/-- There are as many calls as ranges, aligned or not. -/
lemma length_callsOf : (callsOf pmdPagesize entries).length = (callsFor .promote entries).length := by
  simp only [callsOf, callsFor, List.length_flatMap, List.length_map]

/-- The calls come in the order of their times. -/
lemma callsFor_sorted (sorted : entries.Pairwise fun entry entry' => entry.1 < entry'.1) :
    (callsFor advice entries).Pairwise fun a b => a.time ≤ b.time := by
  refine List.pairwise_flatMap.mpr ⟨?_, ?_⟩
  · intro entry _
    refine List.pairwise_of_forall_mem_list ?_
    intro a ha b hb
    rw [(mem_calls_entry ha).2, (mem_calls_entry hb).2]
    exact UInt64.le_refl _
  · refine sorted.imp ?_
    intro entry entry' lt a ha b hb
    rw [(mem_calls_entry ha).2, (mem_calls_entry hb).2]
    exact UInt64.le_of_lt lt

/-- There is no call if and only if there is no range. -/
lemma callsFor_eq_nil : callsFor advice entries = [] ↔ ∀ entry ∈ entries, entry.2 = [] := by
  simp only [callsFor, List.flatMap_eq_nil_iff, List.map_eq_nil_iff]

/-- The launcher issues all ranges if and only if they are made of huge pages and the target is found alive as many times
    as there are times in the map, or at least for all times with ranges. -/
theorem launched_iff : Launched kill pmdPagesize promotions ↔
    (∃ k, LivesFor kill k ∧ k ≤ promotions.size ∧ ∀ entry ∈ promotions.toList.drop k, entry.2 = []) ∧
      AllAligned pmdPagesize promotions.toList ∧
        (pmdPagesize = 0 → ∀ entry ∈ promotions.toList, entry.2 = []) := by
  have parts : ∀ k, callsFor .promote promotions.toList =
      callsFor .promote (promotions.toList.take k) ++ callsFor .promote (promotions.toList.drop k) := by
    intro k
    rw [callsFor, callsFor, callsFor, ← List.flatMap_append, List.take_append_drop]
  rw [← Std.TreeMap.length_toList]
  constructor
  · rintro ⟨_, s, h, once, _⟩
    obtain ⟨at', lives⟩ := launch_result h
    have rest : ∀ entry ∈ promotions.toList.drop s.iterations, entry.2 = [] := by
      have lengths := once.length_eq
      rw [at'.issued, length_callsOf, parts s.iterations, List.length_append] at lengths
      have none : callsFor .promote (promotions.toList.drop s.iterations) = [] :=
        List.eq_nil_of_length_eq_zero (by omega)
      exact callsFor_eq_nil.mp none
    refine ⟨⟨s.iterations, lives, at'.within, rest⟩, ?_, ?_⟩
    · refine @allAligned_of_calls pmdPagesize .promote _ ?_
      intro c mem
      have made := once.mem_iff.mpr mem
      rw [at'.issued] at made
      obtain ⟨_, _, made⟩ := List.mem_flatMap.mp made
      obtain ⟨range, _, rfl⟩ := List.mem_map.mp made
      exact ⟨div_mul_mod _ _, div_mul_mod _ _⟩
    · intro zero entry mem
      rw [← List.take_append_drop s.iterations promotions.toList, List.mem_append] at mem
      exact mem.elim (at'.zero zero entry) (rest entry)
  · rintro ⟨⟨k, lives, le, rest⟩, aligned, zero⟩
    obtain ⟨fuel, s, h⟩ := exists_launch lives le fun z entry mem => zero z entry (List.mem_of_mem_take mem)
    obtain ⟨at', lives'⟩ := launch_result h
    obtain rfl := lives.unique lives'
    have all : calls s.events = callsFor .promote promotions.toList := by
      rw [at'.issued, callsOf_aligned fun entry mem => aligned entry (List.mem_of_mem_take mem),
        parts s.iterations, callsFor_eq_nil.mpr rest, List.append_nil]
    refine ⟨fuel, s, h, ?_, ?_⟩
    · rw [all]
    · rw [all]
      exact callsFor_sorted (sorted_toList promotions)

/-- The target is still alive half a minute after the last of two batches. -/
theorem outlived : ¬ Launched (fun n => n < 3) 2097152 batches := by
  rintro ⟨_, s, h, _⟩
  obtain ⟨at', _, dead⟩ := launch_result h
  have within := at'.within
  rw [batches_toList] at within
  have le : s.iterations ≤ 2 := within
  have dead := of_decide_eq_false dead
  omega

end

end PromotionCache.Apps.LaunchCommon
