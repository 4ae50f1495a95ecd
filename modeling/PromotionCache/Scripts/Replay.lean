import PromotionCache.Scripts.PromotionFile
import PromotionCache.Utils.VirtualTime

/-!
# Replaying promotions at their time

The file of `get_promotions.py`, read by `read_promotions_over_time` and issued by `launch_promoter`. The
simulator runs a pass at the access counts of the seconds 1, 31, 61 and so on, and with a factor above 1 also
at those of the seconds 30, 60, 90; the script leaves out a pass without a new region; and the launcher
issues a batch at the seconds 1, 31, 61 and so on, whichever it is.
-/

namespace PromotionCache.Scripts
open Lib Pcc Utils

/-- Every batch of the file is issued, at the second of its access count with so many accesses in a second. -/
def ReplayedOnTime (interval : Nat) (file : List (Nat × Int)) (promotions : RangeMap) (events : List Event) :
    Prop :=
  ∀ line ∈ file, promotions.getD (UInt64.ofNat line.1) [] ≠ [] ∧
    ∃ v, v * interval = 1000000 * line.1 ∧
      IssuedAt events (UInt64.ofNat line.1) (promotions.getD (UInt64.ofNat line.1) []) v

section
variable {recs : List (UInt64 × UInt64)} {file : List (Nat × Int)} {m : RangeMap} {events : List Event}
  {cfg : Config} {as : List UInt64} {limit : Int} {t : Nat}

/-- The map that is read from these lines. -/
def mapOf (recs : List (UInt64 × UInt64)) : RangeMap :=
  (recs.splitBy (follows hugePageSize)).foldl (pushRun hugePageSize) ∅

/-- The runs have the times of the records. -/
lemma exists_run_iff {t : UInt64} :
    (∃ run ∈ recs.splitBy (follows hugePageSize), timeOf run = t) ↔ t ∈ recs.map Prod.fst := by
  constructor
  · rintro ⟨run, mem, rfl⟩
    cases run with
    | nil => exact absurd mem (List.nil_notMem_splitBy _ _)
    | cons first run =>
      have part := List.infix_of_mem_flatten mem
      rw [List.flatten_splitBy] at part
      exact List.mem_map_of_mem (part.subset List.mem_cons_self)
  · intro mem
    obtain ⟨line, here, rfl⟩ := List.mem_map.mp mem
    rw [← List.flatten_splitBy (follows hugePageSize) recs] at here
    obtain ⟨run, hrun, mem⟩ := List.mem_flatten.mp here
    exact ⟨run, hrun, (time_of_mem (List.isChain_of_mem_splitBy hrun) mem).symm⟩

/-- No time of the map is without ranges. -/
lemma nonempty_mapOf : ∀ e ∈ (mapOf recs).toList, e.2 ≠ [] := by
  intro e mem none
  obtain ⟨ranges, run, hrun, time⟩ := mem_toList_pushRuns mem
  rw [ranges, List.map_eq_nil_iff, List.filter_eq_nil_iff] at none
  exact none run hrun (decide_eq_true time)

/-- The ranges of the map are aligned. -/
lemma aligned_mapOf : AllAligned hugePageSize (mapOf recs).toList := by
  intro e mem range hrange
  rw [(mem_toList_pushRuns mem).1] at hrange
  obtain ⟨run, _, rfl⟩ := List.mem_map.mp hrange
  have whole : ∀ x : UInt64, x * hugePageSize % hugePageSize = 0 := by
    intro x
    have size : hugePageSize.toNat = 2097152 := rfl
    rw [← UInt64.toNat_inj, UInt64.toNat_mod, UInt64.toNat_mul, size, UInt64.toNat_zero]
    omega
  exact ⟨whole _, whole _⟩

/-- The times of the map are those of the records. -/
lemma mem_mapOf {t : UInt64} : t ∈ mapOf recs ↔ t ∈ recs.map Prod.fst := by
  rw [mapOf, mem_pushRuns, exists_run_iff]
  exact or_iff_right Std.TreeMap.not_mem_emptyc

/-- The times of the map are those of the file. -/
lemma mem_mapOf_iff {t : UInt64} :
    t ∈ mapOf (file.map recordOf) ↔ ∃ line ∈ file, UInt64.ofNat line.1 = t := by
  rw [mem_mapOf, List.map_map, List.mem_map]
  refine exists_congr fun line => and_congr_right fun _ => ?_
  rw [Function.comp_apply, recordOf, ofInt_natCast]

/-- The batches of the file are the entries of the map. -/
lemma replayed_iff {interval : Nat} (fit : ∀ line ∈ file, line.1 < 2 ^ 64) :
    ReplayedOnTime interval file (mapOf (file.map recordOf)) events ↔
      ∀ e ∈ (mapOf (file.map recordOf)).toList, ∃ v, v * interval = 1000000 * e.1.toNat ∧
        IssuedAt events e.1 e.2 v := by
  have entries := entries_toList (m := mapOf (file.map recordOf)) nonempty_mapOf
  have value : ∀ line ∈ file, (UInt64.ofNat line.1).toNat = line.1 := by
    intro line mem
    rw [UInt64.toNat_ofNat', Nat.mod_eq_of_lt (fit line mem)]
  constructor
  · intro replayed e mem
    have looks := entries.looks e mem
    have held : e.1 ∈ mapOf (file.map recordOf) := mem_times.mp (List.mem_map_of_mem mem)
    obtain ⟨line, here, time⟩ := mem_mapOf_iff.mp held
    obtain ⟨_, v, hv, issued⟩ := replayed line here
    rw [time, looks] at issued
    rw [← value line here, time] at hv
    exact ⟨v, hv, issued⟩
  · intro issued line mem
    have held := mem_times.mpr (mem_mapOf_iff.mpr ⟨line, mem, rfl⟩)
    obtain ⟨e, here, time⟩ := List.mem_map.mp held
    obtain ⟨v, hv, at_⟩ := issued e here
    have looks := entries.looks e here
    rw [time] at looks hv at_
    rw [value line mem] at hv
    rw [looks]
    exact ⟨entries.nonempty e here, v, hv, at_⟩

/-- The access counts of the seconds 1, 31, 61 and so on, as many as there are batches. -/
def OnSchedule (interval n : Nat) (times : Nat → Prop) : Prop :=
  ∀ t, times t ↔ ∃ i < n, t = interval * (1 + 30 * i)

/-- The times of the map in their order are these access counts if the set of them is. -/
lemma times_eq_iff {interval n : Nat} (fit : ∀ line ∈ file, line.1 < 2 ^ 64)
    (pos : file ≠ [] → 0 < interval) :
    (mapOf (file.map recordOf)).toList.map (·.1.toNat) =
      (List.range n).map (fun i => interval * (1 + 30 * i)) ↔
    OnSchedule interval n fun t => t ∈ file.map Prod.fst := by
  have times : ∀ t, t ∈ (mapOf (file.map recordOf)).toList.map (·.1.toNat) ↔ t ∈ file.map Prod.fst := by
    intro t
    have split : (mapOf (file.map recordOf)).toList.map (·.1.toNat) =
        ((mapOf (file.map recordOf)).toList.map Prod.fst).map UInt64.toNat := by
      rw [List.map_map]
      rfl
    rw [split, List.mem_map, List.mem_map]
    constructor
    · rintro ⟨time, mem, rfl⟩
      obtain ⟨line, here, rfl⟩ := mem_mapOf_iff.mp (mem_times.mp mem)
      refine ⟨line, here, ?_⟩
      rw [UInt64.toNat_ofNat', Nat.mod_eq_of_lt (fit line here)]
    · rintro ⟨line, here, rfl⟩
      refine ⟨UInt64.ofNat line.1, mem_times.mpr (mem_mapOf_iff.mpr ⟨line, here, rfl⟩), ?_⟩
      rw [UInt64.toNat_ofNat', Nat.mod_eq_of_lt (fit line here)]
  have counts : ∀ t, t ∈ (List.range n).map (fun i => interval * (1 + 30 * i)) ↔
      ∃ i < n, t = interval * (1 + 30 * i) := by
    intro t
    simp only [List.mem_map, List.mem_range, eq_comm]
  constructor
  · intro same t
    show t ∈ file.map Prod.fst ↔ _
    rw [← times, same, counts]
  · intro onSchedule
    have sorted : ((mapOf (file.map recordOf)).toList.map (·.1.toNat)).Pairwise (· < ·) := by
      rw [List.pairwise_map]
      exact (sorted_toList _).imp fun lt => UInt64.lt_iff_toNat_lt.mp lt
    have sorted' : ((List.range n).map fun i => interval * (1 + 30 * i)).Pairwise (· < ·) := by
      rw [List.pairwise_map]
      refine List.Pairwise.imp_of_mem ?_ List.pairwise_lt_range
      intro i j hi _ lt
      have some : file ≠ [] := by
        rintro rfl
        have first := (onSchedule (interval * (1 + 30 * i))).mpr ⟨i, List.mem_range.mp hi, rfl⟩
        exact absurd first List.not_mem_nil
      exact Nat.mul_lt_mul_of_pos_left (by omega) (pos some)
    refine sorted.eq_of_mem_iff sorted' ?_
    intro t
    rw [times, counts]
    exact onSchedule t

variable {interval : Nat} {promotions : TextFile} {start time off : UInt64} {kill : Nat → Bool}
  {demotions : RangeMap}

/-- A file is replayed on time if and only if its pages can be read, its access counts are on schedule, the
    target lives for as many iterations, and the demotions last. -/
theorem replaysFile_iff (text : promotions.text = promotionFile file)
    (fit : ∀ line ∈ file, line.1 < 2 ^ 64) (pos : file ≠ [] → 0 < interval) :
    (∃ m events, readPromotionsOverTime hugePageSize start time off promotions = some m ∧
      launchPromoter kill hugePageSize m demotions = some events ∧
        ReplayedOnTime interval file m events) ↔
    (∀ line ∈ file, line.2.natAbs < 2 ^ 64) ∧
      ∃ n, OnSchedule interval n (fun t => t ∈ file.map Prod.fst) ∧ (∀ i < n, kill i = true) ∧
        (n = 0 → kill 0 = false) ∧
          (0 < n → ∃ d ∈ demotions, ∀ t ∈ file.map Prod.fst, d.toNat ∈ file.map Prod.fst → t ≤ d.toNat) := by
  have value : ∀ line ∈ file, (UInt64.ofNat line.1).toNat = line.1 := by
    intro line mem
    rw [UInt64.toNat_ofNat', Nat.mod_eq_of_lt (fit line mem)]
  have mem_times' : ∀ d, d ∈ (mapOf (file.map recordOf)).toList.map Prod.fst ↔
      d.toNat ∈ file.map Prod.fst := by
    intro d
    rw [mem_times, mem_mapOf_iff, List.mem_map]
    refine exists_congr fun line => and_congr_right fun mem => ?_
    rw [← UInt64.toNat_inj, value line mem]
  have lasts : Lasts (mapOf (file.map recordOf)).toList demotions.toList ↔
      ∃ d ∈ demotions, ∀ t ∈ file.map Prod.fst, d.toNat ∈ file.map Prod.fst → t ≤ d.toNat := by
    rw [Lasts]
    refine exists_congr fun d => and_congr mem_times ?_
    rw [mem_times' d]
    constructor
    · intro le t mem here
      obtain ⟨line, hline, rfl⟩ := List.mem_map.mp mem
      have listed := (mem_times' (UInt64.ofNat line.1)).mpr (by rwa [value line hline])
      have le := UInt64.le_iff_toNat_le.mp (le _ listed here)
      rwa [value line hline] at le
    · intro le t mem here
      exact UInt64.le_iff_toNat_le.mpr (le _ ((mem_times' t).mp mem) here)
  by_cases readable : ∀ line ∈ file, line.2.natAbs < 2 ^ 64
  · have all : ∀ line ∈ file, Readable line := fun line mem => ⟨fit line mem, readable line mem⟩
    have read := mapM_promotionFile file
    rw [if_pos all, ← text] at read
    rw [readPromotionsOverTime_eq read, and_iff_right readable, ← lasts]
    simp only [← times_eq_iff fit pos]
    rw [← issuedAt_all_iff interval nonempty_mapOf aligned_mapOf]
    constructor
    · rintro ⟨m, events, e, run, replayed⟩
      obtain rfl := Option.some.inj e
      exact ⟨events, run, (replayed_iff fit).mp replayed⟩
    · rintro ⟨events, run, issued⟩
      exact ⟨_, events, rfl, run, (replayed_iff fit).mpr issued⟩
  · have read := mapM_promotionFile file
    rw [if_neg fun all => readable fun line mem => (all line mem).2, ← text] at read
    have fails : readPromotionsOverTime hugePageSize start time off promotions = none := by
      rw [readPromotionsOverTime, foldlM_timePage, read]
      rfl
    rw [fails]
    constructor
    · rintro ⟨_, _, e, _⟩
      cases e
    · intro h
      exact absurd h.1 readable

end

section
variable {cfg : Config} {as : List UInt64} {s : Sim} {ostream : Float → List Char} {app : String}
  {lines : List (List Char)} {limit offset : Int} {file : List (Nat × Int)} {promotions : TextFile}
  {start time off : UInt64} {kill : Nat → Bool} {demotions : RangeMap} {t : Nat}

/-- There is an access count only where there is a pass. -/
lemma Recorded.bounds (h : Single.simulate cfg as = some s) (recorded : Recorded cfg as limit t) :
    t < 2 ^ 64 ∧ 0 < cfg.accessInterval.toNat := by
  obtain ⟨⟨base, ⟨k, m, lists, rfl⟩, _⟩, _⟩ := recorded
  refine ⟨Nat.mod_lt _ (by decide), Nat.pos_of_ne_zero ?_⟩
  intro zero
  have some : as ≠ [] := by
    rintro rfl
    obtain ⟨one, le⟩ := lists.1.le
    exact Nat.not_succ_le_zero 0 (Nat.le_trans one le)
  have period := Single.simulate_period h some
  rw [Config.period, zero] at period
  exact Nat.lt_irrefl 0 period

/-- A promotion is recorded at a pass. -/
lemma Recorded.due (recorded : Recorded cfg as limit t) : Single.passDue cfg t = true := by
  obtain ⟨⟨base, ⟨k, m, lists, rfl⟩, _⟩, _⟩ := recorded
  obtain ⟨⟨_, _, _, _, _, _, _, due⟩, _⟩ := id lists
  rwa [lists.1.total] at due

/-- With a factor of 30 the access counts are on schedule if and only if no pass of the seconds 30, 60 and so on
    lists a new region and no pass of the others leaves a gap. -/
theorem exists_onSchedule_iff (h : Single.simulate cfg as = some s) (factor : cfg.factor.toNat = 30)
    (small : 30 * cfg.accessInterval.toNat < 2 ^ 64) :
    (∃ n, OnSchedule cfg.accessInterval.toNat n (Recorded cfg as limit)) ↔
      (∀ i, ¬ Recorded cfg as limit (30 * cfg.accessInterval.toNat * i)) ∧
        ∀ i, Recorded cfg as limit (cfg.accessInterval.toNat * (1 + 30 * (i + 1))) →
          Recorded cfg as limit (cfg.accessInterval.toNat * (1 + 30 * i)) := by
  have period : cfg.period = 30 * cfg.accessInterval.toNat := by
    rw [Config.period, factor, word_of_lt small]
  constructor
  · rintro ⟨n, onSchedule⟩
    constructor
    · intro i recorded
      obtain ⟨j, _, e⟩ := (onSchedule _).mp recorded
      rw [Nat.mul_comm 30, Nat.mul_assoc] at e
      have := Nat.eq_of_mul_eq_mul_left (recorded.bounds h).2 e
      omega
    · intro i recorded
      obtain ⟨j, lt, e⟩ := (onSchedule _).mp recorded
      have := Nat.eq_of_mul_eq_mul_left (recorded.bounds h).2 e
      exact (onSchedule _).mpr ⟨i, by omega, rfl⟩
  · rintro ⟨noExtra, noGap⟩
    -- the counts end, as they fit in 64 bits
    have ends : ∃ n, ¬ Recorded cfg as limit (cfg.accessInterval.toNat * (1 + 30 * n)) := by
      refine ⟨2 ^ 64, fun recorded => ?_⟩
      obtain ⟨lt, pos⟩ := recorded.bounds h
      have le := Nat.mul_le_mul_right (1 + 30 * 2 ^ 64) pos
      omega
    classical
    refine ⟨Nat.find ends, fun t => ⟨fun recorded => ?_, ?_⟩⟩
    · have closed : ∀ i j, i ≤ j → Recorded cfg as limit (cfg.accessInterval.toNat * (1 + 30 * j)) →
          Recorded cfg as limit (cfg.accessInterval.toNat * (1 + 30 * i)) := by
        intro i j le
        induction le with
        | refl => exact id
        | step _ ih => exact fun recorded => ih (noGap _ recorded)
      have split := Nat.div_add_mod t cfg.period
      rcases Single.passDue_iff.mp recorded.due with ⟨_, rest⟩ | rest
      · have e : t = cfg.accessInterval.toNat * (1 + 30 * (t / cfg.period)) := by
          rw [rest, period] at split
          rw [period]
          calc t = 30 * cfg.accessInterval.toNat * (t / (30 * cfg.accessInterval.toNat)) +
                cfg.accessInterval.toNat := split.symm
            _ = _ := by ring
        refine ⟨t / cfg.period, ?_, e⟩
        by_contra ge
        rw [e] at recorded
        exact Nat.find_spec ends (closed _ _ (Nat.le_of_not_lt ge) recorded)
      · rw [rest, Nat.add_zero, period] at split
        rw [← split] at recorded
        exact absurd recorded (noExtra _)
    · rintro ⟨i, lt, rfl⟩
      exact not_not.mp (Nat.find_min ends lt)

/-- The file of promotions of a run is replayed on time if and only if its pages can be read, the access counts
    at which it lists new regions are those of the seconds 1, 31, 61 and so on without a gap, the target lives
    for as many iterations, and the demotions last. -/
theorem replayedOnTime_iff (h : Single.simulate cfg as = some s) (printable : Printable ostream s.cout)
    (logged : Logged ostream app s.cout lines)
    (made : getPromotions .cache app limit offset lines = some file)
    (text : promotions.text = promotionFile file) :
    (∃ m events, readPromotionsOverTime hugePageSize start time off promotions = some m ∧
      launchPromoter kill hugePageSize m demotions = some events ∧
        ReplayedOnTime cfg.accessInterval.toNat file m events) ↔
    (∀ line ∈ file, line.2.natAbs < 2 ^ 64) ∧
      ∃ n, OnSchedule cfg.accessInterval.toNat n (Recorded cfg as limit) ∧ (∀ i < n, kill i = true) ∧
        (n = 0 → kill 0 = false) ∧
          (0 < n → ∃ d ∈ demotions, ∀ t, Recorded cfg as limit t → Recorded cfg as limit d.toNat →
            t ≤ d.toNat) := by
  have times : ∀ t, t ∈ file.map Prod.fst ↔ Recorded cfg as limit t := fun t =>
    mem_getPromotions_times h printable logged made
  have bounds : ∀ line ∈ file, line.1 < 2 ^ 64 ∧ 0 < cfg.accessInterval.toNat := fun line mem =>
    ((times line.1).mp (List.mem_map_of_mem mem)).bounds h
  rw [replaysFile_iff text (fun line mem => (bounds line mem).1)]
  · simp only [times]
  · intro some
    obtain ⟨line, mem⟩ := List.exists_mem_of_ne_nil _ some
    exact (bounds line mem).2

end

/-- How the runs below print numbers. -/
def zeros : Float → List Char := fun _ => "0".toList

/-- Zeros are printed as the pattern has them. -/
lemma printable_zeros (outputs : List Output) : Printable zeros outputs := fun _ _ _ _ _ _ =>
  ⟨['0'], [], [], rfl, by simp, by simp, .inl rfl, .inl rfl⟩

/-- A batch in the first second. -/
theorem replayedOnTime_iff_first :
    ∃ s, Single.simulate ⟨1, 30, 3, 0.9⟩ [2097152, 2101248, 2101248] = some s ∧
      ∃ m events, readPromotionsOverTime hugePageSize 0 0 0 ⟨promotionFile [(3, 1)], by decide⟩ = some m ∧
        launchPromoter (fun _ => true) hugePageSize m (.ofList [(3, [(4194304, 2097152)])] compare) =
          some events ∧
        ReplayedOnTime 3 [(3, 1)] m events := by
  have run : (Single.simulate ⟨1, 30, 3, 0.9⟩ [2097152, 2101248, 2101248]).map (fun s =>
      getPromotions .cache "sssp" 2 0 (s.cout.flatMap (printed zeros))) = some (some [(3, 1)]) := by
    decide +kernel
  obtain ⟨s, h, made⟩ := Option.map_eq_some_iff.mp run
  have times : ∀ t, t ∈ [3] ↔ Recorded ⟨1, 30, 3, 0.9⟩ [2097152, 2101248, 2101248] 2 t := fun t =>
    mem_getPromotions_times h (printable_zeros _) (logged_printed zeros _) made
  refine ⟨s, h, (replayedOnTime_iff h (printable_zeros _) (logged_printed zeros _) made rfl).mpr
    ⟨by simp, 1, ?_, fun _ _ => rfl, by simp, fun _ => ⟨3, ?_, ?_⟩⟩⟩
  · intro t
    rw [← times t, List.mem_singleton]
    constructor
    · rintro rfl
      exact ⟨0, Nat.one_pos, rfl⟩
    · rintro ⟨i, lt, rfl⟩
      obtain rfl : i = 0 := by omega
      rfl
  · decide +kernel
  · intro t recorded _
    rw [← times t, List.mem_singleton] at recorded
    exact Nat.le_of_eq recorded

/-- A batch of the pass in the second 30, which is issued in the first second. -/
theorem batch_early :
    ∃ s, Single.simulate ⟨1, 30, 1, 0.9⟩ (2097152 :: List.replicate 29 2101248) = some s ∧
      Printable zeros s.cout ∧ Logged zeros "sssp" s.cout (s.cout.flatMap (printed zeros)) ∧
      getPromotions .cache "sssp" 2 0 (s.cout.flatMap (printed zeros)) = some [(30, 1)] ∧
      ¬ ∃ m events, readPromotionsOverTime hugePageSize 0 0 0 ⟨promotionFile [(30, 1)], by decide⟩ = some m ∧
        launchPromoter (fun _ => true) hugePageSize m (.ofList [(30, [(4194304, 2097152)])] compare) =
          some events ∧
        ReplayedOnTime 1 [(30, 1)] m events := by
  have run : (Single.simulate ⟨1, 30, 1, 0.9⟩ (2097152 :: List.replicate 29 2101248)).map (fun s =>
      getPromotions .cache "sssp" 2 0 (s.cout.flatMap (printed zeros))) = some (some [(30, 1)]) := by
    decide +kernel
  obtain ⟨s, h, made⟩ := Option.map_eq_some_iff.mp run
  refine ⟨s, h, printable_zeros _, logged_printed zeros _, made, ?_⟩
  intro replayed
  obtain ⟨_, n, onSchedule, _⟩ := (replaysFile_iff rfl (by decide) (fun _ => Nat.one_pos)).mp replayed
  obtain ⟨i, _, e⟩ := (onSchedule 30).mp (by decide)
  omega

end PromotionCache.Scripts
