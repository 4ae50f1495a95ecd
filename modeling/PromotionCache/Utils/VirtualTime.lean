import Mathlib.Tactic.Ring
import PromotionCache.Utils.PageRuns

/-!
# When promotions are issued

The calls of `launch_promoter` with the time at which it makes them, where only its sleeps take time. A time of
the file only says which batch comes next; the batches are issued one `PROMOTION_SLEEP_TIME` apart
(`promoterLoop_timed`).
-/

namespace PromotionCache.Utils
open Lib

/-- The calls among the events, with the microseconds slept before them. -/
def timed : ℕ → List Event → List (ℕ × Call)
  | _, [] => []
  | now, .madvise call :: events => (now, call) :: timed now events
  | now, .usleep microseconds :: events => timed (now + microseconds) events

/-- The promotions among the calls. -/
def promoted (calls : List (ℕ × Call)) : List (ℕ × Call) := calls.filter (·.2.advice = .promote)

/-- Exactly the ranges of a batch are promoted under its time, all of them at one moment. -/
def IssuedAt (events : List Event) (time : UInt64) (ranges : List (UInt64 × UInt64)) (v : ℕ) : Prop :=
  (promoted (timed 0 events)).filter (·.2.time = time) =
    ranges.map fun range => (v, rangeCall time .promote range)

/-- The batches of an iterator, issued one after the other. -/
def issuesFrom : ℕ → Iterator → List (ℕ × Call)
  | _, [] => []
  | now, (time, ranges) :: ps =>
    ranges.map (fun range => (now, rangeCall time .promote range)) ++ issuesFrom (now + promotionSleepTime) ps

/-- Some time of the demotions is not one of the promotions before the last. -/
def Lasts (promotions demotions : Iterator) : Prop :=
  ∃ d ∈ demotions.map Prod.fst, ∀ t ∈ promotions.map Prod.fst, d ∈ promotions.map Prod.fst → t ≤ d

/-- What an iteration leaves of the demotions. -/
def leave (time : UInt64) : Iterator → Iterator
  | [] => []
  | d :: ds => if time = d.1 then ds else d :: ds

section
variable {kill : Nat → Bool} {pmdPagesize time : UInt64} {advice : Advice} {ranges : List (UInt64 × UInt64)}
  {promotions demotions : RangeMap} {n now : Nat} {ps ds : Iterator} {es : List Event}

/-- Calls take no time. -/
lemma timed_calls {f : UInt64 × UInt64 → Call} :
    timed now (ranges.map (fun range => .madvise (f range)) ++ es) =
      ranges.map (fun range => (now, f range)) ++ timed now es := by
  induction ranges with
  | nil => rfl
  | cons range ranges ih => exact congrArg _ ih

/-- The promotions among two lists of calls. -/
@[simp] lemma promoted_append (cs cs' : List (ℕ × Call)) :
    promoted (cs ++ cs') = promoted cs ++ promoted cs' := List.filter_append _ _

/-- The calls of a batch of promotions are promotions. -/
lemma promoted_promote : promoted (ranges.map fun range => (now, callFor pmdPagesize time .promote range)) =
    ranges.map fun range => (now, callFor pmdPagesize time .promote range) := by
  rw [promoted, List.filter_eq_self]
  intro c mem
  obtain ⟨range, _, rfl⟩ := List.mem_map.mp mem
  exact decide_eq_true rfl

/-- Those of a batch of demotions are none. -/
lemma promoted_demote :
    promoted (ranges.map fun range => (now, callFor pmdPagesize time .demote range)) = [] := by
  rw [promoted, List.filter_eq_nil_iff]
  intro c mem
  obtain ⟨range, _, rfl⟩ := List.mem_map.mp mem
  exact of_decide_eq_false rfl

/-- The demotions that an iteration issues. -/
def demotedAt (pmdPagesize : UInt64) (demotions : RangeMap) (time next : UInt64) : List Event :=
  if time = next then
    (demotions.getD time []).map fun range => .madvise (callFor pmdPagesize time .demote range)
  else []

/-- An iteration, where the iterators are not at `end()`. -/
lemma promoterLoop_cons (pos : pmdPagesize ≠ 0) (alive : kill n = true)
    (looks : promotions.getD time [] = ranges) (d : UInt64 × List (UInt64 × UInt64)) :
    promoterLoop kill pmdPagesize promotions demotions n ((time, ranges) :: ps) (d :: ds) =
      if ps = [] then
        some (ranges.map (fun range => .madvise (callFor pmdPagesize time .promote range)) ++
          demotedAt pmdPagesize demotions time d.1)
      else
        (promoterLoop kill pmdPagesize promotions demotions (n + 1) ps (leave time (d :: ds))).map fun rest =>
          ranges.map (fun range => .madvise (callFor pmdPagesize time .promote range)) ++
            demotedAt pmdPagesize demotions time d.1 ++ .usleep promotionSleepTime :: rest := by
  obtain ⟨next, later⟩ := d
  rw [promoterLoop, if_pos alive, looks, adviseRanges_some time .promote pos]
  by_cases due : time = next
  · simp only [Option.bind_eq_bind, Option.bind_some, List.head?_cons, if_pos due,
      adviseRanges_some time .demote pos, List.tail_cons, List.isEmpty_iff, demotedAt, leave]
    split
    · rfl
    · rw [Option.map_eq_bind]
      rfl
  · simp only [Option.bind_eq_bind, Option.bind_some, List.head?_cons, if_neg due, List.isEmpty_iff,
      demotedAt, leave]
    split
    · rfl
    · rw [Option.map_eq_bind]
      rfl

/-- A loop that never ends is given no result. -/
lemma promoterLoop_end (alive : kill n = true) :
    promoterLoop kill pmdPagesize promotions demotions n ps [] = none := by
  cases ps with
  | nil => rw [promoterLoop, if_pos alive]
  | cons p ps =>
    rw [promoterLoop, if_pos alive]
    cases adviseRanges pmdPagesize p.1 .promote (promotions.getD p.1 []) with
    | none => rfl
    | some _ => rfl

/-- What is promoted at the beginning of an iteration. -/
lemma promoted_iteration (aligned : ∀ r ∈ ranges, Aligned pmdPagesize r) (next : UInt64) :
    promoted (timed now (ranges.map (fun range => .madvise (callFor pmdPagesize time .promote range)) ++
      demotedAt pmdPagesize demotions time next ++ es)) =
    ranges.map (fun range => (now, rangeCall time .promote range)) ++ promoted (timed now es) := by
  have same : ranges.map (fun range => (now, callFor pmdPagesize time .promote range)) =
      ranges.map fun range => (now, rangeCall time .promote range) :=
    List.map_congr_left fun range mem => by rw [callFor_aligned (aligned range mem)]
  rw [List.append_assoc, timed_calls, promoted_append, promoted_promote, same, demotedAt]
  split
  · rw [timed_calls, promoted_append, promoted_demote, List.nil_append]
  · rfl

/-- The loop issues the batches one after the other while the target is alive. -/
theorem promoterLoop_timed (pos : pmdPagesize ≠ 0) (hp : Entries promotions ps)
    (aligned : AllAligned pmdPagesize ps)
    (h : promoterLoop kill pmdPagesize promotions demotions n ps ds = some es) :
    ∃ j ≤ ps.length, (∀ i < j, kill (n + i) = true) ∧ (j < ps.length ∨ ps = [] → kill (n + j) = false) ∧
      ∀ now, promoted (timed now es) = issuesFrom now (ps.take j) := by
  induction ps generalizing n ds es with
  | nil =>
    rw [promoterLoop] at h
    split at h
    case isTrue => cases h
    case isFalse dead =>
      obtain rfl := Option.some.inj h
      exact ⟨0, Nat.le_refl 0, by simp, fun _ => Bool.eq_false_of_not_eq_true dead, fun _ => rfl⟩
  | cons p ps ih =>
    obtain ⟨time, ranges⟩ := p
    have looks : promotions.getD time [] = ranges := hp.looks (time, ranges) List.mem_cons_self
    obtain ⟨first, later⟩ := List.forall_mem_cons.mp aligned
    cases alive : kill n with
    | false =>
      rw [promoterLoop, alive] at h
      obtain rfl := Option.some.inj h
      exact ⟨0, Nat.zero_le _, by simp, fun _ => alive, fun _ => rfl⟩
    | true =>
      cases ds with
      | nil =>
        rw [promoterLoop_end alive] at h
        cases h
      | cons d ds =>
        rw [promoterLoop_cons pos alive looks] at h
        split at h
        case isTrue last =>
          obtain rfl := Option.some.inj h
          subst last
          refine ⟨1, Nat.le_refl 1, ?_, by simp, ?_⟩
          · intro i lt
            obtain rfl : i = 0 := by omega
            exact alive
          · intro now
            rw [← List.append_nil (_ ++ _), promoted_iteration first]
            rfl
        case isFalse more =>
          obtain ⟨rest, hrest, rfl⟩ := Option.map_eq_some_iff.mp h
          obtain ⟨j, le, lives, dies, calls⟩ := ih hp.tail later hrest
          refine ⟨j + 1, Nat.succ_le_succ le, ?_, ?_, ?_⟩
          · intro i lt
            cases i with
            | zero => exact alive
            | succ i =>
              rw [Nat.add_succ, ← Nat.succ_add]
              exact lives i (by omega)
          · rintro (short | none)
            · rw [Nat.add_succ, ← Nat.succ_add]
              exact dies (.inl (by simpa using short))
            · cases none
          · intro now
            rw [promoted_iteration first, List.take_succ_cons, issuesFrom]
            exact congrArg _ (calls (now + promotionSleepTime))

/-- Whether the demotions last does not change with an iteration that is not the last. -/
lemma lasts_leave (hp : Entries promotions ((time, ranges) :: ps)) (more : ps ≠ [])
    {d : UInt64 × List (UInt64 × UInt64)} (hd : (d :: ds).Pairwise fun e e' => e.1 < e'.1) :
    Lasts ((time, ranges) :: ps) (d :: ds) ↔ Lasts ps (leave time (d :: ds)) := by
  have first : ∀ t ∈ ps.map Prod.fst, time < t := fun t mem => hp.lt mem
  obtain ⟨p, mem⟩ := List.exists_mem_of_ne_nil _ more
  have some : p.1 ∈ ps.map Prod.fst := List.mem_map_of_mem mem
  have notFirst : ∀ d, (∀ t ∈ time :: ps.map Prod.fst, d ∈ time :: ps.map Prod.fst → t ≤ d) → d ≠ time := by
    rintro d le rfl
    exact absurd (le p.1 (List.mem_cons_of_mem _ some) List.mem_cons_self)
      (UInt64.not_le.mpr (first p.1 some))
  have after : ∀ t ∈ ds.map Prod.fst, d.1 < t := by
    intro t mem
    obtain ⟨e, he, rfl⟩ := List.mem_map.mp mem
    exact (List.pairwise_cons.mp hd).1 e he
  -- for a time that is not the first, the first one does not matter
  have same : ∀ d, d ≠ time → ((∀ t ∈ time :: ps.map Prod.fst, d ∈ time :: ps.map Prod.fst → t ≤ d) ↔
      ∀ t ∈ ps.map Prod.fst, d ∈ ps.map Prod.fst → t ≤ d) := by
    intro d ne
    constructor
    · exact fun le t mem mem' => le t (List.mem_cons_of_mem _ mem) (List.mem_cons_of_mem _ mem')
    · intro le t mem mem'
      cases List.mem_cons.mp mem' with
      | inl same => exact absurd same ne
      | inr later =>
        cases List.mem_cons.mp mem with
        | inl same =>
          rw [same]
          exact UInt64.le_of_lt (first d later)
        | inr mem => exact le t mem later
  rw [leave]
  split
  case isTrue due =>
    constructor
    · rintro ⟨d', mem, le⟩
      have ne := notFirst d' le
      cases List.mem_cons.mp mem with
      | inl same => exact absurd (same.trans due.symm) ne
      | inr later => exact ⟨d', later, (same d' ne).mp le⟩
    · rintro ⟨d', mem, le⟩
      have ne : d' ≠ time := by
        rintro rfl
        have lt := after d' mem
        rw [← due] at lt
        exact UInt64.lt_irrefl d' lt
      exact ⟨d', List.mem_cons_of_mem _ mem, (same d' ne).mpr le⟩
  case isFalse wait =>
    constructor
    · rintro ⟨d', mem, le⟩
      exact ⟨d', mem, (same d' (notFirst d' le)).mp le⟩
    · rintro ⟨d', mem, le⟩
      by_cases ne : d' = time
      · -- then the next demotions come at a time that is past
        subst ne
        have past : d.1 < d' := by
          cases List.mem_cons.mp mem with
          | inl same => exact absurd same wait
          | inr later => exact after d' later
        refine ⟨d.1, List.mem_cons_self, (same d.1 (UInt64.ne_of_lt past)).mpr ?_⟩
        intro t _ mem'
        exact absurd (UInt64.lt_trans past (first d.1 mem')) (UInt64.lt_irrefl d.1)
      · exact ⟨d', mem, (same d' ne).mpr le⟩

/-- The entries that are left go up. -/
lemma sorted_leave {d : UInt64 × List (UInt64 × UInt64)}
    (hd : (d :: ds).Pairwise fun e e' => e.1 < e'.1) :
    (leave time (d :: ds)).Pairwise fun e e' => e.1 < e'.1 := by
  rw [leave]
  split
  · exact (List.pairwise_cons.mp hd).2
  · exact hd

/-- While the target is alive the loop gets to its end if and only if the demotions last. -/
theorem exists_promoterLoop_iff (pos : pmdPagesize ≠ 0) (hp : Entries promotions ps)
    (hd : ds.Pairwise fun e e' => e.1 < e'.1) (ne : ps ≠ []) (alive : ∀ i < ps.length, kill (n + i) = true) :
    (∃ es, promoterLoop kill pmdPagesize promotions demotions n ps ds = some es) ↔ Lasts ps ds := by
  induction ps generalizing n ds with
  | nil => exact absurd rfl ne
  | cons p ps ih =>
    obtain ⟨time, ranges⟩ := p
    have looks : promotions.getD time [] = ranges := hp.looks (time, ranges) List.mem_cons_self
    have now : kill n = true := alive 0 (Nat.zero_lt_succ _)
    cases ds with
    | nil =>
      rw [promoterLoop_end now]
      constructor
      · rintro ⟨_, h⟩
        cases h
      · rintro ⟨_, mem, _⟩
        cases mem
    | cons d ds =>
      rw [promoterLoop_cons pos now looks]
      by_cases last : ps = []
      · rw [if_pos last]
        subst last
        refine ⟨fun _ => ⟨d.1, List.mem_cons_self, ?_⟩, fun _ => ⟨_, rfl⟩⟩
        intro t mem mem'
        rw [List.mem_singleton.mp mem, List.mem_singleton.mp mem']
        exact UInt64.le_refl time
      · rw [if_neg last, lasts_leave hp last hd, ← ih hp.tail (sorted_leave hd) last]
        · constructor
          · rintro ⟨_, h⟩
            obtain ⟨rest, hrest, _⟩ := Option.map_eq_some_iff.mp h
            exact ⟨rest, hrest⟩
          · rintro ⟨rest, hrest⟩
            rw [hrest]
            exact ⟨_, rfl⟩
        · intro i lt
          rw [Nat.add_assoc, Nat.add_comm 1]
          exact alive (i + 1) (Nat.succ_lt_succ lt)

/-- What is promoted under a time that is none of the batches. -/
lemma filter_issuesFrom_none (other : time ∉ ps.map Prod.fst) :
    (issuesFrom now ps).filter (·.2.time = time) = [] := by
  induction ps generalizing now with
  | nil => rfl
  | cons p ps ih =>
    obtain ⟨t, ranges⟩ := p
    rw [List.map_cons, List.mem_cons, not_or] at other
    rw [issuesFrom, List.filter_append, ih other.2, List.append_nil, List.filter_eq_nil_iff]
    intro c mem
    obtain ⟨range, _, rfl⟩ := List.mem_map.mp mem
    exact fun h => other.1 (of_decide_eq_true h).symm

/-- The batch at a position is issued as many sleeps later. -/
lemma filter_issuesFrom (hp : Entries promotions ps) {i : ℕ} (h : ps[i]? = some (time, ranges)) :
    (issuesFrom now ps).filter (·.2.time = time) =
      ranges.map fun range => (now + i * promotionSleepTime, rangeCall time .promote range) := by
  induction ps generalizing now i with
  | nil => cases h
  | cons p ps ih =>
    obtain ⟨t, rs⟩ := p
    rw [issuesFrom, List.filter_append]
    cases i with
    | zero =>
      obtain ⟨rfl, rfl⟩ := Prod.mk.inj (Option.some.inj h)
      have others : t ∉ ps.map Prod.fst := fun mem => UInt64.lt_irrefl t (hp.lt mem)
      rw [filter_issuesFrom_none others, List.append_nil, Nat.zero_mul, Nat.add_zero, List.filter_eq_self]
      intro c mem
      obtain ⟨range, _, rfl⟩ := List.mem_map.mp mem
      exact decide_eq_true rfl
    | succ i =>
      have later : ps[i]? = some (time, ranges) := h
      have ne : t ≠ time :=
        UInt64.ne_of_lt (hp.lt (List.mem_map_of_mem (List.mem_of_getElem? later)))
      have none : (rs.map fun range => (now, rangeCall t .promote range)).filter (·.2.time = time) = [] := by
        rw [List.filter_eq_nil_iff]
        intro c mem
        obtain ⟨range, _, rfl⟩ := List.mem_map.mp mem
        exact fun h => ne (of_decide_eq_true h)
      rw [none, List.nil_append, ih hp.tail later, Nat.succ_mul, Nat.add_assoc, Nat.add_comm promotionSleepTime]

/-- No time has two entries. -/
lemma Entries.time_unique (hp : Entries promotions ps) {i j : ℕ} {e e' : UInt64 × List (UInt64 × UInt64)}
    (hi : ps[i]? = some e) (hj : ps[j]? = some e') (lt : i < j) : e.1 < e'.1 := by
  obtain ⟨li, rfl⟩ := List.getElem?_eq_some_iff.mp hi
  obtain ⟨lj, rfl⟩ := List.getElem?_eq_some_iff.mp hj
  exact List.pairwise_iff_getElem.mp hp.sorted i j li lj lt

/-- The batches that the loop gets to are issued, and no others. -/
lemma issuedAt_iff (hp : Entries promotions ps) {j : ℕ}
    (calls : promoted (timed appTime es) = issuesFrom appTime (ps.take j)) {i : ℕ}
    (h : ps[i]? = some (time, ranges)) {v : ℕ} :
    IssuedAt (.usleep appTime :: es) time ranges v ↔ i < j ∧ v = appTime + i * promotionSleepTime := by
  have some : ranges ≠ [] := hp.nonempty (time, ranges) (List.mem_of_getElem? h)
  have start : timed 0 (.usleep appTime :: es) = timed appTime es := by rw [timed, Nat.zero_add]
  rw [IssuedAt, start, calls]
  have part : Entries promotions (ps.take j) :=
    ⟨hp.sorted.sublist (List.take_sublist _ _), fun e mem => hp.looks e (List.mem_of_mem_take mem),
      fun e mem => hp.nonempty e (List.mem_of_mem_take mem)⟩
  rcases Nat.lt_or_ge i j with lt | ge
  · have here : (ps.take j)[i]? = Option.some (time, ranges) := by rw [List.getElem?_take_of_lt lt, h]
    rw [filter_issuesFrom part here]
    constructor
    · intro same
      obtain ⟨range, rest, rfl⟩ := List.exists_cons_of_ne_nil some
      rw [List.map_cons, List.map_cons, List.cons.injEq, Prod.mk.injEq] at same
      exact ⟨lt, same.1.1.symm⟩
    · rintro ⟨_, rfl⟩
      rfl
  · have none : time ∉ (ps.take j).map Prod.fst := by
      intro mem
      obtain ⟨e, he, same⟩ := List.mem_map.mp mem
      obtain ⟨i', bound, rfl⟩ := List.mem_take_iff_getElem.mp he
      obtain ⟨lt, within⟩ := Nat.lt_min.mp bound
      have before := hp.time_unique (List.getElem?_eq_getElem within) h (Nat.lt_of_lt_of_le lt ge)
      rw [same] at before
      exact UInt64.lt_irrefl time before
    rw [filter_issuesFrom_none none]
    constructor
    · intro same
      exact absurd (List.map_eq_nil_iff.mp same.symm) some
    · rintro ⟨lt, _⟩
      omega

/-- Microseconds of the batches that follow each other at once. -/
lemma batch_time {interval i t : ℕ} :
    (appTime + i * promotionSleepTime) * interval = 1000000 * t ↔ t = interval * (1 + 30 * i) := by
  have e : (appTime + i * promotionSleepTime) * interval = 1000000 * (interval * (1 + 30 * i)) := by
    rw [appTime, promotionSleepTime]
    ring
  rw [e]
  omega

/-- With so many accesses in a second, every batch of a map is issued in the second of its access count if and
    only if the counts are those of the seconds 1, 31, 61 and so on, the target lives that long, and the
    demotions last. -/
theorem issuedAt_all_iff (interval : ℕ) (nonempty : ∀ e ∈ promotions.toList, e.2 ≠ [])
    (aligned : AllAligned hugePageSize promotions.toList) :
    (∃ events, launchPromoter kill hugePageSize promotions demotions = some events ∧
      ∀ e ∈ promotions.toList, ∃ v, v * interval = 1000000 * e.1.toNat ∧ IssuedAt events e.1 e.2 v) ↔
    ∃ n, promotions.toList.map (·.1.toNat) = (List.range n).map (fun i => interval * (1 + 30 * i)) ∧
      (∀ i < n, kill i = true) ∧ (n = 0 → kill 0 = false) ∧
        (0 < n → Lasts promotions.toList demotions.toList) := by
  have hp := entries_toList nonempty
  have pos : hugePageSize ≠ 0 := by decide
  generalize e : promotions.toList = ps at hp aligned
  have launch : ∀ events, launchPromoter kill hugePageSize promotions demotions = some events ↔
      ∃ es, promoterLoop kill hugePageSize promotions demotions 0 ps demotions.toList = some es ∧
        events = .usleep appTime :: es := by
    intro events
    rw [launchPromoter, e, Option.bind_eq_bind, Option.bind_eq_some_iff]
    simp only [Option.some.injEq, eq_comm]
  constructor
  · rintro ⟨events, run, issued⟩
    obtain ⟨es, hes, rfl⟩ := (launch events).mp run
    obtain ⟨j, le, lives, dies, calls⟩ := promoterLoop_timed pos hp aligned hes
    have at_ : ∀ i (h : i < ps.length), i < j ∧ ps[i].1.toNat = interval * (1 + 30 * i) := by
      intro i h
      obtain ⟨v, hv, issuedAt⟩ := issued ps[i] (List.getElem_mem h)
      obtain ⟨lt, rfl⟩ := (issuedAt_iff hp (calls appTime) (List.getElem?_eq_getElem h)).mp issuedAt
      exact ⟨lt, batch_time.mp hv⟩
    have all : j = ps.length := by
      by_contra ne
      exact Nat.lt_irrefl j (at_ j (by omega)).1
    subst all
    refine ⟨ps.length, ?_, ?_, ?_, ?_⟩
    · refine List.ext_getElem (by simp) fun i h _ => ?_
      rw [List.getElem_map, List.getElem_map, List.getElem_range]
      exact (at_ i (by simpa using h)).2
    · intro i lt
      have alive := lives i lt
      rwa [Nat.zero_add] at alive
    · intro none
      have dead := dies (.inr (List.length_eq_zero_iff.mp none))
      rwa [Nat.zero_add, none] at dead
    · intro some
      refine (exists_promoterLoop_iff pos hp (sorted_toList demotions) ?_ lives).mp ⟨es, hes⟩
      exact List.ne_nil_of_length_pos some
  · rintro ⟨n, times, alive, gone, lasts⟩
    have len : ps.length = n := by simpa using congrArg List.length times
    have alive' : ∀ i < ps.length, kill (0 + i) = true := by
      intro i lt
      rw [Nat.zero_add]
      exact alive i (by omega)
    obtain ⟨es, hes⟩ : ∃ es, promoterLoop kill hugePageSize promotions demotions 0 ps
        demotions.toList = some es := by
      rcases Nat.eq_zero_or_pos n with zero | some
      · rw [List.length_eq_zero_iff.mp (len.trans zero), promoterLoop, gone zero]
        exact ⟨[], rfl⟩
      · refine (exists_promoterLoop_iff pos hp (sorted_toList demotions) ?_ alive').mpr (lasts some)
        exact List.ne_nil_of_length_pos (len ▸ some)
    obtain ⟨j, le, lives, dies, calls⟩ := promoterLoop_timed pos hp aligned hes
    have all : j = ps.length := by
      by_contra ne
      have dead := dies (.inl (by omega))
      rw [alive' j (by omega)] at dead
      cases dead
    refine ⟨_, (launch _).mpr ⟨es, hes, rfl⟩, ?_⟩
    intro batch mem
    obtain ⟨i, h, rfl⟩ := List.getElem_of_mem mem
    have time : ps[i].1.toNat = interval * (1 + 30 * i) := by
      have here := List.getElem_of_eq times (i := i) (by simpa using h)
      rwa [List.getElem_map, List.getElem_map, List.getElem_range] at here
    refine ⟨_, batch_time.mpr time, ?_⟩
    exact (issuedAt_iff hp (calls appTime) (List.getElem?_eq_getElem h)).mpr ⟨by omega, rfl⟩

end
end PromotionCache.Utils
