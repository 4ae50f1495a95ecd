import Mathlib.Data.List.Perm.Basic

/-!
# The process that promotes and demotes

`launch_promoter` of `utils/common.h` replays a file of promotions and one of demotions on the real system.
It goes through the times of the promotions, and looks at the next demotions at every one of them: they are
due if their time is the same, and stay where they are otherwise.
-/

namespace PromotionCache.Utils

/-- `map<unsigned long, vector<pair<unsigned long, unsigned long>>>`: under a time, the starts and lengths of
    the ranges. -/
abbrev RangeMap := Std.TreeMap UInt64 (List (UInt64 × UInt64)) compare

/-- An iterator of a map is the entries from its position on; there are none at `end()`. -/
abbrev Iterator := List (UInt64 × List (UInt64 × UInt64))

/-- `MADV_PROMOTE` or `MADV_DEMOTE` -/
inductive Advice where
  | promote
  | demote
  deriving DecidableEq

/-- A call of `process_madvise`, under the value of `time` at that moment. -/
structure Call where
  time : UInt64
  advice : Advice
  iovBase : UInt64
  iovLen : UInt64
  deriving DecidableEq

/-- What `launch_promoter` does that can be seen. -/
inductive Event where
  | madvise (call : Call)
  | usleep (microseconds : Nat)
  deriving DecidableEq

/-- `APP_TIME` -/
def appTime : Nat := 1000000

/-- `PROMOTION_SLEEP_TIME` -/
def promotionSleepTime : Nat := 30000000

/-- The call for a range. -/
def callFor (pmdPagesize time : UInt64) (advice : Advice) (range : UInt64 × UInt64) : Call :=
  let base := range.1 / pmdPagesize
  let offset := range.2 / pmdPagesize
  ⟨time, advice, base * pmdPagesize, offset * pmdPagesize⟩

/-- The loop over `madvise_ranges`; a division by zero stops the program. -/
def adviseRanges (pmdPagesize time : UInt64) (advice : Advice) :
    List (UInt64 × UInt64) → Option (List Event)
  | [] => some []
  | range :: ranges =>
    if pmdPagesize = 0 then none
    else do
      let rest ← adviseRanges pmdPagesize time advice ranges
      some (.madvise (callFor pmdPagesize time advice range) :: rest)

/-- The loop of `launch_promoter` from its `n`-th iteration on, where `kill` tells whether the target is alive.
    It has no result where an iterator at `end()` is dereferenced. -/
def promoterLoop (kill : Nat → Bool) (pmdPagesize : UInt64) (promotions demotions : RangeMap) (n : Nat) :
    Iterator → Iterator → Option (List Event)
  | [], _ => if kill n then none else some []
  | (time, _) :: promotionIt, demotionIt =>
    if kill n then do
      let promoted ← adviseRanges pmdPagesize time .promote (promotions.getD time [])
      let (demotionTime, _) ← demotionIt.head?
      let (demoted, demotionIt) ← (if time = demotionTime then do
          let demoted ← adviseRanges pmdPagesize time .demote (demotions.getD time [])
          some (demoted, demotionIt.tail)
        else some ([], demotionIt))
      if promotionIt.isEmpty then some (promoted ++ demoted)
      else do
        let rest ← promoterLoop kill pmdPagesize promotions demotions (n + 1) promotionIt demotionIt
        some (promoted ++ demoted ++ .usleep promotionSleepTime :: rest)
    else some []

/-- `launch_promoter` once the files are read and the application runs -/
def launchPromoter (kill : Nat → Bool) (pmdPagesize : UInt64) (promotions demotions : RangeMap) :
    Option (List Event) := do
  let events ← promoterLoop kill pmdPagesize promotions demotions 0 promotions.toList demotions.toList
  some (.usleep appTime :: events)

/-- The calls among the events. -/
def calls (events : List Event) : List Call :=
  events.filterMap fun
    | .madvise call => some call
    | .usleep _ => none

/-- A range is issued. -/
def rangeCall (time : UInt64) (advice : Advice) (range : UInt64 × UInt64) : Call :=
  ⟨time, advice, range.1, range.2⟩

/-- The ranges in the entries of a map are issued. -/
def callsFor (advice : Advice) (entries : Iterator) : List Call :=
  entries.flatMap fun (time, ranges) => ranges.map (rangeCall time advice)

/-- Every range is issued once, and demotions come before the promotions of larger times. -/
structure Replays (promotions demotions : Iterator) (issued : List Call) : Prop where
  once : issued.Perm (callsFor .promote promotions ++ callsFor .demote demotions)
  inTime : issued.Pairwise fun a b => a.advice = .promote → b.advice = .demote → a.time ≤ b.time

/-- A range is made of huge pages. -/
def Aligned (pmdPagesize : UInt64) (range : UInt64 × UInt64) : Prop :=
  range.1 % pmdPagesize = 0 ∧ range.2 % pmdPagesize = 0

/-- All ranges are. -/
def AllAligned (pmdPagesize : UInt64) (entries : Iterator) : Prop :=
  ∀ e ∈ entries, ∀ range ∈ e.2, Aligned pmdPagesize range

/-- The times of the demotions are times of promotions, and the last of both is the same. -/
def Covers (promotions demotions : Iterator) : Prop :=
  (∀ t ∈ demotions.map Prod.fst, t ∈ promotions.map Prod.fst) ∧
    ∃ last ∈ demotions.map Prod.fst, ∀ t ∈ promotions.map Prod.fst, t ≤ last

section
variable {kill : Nat → Bool} {pmdPagesize time : UInt64} {advice : Advice} {ranges : List (UInt64 × UInt64)}
  {promotions demotions : RangeMap} {n : Nat} {ps ds : Iterator} {c c' : Call}

/-- The calls of two parts of a run. -/
lemma calls_append (es es' : List Event) : calls (es ++ es') = calls es ++ calls es' :=
  List.filterMap_append

/-- Sleeping is no call. -/
lemma calls_usleep (microseconds : Nat) (es : List Event) :
    calls (.usleep microseconds :: es) = calls es := rfl

/-- The calls of a batch. -/
lemma calls_madvise (cs : List Call) : calls (cs.map Event.madvise) = cs := by
  unfold calls
  rw [List.filterMap_map]
  exact List.filterMap_some

/-- Rounding down to a multiple does not wrap around. -/
lemma toNat_div_mul (x y : UInt64) : (x / y * y).toNat = x.toNat / y.toNat * y.toNat := by
  rw [UInt64.toNat_mul, UInt64.toNat_div]
  exact Nat.mod_eq_of_lt (Nat.lt_of_le_of_lt (Nat.div_mul_le_self _ _) x.toNat_lt)

/-- What has been rounded down is a multiple. -/
lemma div_mul_mod (x y : UInt64) : x / y * y % y = 0 := by
  rw [← UInt64.toNat_inj, UInt64.toNat_mod, toNat_div_mul]
  exact Nat.mul_mod_left _ _

/-- A multiple is left as it is. -/
lemma div_mul_cancel {x y : UInt64} (h : x % y = 0) : x / y * y = x := by
  rw [← UInt64.toNat_inj, UInt64.toNat_mod] at h
  rw [← UInt64.toNat_inj, toNat_div_mul]
  exact Nat.div_mul_cancel (Nat.dvd_of_mod_eq_zero h)

/-- Ranges of huge pages are issued as they are. -/
lemma callFor_aligned {range : UInt64 × UInt64} (aligned : Aligned pmdPagesize range) :
    callFor pmdPagesize time advice range = rangeCall time advice range := by
  rw [callFor, div_mul_cancel aligned.1, div_mul_cancel aligned.2]
  rfl

/-- The ranges are issued cut to huge pages, if the page size is not zero. -/
lemma adviseRanges_cut : adviseRanges pmdPagesize time advice ranges =
    if pmdPagesize = 0 ∧ ranges ≠ [] then none
    else some (ranges.map fun range => .madvise (callFor pmdPagesize time advice range)) := by
  induction ranges with
  | nil => simp [adviseRanges]
  | cons range ranges ih =>
    rw [adviseRanges, ih]
    by_cases zero : pmdPagesize = 0 <;> simp [zero]

/-- With a page size, there is a call for every range. -/
lemma adviseRanges_some (time : UInt64) (advice : Advice) (pos : pmdPagesize ≠ 0)
    (ranges : List (UInt64 × UInt64)) : adviseRanges pmdPagesize time advice ranges =
      some (ranges.map fun range => .madvise (callFor pmdPagesize time advice range)) := by
  rw [adviseRanges_cut, if_neg fun zero => pos zero.1]

/-- Without one, the first division fails. -/
lemma adviseRanges_zero (ne : ranges ≠ []) : adviseRanges 0 time advice ranges = none := by
  rw [adviseRanges_cut, if_pos ⟨rfl, ne⟩]

/-- The calls of a loop over ranges. -/
lemma calls_cut : calls (ranges.map fun range => .madvise (callFor pmdPagesize time advice range)) =
    ranges.map (callFor pmdPagesize time advice) := by
  rw [← calls_madvise (ranges.map _), List.map_map]
  rfl

/-- The ranges that are aligned are advised as they are. -/
lemma adviseRanges_eq (time : UInt64) (advice : Advice) (pos : pmdPagesize ≠ 0)
    (aligned : ∀ r ∈ ranges, Aligned pmdPagesize r) : ∃ es,
    adviseRanges pmdPagesize time advice ranges = some es ∧
      calls es = ranges.map (rangeCall time advice) := by
  refine ⟨_, adviseRanges_some time advice pos ranges, ?_⟩
  rw [calls_cut]
  exact List.map_congr_left fun range mem => callFor_aligned (aligned range mem)

/-- All that is issued is made of huge pages. -/
lemma adviseRanges_aligned {es : List Event} (h : adviseRanges pmdPagesize time advice ranges = some es) :
    ∀ c ∈ calls es, Aligned pmdPagesize (c.iovBase, c.iovLen) := by
  rw [adviseRanges_cut] at h
  split at h
  · cases h
  · obtain rfl := Option.some.inj h
    intro c mem
    rw [calls_cut] at mem
    obtain ⟨range, _, rfl⟩ := List.mem_map.mp mem
    exact ⟨div_mul_mod _ _, div_mul_mod _ _⟩

/-- The calls for the ranges of one time, and of the others. -/
lemma callsFor_cons (es : Iterator) : callsFor advice ((time, ranges) :: es) =
    ranges.map (rangeCall time advice) ++ callsFor advice es :=
  List.flatMap_cons

/-- A call has the advice of its batch and one of its times. -/
lemma mem_callsFor {es : Iterator} (h : c ∈ callsFor advice es) :
    c.advice = advice ∧ c.time ∈ es.map Prod.fst := by
  obtain ⟨⟨time, ranges⟩, he, h⟩ := List.mem_flatMap.mp h
  obtain ⟨range, _, rfl⟩ := List.mem_map.mp h
  exact ⟨rfl, List.mem_map_of_mem he⟩

/-- The calls of one entry have its time. -/
lemma mem_calls_entry (h : c ∈ ranges.map (rangeCall time advice)) :
    c.advice = advice ∧ c.time = time := by
  obtain ⟨range, _, rfl⟩ := List.mem_map.mp h
  exact ⟨rfl, rfl⟩

/-- Every call has a recorded time. -/
lemma Replays.time_mem {issued : List Call} (h : Replays ps ds issued) (mem : c ∈ issued) :
    (c.advice = .promote ∧ c.time ∈ ps.map Prod.fst) ∨
      (c.advice = .demote ∧ c.time ∈ ds.map Prod.fst) := by
  cases List.mem_append.mp (h.once.mem_iff.mp mem) with
  | inl promote => exact .inl (mem_callsFor promote)
  | inr demote => exact .inr (mem_callsFor demote)

/-- The calls that the loop makes. -/
def issued (kill : Nat → Bool) (pmdPagesize : UInt64) (promotions demotions : RangeMap) (n : Nat)
    (ps ds : Iterator) : Option (List Call) :=
  (promoterLoop kill pmdPagesize promotions demotions n ps ds).map calls

/-- A process that never ends is waited for forever. -/
lemma issued_nil (alive : ∀ n, kill n = true) :
    issued kill pmdPagesize promotions demotions n [] ds = none := by
  rw [issued, promoterLoop, alive n]
  rfl

/-- The demotions are at `end()`. -/
lemma issued_end (alive : ∀ n, kill n = true) :
    issued kill pmdPagesize promotions demotions n ps [] = none := by
  cases ps with
  | nil => exact issued_nil alive
  | cons p ps =>
    rw [issued, promoterLoop, if_pos (alive n)]
    cases adviseRanges pmdPagesize p.1 .promote (promotions.getD p.1 []) with
    | none => rfl
    | some _ => rfl

/-- The calls of the last iteration, or of one and those after it. -/
def iterate (issue : List Call) (ps : Iterator) (later : Option (List Call)) : Option (List Call) :=
  if ps = [] then some issue else later.map (issue ++ ·)

/-- The next demotions are due. -/
lemma issued_due (alive : ∀ n, kill n = true) (pos : pmdPagesize ≠ 0) {rs rs' : List (UInt64 × UInt64)}
    (looks : promotions.getD time [] = rs) (looks' : demotions.getD time [] = rs')
    (aligned : ∀ r ∈ rs, Aligned pmdPagesize r) (aligned' : ∀ r ∈ rs', Aligned pmdPagesize r) :
    issued kill pmdPagesize promotions demotions n ((time, rs) :: ps) ((time, rs') :: ds) =
      iterate (rs.map (rangeCall time .promote) ++ rs'.map (rangeCall time .demote))
        ps (issued kill pmdPagesize promotions demotions (n + 1) ps ds) := by
  obtain ⟨es, e, he⟩ := adviseRanges_eq time .promote pos aligned
  obtain ⟨es', e', he'⟩ := adviseRanges_eq time .demote pos aligned'
  rw [issued, promoterLoop, if_pos (alive n), looks, looks', e, e', ← he, ← he', ← calls_append]
  simp only [Option.bind_eq_bind, Option.bind_some, List.head?_cons, if_true, List.tail_cons]
  cases ps with
  | nil => rfl
  | cons p ps =>
    rw [iterate, if_neg (List.cons_ne_nil p ps), issued]
    cases promoterLoop kill pmdPagesize promotions demotions (n + 1) (p :: ps) ds with
    | none => rfl
    | some rest => exact congrArg some (calls_append _ _)

/-- The next demotions are those of another time. -/
lemma issued_wait (alive : ∀ n, kill n = true) (pos : pmdPagesize ≠ 0) {time' : UInt64}
    {rs rs' : List (UInt64 × UInt64)} (ne : time ≠ time') (looks : promotions.getD time [] = rs)
    (aligned : ∀ r ∈ rs, Aligned pmdPagesize r) :
    issued kill pmdPagesize promotions demotions n ((time, rs) :: ps) ((time', rs') :: ds) =
      iterate (rs.map (rangeCall time .promote)) ps
        (issued kill pmdPagesize promotions demotions (n + 1) ps ((time', rs') :: ds)) := by
  obtain ⟨es, e, he⟩ := adviseRanges_eq time .promote pos aligned
  rw [issued, promoterLoop, if_pos (alive n), looks, e, ← he]
  simp only [Option.bind_eq_bind, Option.bind_some, List.head?_cons, if_neg ne, List.append_nil]
  cases ps with
  | nil => rfl
  | cons p ps =>
    rw [iterate, if_neg (List.cons_ne_nil p ps), issued]
    cases promoterLoop kill pmdPagesize promotions demotions (n + 1) (p :: ps) ((time', rs') :: ds) with
    | none => rfl
    | some rest => exact congrArg some (calls_append _ _)

/-- The entries of a map: their times increase, and none is empty. -/
structure Entries (m : RangeMap) (es : Iterator) : Prop where
  sorted : es.Pairwise fun e e' => e.1 < e'.1
  looks : ∀ e ∈ es, m.getD e.1 [] = e.2
  nonempty : ∀ e ∈ es, e.2 ≠ []

/-- The entries behind the first one. -/
lemma Entries.tail {m : RangeMap} {e : UInt64 × List (UInt64 × UInt64)} {es : Iterator}
    (h : Entries m (e :: es)) : Entries m es where
  sorted := (List.pairwise_cons.mp h.sorted).2
  looks e' mem := h.looks e' (List.mem_cons_of_mem _ mem)
  nonempty e' mem := h.nonempty e' (List.mem_cons_of_mem _ mem)

/-- The times go up. -/
lemma Entries.lt {m : RangeMap} {e : UInt64 × List (UInt64 × UInt64)} {es : Iterator}
    (h : Entries m (e :: es)) {t : UInt64} (mem : t ∈ es.map Prod.fst) : e.1 < t := by
  obtain ⟨e', he, rfl⟩ := List.mem_map.mp mem
  exact (List.pairwise_cons.mp h.sorted).1 e' he

/-- There is a call for every entry. -/
lemma Entries.callsFor_ne_nil {m : RangeMap} {e : UInt64 × List (UInt64 × UInt64)} {es : Iterator}
    (h : Entries m (e :: es)) : callsFor advice (e :: es) ≠ [] := by
  have some := h.nonempty e List.mem_cons_self
  obtain ⟨time, ranges⟩ := e
  rw [callsFor_cons]
  intro none
  exact some (List.map_eq_nil_iff.mp (List.append_eq_nil_iff.mp none).1)

/-- If both begin with the same time, it is the last of both or the others are to be replayed. -/
lemma covers_due {rs rs' : List (UInt64 × UInt64)} (hp : Entries promotions ((time, rs) :: ps))
    (hd : Entries demotions ((time, rs') :: ds)) :
    Covers ((time, rs) :: ps) ((time, rs') :: ds) ↔ (ps = [] ∧ ds = []) ∨ Covers ps ds := by
  constructor
  · intro ⟨sub, last, isLast, max⟩
    have sub' : ∀ t ∈ ds.map Prod.fst, t ∈ ps.map Prod.fst := by
      intro t mem
      cases List.mem_cons.mp (sub t (List.mem_cons_of_mem _ mem)) with
      | inl same => exact absurd same (UInt64.ne_of_lt (hd.lt mem)).symm
      | inr later => exact later
    cases ps with
    | nil =>
      refine .inl ⟨rfl, ?_⟩
      cases ds with
      | nil => rfl
      | cons d ds => cases sub' d.1 List.mem_cons_self
    | cons p ps =>
      refine .inr ⟨sub', last, ?_, fun t mem => max t (List.mem_cons_of_mem _ mem)⟩
      cases List.mem_cons.mp isLast with
      | inl first =>
        have lt := hp.lt (t := p.1) List.mem_cons_self
        have le := max p.1 (List.mem_cons_of_mem _ List.mem_cons_self)
        rw [first] at le
        exact absurd le (UInt64.not_le.mpr lt)
      | inr later => exact later
  · rintro (⟨rfl, rfl⟩ | ⟨sub, last, isLast, max⟩)
    · refine ⟨fun t mem => mem, time, List.mem_cons_self, ?_⟩
      intro t mem
      rw [List.mem_singleton.mp mem]
      exact UInt64.le_refl time
    · refine ⟨?_, last, List.mem_cons_of_mem _ isLast, ?_⟩
      · intro t mem
        cases List.mem_cons.mp mem with
        | inl first =>
          rw [first]
          exact List.mem_cons_self
        | inr later => exact List.mem_cons_of_mem _ (sub t later)
      · intro t mem
        cases List.mem_cons.mp mem with
        | inl first =>
          rw [first]
          exact UInt64.le_of_lt (hd.lt isLast)
        | inr later => exact max t later

/-- Promotions of a time without demotions do not matter. -/
lemma covers_wait {rs : List (UInt64 × UInt64)} (hp : Entries promotions ((time, rs) :: ps))
    (other : time ∉ ds.map Prod.fst) : Covers ((time, rs) :: ps) ds ↔ Covers ps ds := by
  constructor
  · intro ⟨sub, last, isLast, max⟩
    refine ⟨?_, last, isLast, fun t mem => max t (List.mem_cons_of_mem _ mem)⟩
    intro t mem
    cases List.mem_cons.mp (sub t mem) with
    | inl first =>
      rw [first] at mem
      exact absurd mem other
    | inr later => exact later
  · intro ⟨sub, last, isLast, max⟩
    refine ⟨fun t mem => List.mem_cons_of_mem _ (sub t mem), last, isLast, ?_⟩
    intro t mem
    cases List.mem_cons.mp mem with
    | inl first =>
      rw [first]
      exact UInt64.le_of_lt (hp.lt (sub last isLast))
    | inr later => exact max t later

/-- Calls of two kinds, sorted. -/
lemma perm_shuffle (as bs xs ys : List Call) :
    (as ++ xs ++ (bs ++ ys)).Perm (as ++ bs ++ (xs ++ ys)) := by
  rw [List.append_assoc, List.append_assoc]
  exact (List.perm_append_comm_assoc xs bs ys).append_left as

/-- What has the same calls has no more. -/
lemma nothing_more {as bs : List Call} (h : as.Perm (as ++ bs)) : bs = [] := by
  have len := h.length_eq
  rw [List.length_append] at len
  exact List.length_eq_zero_iff.mp (by omega)

/-- Maps that are replayed are as they should be. -/
lemma covers_of_issued (alive : ∀ n, kill n = true) (pos : pmdPagesize ≠ 0)
    (hp : Entries promotions ps) (hd : Entries demotions ds) (aligned : AllAligned pmdPagesize ps)
    (aligned' : AllAligned pmdPagesize ds) {made : List Call}
    (h : issued kill pmdPagesize promotions demotions n ps ds = some made)
    (once : made.Perm (callsFor .promote ps ++ callsFor .demote ds)) :
    Covers ps ds := by
  induction ps generalizing n ds made with
  | nil =>
    rw [issued_nil alive] at h
    cases h
  | cons p ps ih =>
    obtain ⟨time, rs⟩ := p
    have looks : promotions.getD time [] = rs := hp.looks (time, rs) List.mem_cons_self
    obtain ⟨first, aligned⟩ := List.forall_mem_cons.mp aligned
    cases ds with
    | nil =>
      rw [issued_end alive] at h
      cases h
    | cons d ds =>
      obtain ⟨time', rs'⟩ := d
      obtain ⟨first', later'⟩ := List.forall_mem_cons.mp aligned'
      by_cases due : time = time'
      · subst due
        have looks' : demotions.getD time [] = rs' := hd.looks (time, rs') List.mem_cons_self
        rw [issued_due alive pos looks looks' first first', iterate] at h
        rw [callsFor_cons, callsFor_cons] at once
        split at h
        case isTrue last =>
          obtain rfl := Option.some.inj h
          refine (covers_due hp hd).mpr (.inl ⟨last, ?_⟩)
          have none := nothing_more (once.trans (perm_shuffle _ _ _ _))
          cases ds with
          | nil => rfl
          | cons d ds => exact absurd (List.append_eq_nil_iff.mp none).2 hd.tail.callsFor_ne_nil
        case isFalse more =>
          obtain ⟨later, hlater, rfl⟩ := Option.map_eq_some_iff.mp h
          refine (covers_due hp hd).mpr (.inr (ih hp.tail hd.tail aligned later' hlater ?_))
          exact (List.perm_append_left_iff _).mp (once.trans (perm_shuffle _ _ _ _))
      · rw [issued_wait alive pos due looks first, iterate] at h
        rw [callsFor_cons] at once
        split at h
        case isTrue last =>
          obtain rfl := Option.some.inj h
          rw [List.append_assoc] at once
          have none := nothing_more once
          exact absurd (List.append_eq_nil_iff.mp none).2 hd.callsFor_ne_nil
        case isFalse more =>
          obtain ⟨later, hlater, rfl⟩ := Option.map_eq_some_iff.mp h
          rw [List.append_assoc, List.perm_append_left_iff] at once
          have covers := ih hp.tail hd aligned aligned' hlater once
          refine (covers_wait hp ?_).mpr covers
          intro mem
          exact absurd (hp.lt (covers.1 time mem)) (UInt64.lt_irrefl time)

/-- The promotions of a time are issued before later demotions. -/
lemma Replays.promote (rs : List (UInt64 × UInt64)) {later : List Call}
    (h : Replays ps ds later) (before : ∀ t ∈ ds.map Prod.fst, time ≤ t) :
    Replays ((time, rs) :: ps) ds
      (rs.map (rangeCall time .promote) ++ later) where
  once := by
    rw [callsFor_cons, List.append_assoc]
    exact h.once.append_left _
  inTime := by
    refine List.pairwise_append.mpr ⟨?_, h.inTime, ?_⟩
    · refine List.pairwise_of_forall_mem_list ?_
      intro a _ b hb _ demote
      rw [(mem_calls_entry hb).1] at demote
      cases demote
    · intro a ha b hb _ demote
      rw [(mem_calls_entry ha).2]
      rcases h.time_mem hb with ⟨promote, _⟩ | ⟨_, mem⟩
      · rw [promote] at demote
        cases demote
      · exact before b.time mem

/-- The demotions of a time can be issued before all that is later. -/
lemma Replays.demote (time : UInt64) (rs : List (UInt64 × UInt64)) {later : List Call}
    (h : Replays ps ds later) :
    Replays ps ((time, rs) :: ds)
      (rs.map (rangeCall time .demote) ++ later) where
  once := by
    rw [callsFor_cons]
    exact (h.once.append_left _).trans (List.perm_append_comm_assoc _ _ _)
  inTime := by
    refine List.pairwise_append.mpr ⟨?_, h.inTime, ?_⟩
    · refine List.pairwise_of_forall_mem_list ?_
      intro a ha b _ promote
      rw [(mem_calls_entry ha).1] at promote
      cases promote
    · intro a ha b _ promote
      rw [(mem_calls_entry ha).1] at promote
      cases promote

/-- Maps that are as they should be are replayed. -/
lemma issued_of_covers (alive : ∀ n, kill n = true) (pos : pmdPagesize ≠ 0)
    (hp : Entries promotions ps) (hd : Entries demotions ds) (aligned : AllAligned pmdPagesize ps)
    (aligned' : AllAligned pmdPagesize ds) (h : Covers ps ds) :
    ∃ made, issued kill pmdPagesize promotions demotions n ps ds = some made ∧
      Replays ps ds made := by
  induction ps generalizing n ds with
  | nil =>
    obtain ⟨sub, last, isLast, _⟩ := h
    cases sub last isLast
  | cons p ps ih =>
    obtain ⟨time, rs⟩ := p
    have looks : promotions.getD time [] = rs := hp.looks (time, rs) List.mem_cons_self
    obtain ⟨first, aligned⟩ := List.forall_mem_cons.mp aligned
    cases ds with
    | nil =>
      obtain ⟨_, last, isLast, _⟩ := h
      cases isLast
    | cons d ds =>
      obtain ⟨time', rs'⟩ := d
      obtain ⟨first', later'⟩ := List.forall_mem_cons.mp aligned'
      by_cases due : time = time'
      · subst due
        have looks' : demotions.getD time [] = rs' := hd.looks (time, rs') List.mem_cons_self
        have le : ∀ t ∈ ((time, rs') :: ds).map Prod.fst, time ≤ t := by
          intro t mem
          cases List.mem_cons.mp mem with
          | inl first =>
            rw [first]
            exact UInt64.le_refl time
          | inr later => exact UInt64.le_of_lt (hd.lt later)
        rw [issued_due alive pos looks looks' first first', iterate]
        rcases (covers_due hp hd).mp h with ⟨rfl, rfl⟩ | covers
        · have none : Replays [] [] [] := ⟨List.Perm.refl _, List.Pairwise.nil⟩
          refine ⟨_, rfl, ?_⟩
          have both := (none.demote time rs').promote rs le
          rw [List.append_nil] at both
          exact both
        · obtain ⟨later, e, replays⟩ := ih (n := n + 1) hp.tail hd.tail aligned later' covers
          have more : ps ≠ [] := by
            obtain ⟨sub, last, isLast, _⟩ := covers
            rintro rfl
            cases sub last isLast
          have both := (replays.demote time rs').promote rs le
          rw [← List.append_assoc] at both
          exact ⟨_, by rw [if_neg more, e]; rfl, both⟩
      · -- the next demotions are those of a later time of promotions
        have lt : time < time' := by
          cases List.mem_cons.mp (h.1 time' List.mem_cons_self) with
          | inl same => exact absurd same.symm due
          | inr later => exact hp.lt later
        have le : ∀ t ∈ ((time', rs') :: ds).map Prod.fst, time < t := by
          intro t mem
          cases List.mem_cons.mp mem with
          | inl first =>
            rw [first]
            exact lt
          | inr later => exact UInt64.lt_trans lt (hd.lt later)
        have covers := (covers_wait hp fun mem => UInt64.lt_irrefl time (le time mem)).mp h
        obtain ⟨later, e, replays⟩ := ih (n := n + 1) hp.tail hd aligned aligned' covers
        have more : ps ≠ [] := by
          obtain ⟨sub, last, isLast, _⟩ := covers
          rintro rfl
          cases sub last isLast
        refine ⟨_, by rw [issued_wait alive pos due looks first, iterate, if_neg more, e]; rfl, ?_⟩
        exact replays.promote rs fun t mem => UInt64.le_of_lt (le t mem)

/-- All calls of the loop are for huge pages. -/
lemma promoterLoop_aligned {es : List Event}
    (h : promoterLoop kill pmdPagesize promotions demotions n ps ds = some es) :
    ∀ c ∈ calls es, Aligned pmdPagesize (c.iovBase, c.iovLen) := by
  induction ps generalizing n ds es with
  | nil =>
    rw [promoterLoop] at h
    split at h
    · cases h
    · obtain rfl := Option.some.inj h
      exact fun c mem => absurd mem List.not_mem_nil
  | cons p ps ih =>
    rw [promoterLoop] at h
    split at h
    · obtain ⟨promoted, hpromoted, h⟩ := Option.bind_eq_some_iff.mp h
      obtain ⟨next, _, h⟩ := Option.bind_eq_some_iff.mp h
      obtain ⟨⟨demoted, it⟩, hdemoted, h⟩ := Option.bind_eq_some_iff.mp h
      have demotions_aligned : ∀ c ∈ calls demoted, Aligned pmdPagesize (c.iovBase, c.iovLen) := by
        split at hdemoted
        · obtain ⟨es', hes, hdemoted⟩ := Option.bind_eq_some_iff.mp hdemoted
          obtain ⟨rfl, _⟩ := Prod.mk.inj (Option.some.inj hdemoted)
          exact adviseRanges_aligned hes
        · obtain ⟨rfl, _⟩ := Prod.mk.inj (Option.some.inj hdemoted)
          exact fun c mem => absurd mem List.not_mem_nil
      have here : ∀ c ∈ calls (promoted ++ demoted), Aligned pmdPagesize (c.iovBase, c.iovLen) := by
        intro c mem
        rw [calls_append] at mem
        cases List.mem_append.mp mem with
        | inl promote => exact adviseRanges_aligned hpromoted c promote
        | inr demote => exact demotions_aligned c demote
      dsimp only at h
      split at h
      · obtain rfl := Option.some.inj h
        exact here
      · obtain ⟨rest, hrest, h⟩ := Option.bind_eq_some_iff.mp h
        obtain rfl := Option.some.inj h
        intro c mem
        rw [calls_append, calls_usleep] at mem
        cases List.mem_append.mp mem with
        | inl now => exact here c now
        | inr later => exact ih hrest c later
    · obtain rfl := Option.some.inj h
      exact fun c mem => absurd mem List.not_mem_nil

/-- If the calls are aligned, the ranges were. -/
lemma allAligned_of_calls {es : Iterator}
    (h : ∀ c ∈ callsFor advice es, Aligned pmdPagesize (c.iovBase, c.iovLen)) :
    AllAligned pmdPagesize es := by
  intro e he range hrange
  exact h (rangeCall e.1 advice range) (List.mem_flatMap.mpr ⟨e, he, List.mem_map_of_mem hrange⟩)

/-- Maps that are replayed have ranges of huge pages. -/
lemma allAligned_of_issued {made : List Call}
    (h : issued kill pmdPagesize promotions demotions n ps ds = some made)
    (once : made.Perm (callsFor .promote ps ++ callsFor .demote ds)) :
    AllAligned pmdPagesize ps ∧ AllAligned pmdPagesize ds := by
  obtain ⟨es, hes, rfl⟩ := Option.map_eq_some_iff.mp h
  have aligned := promoterLoop_aligned hes
  constructor
  · exact allAligned_of_calls fun c mem =>
      aligned c (once.mem_iff.mpr (List.mem_append_left _ mem))
  · exact allAligned_of_calls fun c mem =>
      aligned c (once.mem_iff.mpr (List.mem_append_right _ mem))

/-- Without a page size the first range stops the program. -/
lemma issued_zero (alive : ∀ n, kill n = true) (hp : Entries promotions ps) :
    issued kill 0 promotions demotions n ps ds = none := by
  cases ps with
  | nil => exact issued_nil alive
  | cons p ps =>
    have looks := hp.looks p List.mem_cons_self
    have some := hp.nonempty p List.mem_cons_self
    rw [issued, promoterLoop, if_pos (alive n), looks, adviseRanges_zero some]
    rfl

/-- An iterator goes through a map in ascending order of the times. -/
lemma sorted_toList (m : RangeMap) : m.toList.Pairwise fun entry entry' => entry.1 < entry'.1 := by
  have ordered := Std.TreeMap.ordered_keys_toList (t := m)
  exact ordered.imp fun lt => compareOfLessAndEq_eq_lt.mp lt

/-- A map whose lists are not empty gives entries. -/
lemma entries_toList {m : RangeMap} (nonempty : ∀ e ∈ m.toList, e.2 ≠ []) : Entries m m.toList where
  sorted := sorted_toList m
  looks e mem := by
    rw [Std.TreeMap.getD_eq_getD_getElem?, Std.TreeMap.mem_toList_iff_getElem?_eq_some.mp mem]
    rfl
  nonempty := nonempty

/-- The times of a map are its keys. -/
lemma mem_times {m : RangeMap} {t : UInt64} : t ∈ m.toList.map Prod.fst ↔ t ∈ m := by
  rw [Std.TreeMap.map_fst_toList_eq_keys, Std.TreeMap.mem_keys]

/-- `launch_promoter` replays the maps while the target is alive if and only if the ranges are made of huge
    pages, every time of demotions is one of promotions, and the last time of both is the same. -/
theorem replays_iff (alive : ∀ n, kill n = true) (nonempty : ∀ e ∈ promotions.toList, e.2 ≠ [])
    (nonempty' : ∀ e ∈ demotions.toList, e.2 ≠ []) :
    (∃ events, launchPromoter kill pmdPagesize promotions demotions = some events ∧
      Replays promotions.toList demotions.toList (calls events)) ↔
    pmdPagesize ≠ 0 ∧ AllAligned pmdPagesize promotions.toList ∧
      AllAligned pmdPagesize demotions.toList ∧ (∀ t ∈ demotions, t ∈ promotions) ∧
        ∃ last ∈ demotions, ∀ t ∈ promotions, t ≤ last := by
  have hp := entries_toList nonempty
  have hd := entries_toList nonempty'
  have covers : Covers promotions.toList demotions.toList ↔
      (∀ t ∈ demotions, t ∈ promotions) ∧ ∃ last ∈ demotions, ∀ t ∈ promotions, t ≤ last := by
    simp only [Covers, mem_times]
  have loop : (∃ events, launchPromoter kill pmdPagesize promotions demotions = some events ∧
      Replays promotions.toList demotions.toList (calls events)) ↔
      ∃ made, issued kill pmdPagesize promotions demotions 0 promotions.toList demotions.toList =
        some made ∧ Replays promotions.toList demotions.toList made := by
    rw [launchPromoter, issued]
    cases promoterLoop kill pmdPagesize promotions demotions 0 promotions.toList demotions.toList with
    | none => simp
    | some es => simp [calls_usleep]
  rw [loop, ← covers]
  constructor
  · intro ⟨made, h, replays⟩
    have pos : pmdPagesize ≠ 0 := by
      rintro rfl
      rw [issued_zero alive hp] at h
      cases h
    obtain ⟨aligned, aligned'⟩ := allAligned_of_issued h replays.once
    exact ⟨pos, aligned, aligned', covers_of_issued alive pos hp hd aligned aligned' h replays.once⟩
  · intro ⟨pos, aligned, aligned', h⟩
    exact issued_of_covers alive pos hp hd aligned aligned' h

/-- Two batches of promotions. -/
def batches : RangeMap := .ofList [(1, [(4194304, 4194304)]), (3, [(8388608, 2097152)])] compare

/-- The entries of the example. -/
lemma batches_toList :
    batches.toList = [(1, [(4194304, 4194304)]), (3, [(8388608, 2097152)])] := by decide +kernel

/-- Demotions with the second of them. -/
theorem replays_iff_last : ∃ events, launchPromoter (fun _ => true) 2097152 batches
      (.ofList [(3, [(4194304, 2097152)])] compare) = some events ∧
    Replays batches.toList
      (Std.TreeMap.ofList [(3, [(4194304, 2097152)])] compare).toList (calls events) := by
  have entries : (Std.TreeMap.ofList [(3, [(4194304, 2097152)])] compare : RangeMap).toList =
      [(3, [(4194304, 2097152)])] := by decide +kernel
  refine (replays_iff (fun _ => rfl) ?_ ?_).mpr ⟨by decide, ?_, ?_, ?_, 3, ?_, ?_⟩
  · rw [batches_toList]
    simp
  · rw [entries]
    simp
  · rw [batches_toList]
    simp [AllAligned, Aligned]
  · rw [entries]
    simp [AllAligned, Aligned]
  · intro t mem
    rw [← mem_times, entries] at mem
    rw [← mem_times, batches_toList]
    obtain rfl := List.mem_singleton.mp mem
    exact List.mem_cons_of_mem _ List.mem_cons_self
  · rw [← mem_times, entries]
    exact List.mem_cons_self
  · intro t mem
    rw [← mem_times, batches_toList] at mem
    simp only [List.map_cons, List.map_nil, List.mem_cons, List.not_mem_nil, or_false] at mem
    rcases mem with rfl | rfl
    · decide
    · decide

/-- Demotions between the two are never issued. -/
theorem demotions_stuck : ¬ ∃ events, launchPromoter (fun _ => true) 2097152 batches
      (.ofList [(2, [(4194304, 2097152)])] compare) = some events ∧
    Replays batches.toList
      (Std.TreeMap.ofList [(2, [(4194304, 2097152)])] compare).toList (calls events) := by
  have run : (launchPromoter (fun _ => true) 2097152 batches
      (.ofList [(2, [(4194304, 2097152)])] compare)).map (fun events => (calls events).length) =
      some 2 := by decide +kernel
  have three : (callsFor .promote batches.toList ++ callsFor .demote
      (Std.TreeMap.ofList [(2, [(4194304, 2097152)])] compare : RangeMap).toList).length = 3 := by
    decide +kernel
  rintro ⟨events, h, replays⟩
  rw [h] at run
  have two : (calls events).length = 2 := Option.some.inj run
  rw [replays.once.length_eq, three] at two
  cases two

end

end PromotionCache.Utils
