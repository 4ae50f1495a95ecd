import PromotionCache.Hawkeye.Spec
import Mathlib.Order.Interval.Finset.Fin
import Mathlib.Tactic.Ring

/-!
# Sampling windows

`hawkeye_track_access` samples `ACCESS_INTERVAL` accesses, calls `summarize`, and lets
`FACTOR*ACCESS_INTERVAL` accesses pass, where the product is a 64-bit word. The schedule is the one
intended as long as the product fits.
-/

namespace PromotionCache.Hawkeye
open Lib Tlb Pcc

/-- Whether the next access calls `summarize`; a modulus of zero gives no answer. -/
def due (cfg : Config) (s : State) : Option Bool :=
  if s.tracking then
    if cfg.accessInterval.toNat = 0 then none
    else some (word (s.currNumAccesses + 1) % cfg.accessInterval.toNat = 0)
  else if cfg.period = 0 then none
  else some false

/-- Access `a` calls `summarize`, in state `m`. -/
def Summarizes (cfg : Config) (s : State) (a : UInt64) (m : State) : Prop :=
  due cfg s = some true ∧ m = s.count.cover a.toNat

/-- `summarize` is called exactly after accesses number `I + k*(F+1)*I`, and each time the bits of every
    region are the pages that the last `I` accesses touched. -/
def Exact (p : Platform) (cfg : Config) (as : List UInt64) : Prop :=
  ∀ pre a s, pre ++ [a] <+: as → simulate p cfg pre = some s →
    (∃ d, due cfg s = some d ∧ (d = true ↔ ∃ k, pre.length + 1 = cfg.accessInterval.toNat +
      k * ((cfg.factor.toNat + 1) * cfg.accessInterval.toNat))) ∧
    ∀ m, Summarizes cfg s a m → ∀ base (o : Fin numBasePages), o ∈ m.pages base ↔
      ∃ v ∈ (pre ++ [a]).drop (pre.length + 1 - cfg.accessInterval.toNat),
        v.toNat / pageSize = base * numBasePages + o

/-- The access at which the schedule of the program leaves the one of `Exact`, if the product of `FACTOR` and
    `ACCESS_INTERVAL` does not fit: a window comes too early, or the modulus is zero. -/
def early (cfg : Config) : Nat :=
  if cfg.period = 0 then cfg.accessInterval.toNat + 1
  else 2 * cfg.accessInterval.toNat + cfg.period

/-- A platform that ends the program when it reads past the end of a bucket. -/
def plain : Platform := ⟨doubles, id, fun _ => .refl _, fun _ _ _ => none⟩

section
variable {p : Platform} {cfg : Config} {s t m u : State} {a : UInt64} {as : List UInt64}
  {base r v : Nat}

/-- The pages of the regions after one region has got new ones. -/
lemma pages_insert {pages : Finset (Fin numBasePages)} :
    { s with coverage := s.coverage.insert base pages }.pages r =
      if r = base then pages else s.pages r := by
  unfold State.pages
  split
  case isTrue same =>
    rw [same, AList.lookup_insert]
    rfl
  case isFalse other => rw [AList.lookup_insert_ne other]

/-- An access adds its page to its region. -/
lemma pages_cover :
    (s.cover v).pages r =
      if r = v / hugePageSize then insert (offset v) (s.pages r) else s.pages r := by
  simp only [State.cover, pages_insert]
  split
  case isTrue same =>
    rw [same]
    split
    case isTrue => rfl
    case isFalse new =>
      rw [pages_insert, if_pos rfl, State.pages, AList.lookup_eq_none.mpr new]
      rfl
  case isFalse other =>
    split
    case isTrue => rfl
    case isFalse => rw [pages_insert, if_neg other]

/-- An access brings in its own region. -/
lemma mem_cover : r ∈ (s.cover v).coverage ↔ r = v / hugePageSize ∨ r ∈ s.coverage := by
  simp only [State.cover, AList.mem_insert]
  split
  case isTrue => rfl
  case isFalse => rw [AList.mem_insert, or_self_left]

/-- Clearing the pages of some regions. -/
lemma lookup_clear (bases : List Nat) (c : AList fun _ : Nat => Finset (Fin numBasePages)) :
    (bases.foldl (fun c base => c.insert base ∅) c).lookup r =
      if r ∈ bases then some ∅ else c.lookup r := by
  induction bases generalizing c with
  | nil => rfl
  | cons base bases ih =>
    rw [List.foldl_cons, ih]
    by_cases mem : r ∈ bases
    · rw [if_pos mem, if_pos (List.mem_cons_of_mem base mem)]
    · rw [if_neg mem]
      by_cases same : r = base
      · rw [same, AList.lookup_insert, if_pos List.mem_cons_self]
      · rw [AList.lookup_insert_ne same, if_neg (by simp [same, mem])]

/-- No bit is set after `clear_coverage`. -/
lemma pages_clear : (s.clearCoverage p).pages r = ∅ := by
  rw [State.pages, State.clearCoverage, lookup_clear]
  split
  case isTrue => rfl
  case isFalse not =>
    rw [AList.lookup_eq_none.mpr fun mem => not (mem_order.mpr mem)]
    rfl

/-- Clearing the coverage forgets no region. -/
lemma mem_clear : r ∈ (s.clearCoverage p).coverage ↔ r ∈ s.coverage := by
  rw [← AList.lookup_isSome, ← AList.lookup_isSome, State.clearCoverage, lookup_clear]
  split
  case isTrue mem =>
    rw [AList.lookup_isSome]
    exact iff_of_true rfl (mem_order.mp mem)
  case isFalse => rfl

/-- A page by its number. -/
lemma page_iff {o : Fin numBasePages} :
    v / pageSize = base * numBasePages + o ↔ v / hugePageSize = base ∧ offset v = o := by
  have lt := o.isLt
  rw [Fin.ext_iff]
  simp only [offset, pageSize, hugePageSize, numBasePages] at lt ⊢
  omega

/-- Covering a page touches the coverage alone. -/
lemma cover_frame : (s.cover v).tracking = s.tracking ∧
    (s.cover v).currNumAccesses = s.currNumAccesses ∧ (s.cover v).ema = s.ema ∧
      (s.cover v).buckets = s.buckets := by
  simp only [State.cover]
  split <;> exact ⟨rfl, rfl, rfl, rfl⟩

/-- The state after an access that does not call `summarize`. -/
def next (cfg : Config) (s : State) (a : UInt64) : State :=
  if s.tracking then s.count.cover a.toNat
  else if s.count.currNumAccesses % cfg.period = 0 then
    { s.count with tracking := true, currNumAccesses := 0 }
  else s.count

/-- The end of a window. -/
def State.close (p : Platform) (s : State) : State :=
  { s.clearCoverage p with tracking := false, currNumAccesses := 0 }

/-- An access is counted and covered; at the end of a window it is followed by a summary. -/
lemma hawkeyeTrackAccess_eq : hawkeyeTrackAccess p cfg s a = (due cfg s).bind fun d =>
    if d then (summarize p (s.count.cover a.toNat)).map (State.close p) else some (next cfg s a) := by
  have track : s.count.tracking = s.tracking := rfl
  have curr := cover_frame (s := s.count) (v := a.toNat) |>.2.1
  have count : s.count.currNumAccesses = word (s.currNumAccesses + 1) := rfl
  simp only [hawkeyeTrackAccess, due, next, track, curr, count]
  cases s.tracking with
  | false =>
    simp only [Bool.not_false, if_true, Bool.false_eq_true, if_false]
    by_cases zero : cfg.period = 0
    · rw [if_pos zero, if_pos zero]
      rfl
    · rw [if_neg zero, if_neg zero, Option.bind_some, if_neg Bool.false_ne_true]
      split <;> rfl
  | true =>
    simp only [Bool.not_true, Bool.false_eq_true, if_false, if_true]
    by_cases zero : cfg.accessInterval.toNat = 0
    · rw [if_pos zero, if_pos zero]
      rfl
    · rw [if_neg zero, if_neg zero, Option.bind_some]
      simp only [decide_eq_true_eq]
      split
      · cases summarize p (s.count.cover a.toNat) <;> rfl
      · rfl

/-- An access ends a window or does not call `summarize`. -/
lemma hawkeyeTrackAccess_inv (h : hawkeyeTrackAccess p cfg s a = some t) :
    (due cfg s = some false ∧ t = next cfg s a) ∨
      ∃ m u, Summarizes cfg s a m ∧ summarize p m = some u ∧ t = u.close p := by
  rw [hawkeyeTrackAccess_eq] at h
  obtain ⟨d, hd, h⟩ := Option.bind_eq_some_iff.mp h
  cases d with
  | false => exact .inl ⟨hd, (Option.some.inj h).symm⟩
  | true =>
    obtain ⟨u, hu, e⟩ := Option.map_eq_some_iff.mp h
    exact .inr ⟨_, u, ⟨hd, rfl⟩, hu, e.symm⟩

/-- An access that ends a window closes it after the summary. -/
lemma Summarizes.step (summarizes : Summarizes cfg s a m) (h : summarize p m = some u) :
    hawkeyeTrackAccess p cfg s a = some (u.close p) := by
  rw [hawkeyeTrackAccess_eq, summarizes.1, Option.bind_some, if_pos rfl, ← summarizes.2, h,
    Option.map_some]

/-- An access that does not end a window. -/
lemma next_step (no : due cfg s = some false) :
    hawkeyeTrackAccess p cfg s a = some (next cfg s a) := by
  rw [hawkeyeTrackAccess_eq, no, Option.bind_some, if_neg Bool.false_ne_true]

/-- One more access is one more step. -/
lemma simulate_snoc : simulate p cfg (as ++ [a]) = some t ↔
    ∃ s, simulate p cfg as = some s ∧ hawkeyeTrackAccess p cfg s a = some t :=
  run_snoc

/-- A run that comes to its end has come through all its beginnings. -/
lemma simulate_prefix {bs : List UInt64} (pre : bs <+: as) (h : simulate p cfg as = some s) :
    ∃ t, simulate p cfg bs = some t := by
  obtain ⟨cs, rfl⟩ := pre
  obtain ⟨t, ht, _⟩ := run_prefix h
  exact ⟨t, ht⟩

/-- An invariant of the accesses holds after every trace. -/
lemma simulate_inv (I : List UInt64 → State → Prop) (base : I [] init)
    (ind : ∀ bs a, bs ++ [a] <+: as → ∀ s t, simulate p cfg bs = some s → I bs s →
      hawkeyeTrackAccess p cfg s a = some t → I (bs ++ [a]) t)
    (h : simulate p cfg as = some s) : I as s :=
  run_inv_of base ind h

/-- The clock after `n` accesses: it has seen `k` windows, each with the accesses let pass after it, and is
    in the next window or past it. -/
def Clock (cfg : Config) (n : Nat) (s : State) : Prop :=
  ∃ k, (cfg.period = 0 → k = 0) ∧
    ((s.tracking = true ∧ s.currNumAccesses < cfg.accessInterval.toNat ∧
      n = k * (cfg.accessInterval.toNat + cfg.period) + s.currNumAccesses) ∨
    (s.tracking = false ∧ (s.currNumAccesses = 0 ∨ s.currNumAccesses < cfg.period) ∧
      n = k * (cfg.accessInterval.toNat + cfg.period) + cfg.accessInterval.toNat +
        s.currNumAccesses))

/-- A multiple between one and the modulus. -/
lemma mod_eq_zero_iff {n d : Nat} (pos : 0 < n) (le : n ≤ d) : n % d = 0 ↔ n = d := by
  constructor
  · intro h
    exact Nat.le_antisymm le (Nat.le_of_dvd pos (Nat.dvd_of_mod_eq_zero h))
  · rintro rfl
    exact Nat.mod_self n

/-- Within a window, its last access is due. -/
lemma due_tracking (tracking : s.tracking = true) (lt : s.currNumAccesses < cfg.accessInterval.toNat) :
    due cfg s = some (decide (s.currNumAccesses + 1 = cfg.accessInterval.toNat)) := by
  have small := cfg.accessInterval.toNat_lt
  have curr : word (s.currNumAccesses + 1) = s.currNumAccesses + 1 := word_of_lt (by omega)
  rw [due, if_pos tracking, if_neg (by omega), curr]
  exact congrArg some (decide_eq_decide.mpr (mod_eq_zero_iff (by omega) lt))

/-- Between windows nothing is due, if the period is not zero. -/
lemma due_waiting (waiting : s.tracking = false) :
    due cfg s = if cfg.period = 0 then none else some false := by
  rw [due, if_neg (by rw [waiting]; exact Bool.false_ne_true)]

/-- The counter does not wrap around below its range. -/
lemma count_word (lt : s.currNumAccesses + 1 < 2 ^ 64) :
    s.count.currNumAccesses = s.currNumAccesses + 1 := word_of_lt lt

/-- Within a window, an access is counted and covered. -/
lemma next_tracking (tracking : s.tracking = true) : next cfg s a = s.count.cover a.toNat :=
  if_pos tracking

/-- The clock goes on with an access that ends no window. -/
lemma Clock.next {n : Nat} (pos : 0 < cfg.accessInterval.toNat) (clock : Clock cfg n s)
    (no : due cfg s = some false) :
    Clock cfg (n + 1) (Hawkeye.next cfg s a) := by
  obtain ⟨k, zero, ⟨tracking, lt, e⟩ | ⟨waiting, lt, e⟩⟩ := clock
  · -- within a window
    have small := cfg.accessInterval.toNat_lt
    rw [due_tracking tracking lt] at no
    have more := of_decide_eq_false (Option.some.inj no)
    rw [next_tracking tracking]
    obtain ⟨track, curr, _, _⟩ := cover_frame (s := s.count) (v := a.toNat)
    rw [count_word (by omega)] at curr
    refine ⟨k, zero, .inl ⟨track.trans tracking, ?_, ?_⟩⟩
    · rw [curr]
      omega
    · rw [curr, e, Nat.add_assoc]
  · -- between two windows
    have small := period_lt cfg
    rw [due_waiting waiting] at no
    have ne : cfg.period ≠ 0 := by
      intro h
      rw [if_pos h] at no
      cases no
    have next : Hawkeye.next cfg s a = if s.count.currNumAccesses % cfg.period = 0 then
        { s.count with tracking := true, currNumAccesses := 0 } else s.count :=
      if_neg (by rw [waiting]; exact Bool.false_ne_true)
    have curr : s.count.currNumAccesses = s.currNumAccesses + 1 := count_word (by omega)
    have multiple := mod_eq_zero_iff (n := s.currNumAccesses + 1) (d := cfg.period) (by omega) (by omega)
    by_cases last : s.currNumAccesses + 1 = cfg.period
    · rw [next, if_pos (by rw [curr, multiple]; exact last)]
      refine ⟨k + 1, fun h => absurd h ne, .inl ⟨rfl, pos, ?_⟩⟩
      rw [e, Nat.add_mul, Nat.one_mul]
      show _ = _ + 0
      omega
    · rw [next, if_neg (by rw [curr, multiple]; exact last)]
      refine ⟨k, zero, .inr ⟨waiting, .inr ?_, ?_⟩⟩
      · rw [curr]
        omega
      · rw [curr, e, Nat.add_assoc]

/-- The invariant holds at the start. -/
lemma simulate_nil_inv : Inv p init := by
  intro base
  exact .inr ⟨rfl, fun _ => rfl⟩

/-- Covering a page keeps the invariant. -/
lemma Inv.cover (inv : Inv p s) : Inv p (s.count.cover v) := by
  obtain ⟨_, _, ema, buckets⟩ := cover_frame (s := s.count) (v := v)
  refine inv.mono (fun r mem => mem_cover.mpr (.inr mem)) fun r => ⟨?_, ?_⟩
  · rw [ema]
    rfl
  · rw [buckets]
    exact fun _ => rfl

/-- An access that ends no window keeps the invariant. -/
lemma Inv.next (inv : Inv p s) : Inv p (Hawkeye.next cfg s a) := by
  unfold Hawkeye.next
  split
  · exact inv.cover
  · split
    · exact inv.mono (fun _ mem => mem) fun _ => ⟨rfl, fun _ => rfl⟩
    · exact inv.mono (fun _ mem => mem) fun _ => ⟨rfl, fun _ => rfl⟩

/-- Closing a window keeps the invariant. -/
lemma Inv.close (inv : Inv p s) : Inv p (s.close p) :=
  inv.mono (fun _ mem => mem_clear.mpr mem) fun _ => ⟨rfl, fun _ => rfl⟩

/-- The state before a summary has the invariant. -/
lemma Summarizes.inv (summarizes : Summarizes cfg s a m) (inv : Inv p s) : Inv p m := by
  rw [summarizes.2]
  exact inv.cover

/-- Counting and covering touch no average. -/
lemma Summarizes.ema (summarizes : Summarizes cfg s a m) : m.ema = s.ema := by
  rw [summarizes.2]
  exact (cover_frame (s := s.count)).2.2.1

/-- The buckets are in order after every trace. -/
theorem simulate_valid (h : simulate p cfg as = some s) : Inv p s := by
  refine simulate_inv (fun _ s => Inv p s) simulate_nil_inv ?_ h
  intro _ a _ s t _ inv st
  rcases hawkeyeTrackAccess_inv st with ⟨_, rfl⟩ | ⟨m, u, summarizes, hu, rfl⟩
  · exact inv.next
  · exact (summarize_spec (summarizes.inv inv) hu).1.close

/-- A summary ends a window. -/
lemma Summarizes.tracking (summarizes : Summarizes cfg s a m) : s.tracking = true := by
  cases tracking : s.tracking with
  | true => rfl
  | false =>
    have e := summarizes.1
    rw [due_waiting tracking] at e
    split at e <;> cases e

/-- In every run the state tells how far the window is. -/
lemma simulate_clock (pos : 0 < cfg.accessInterval.toNat) (h : simulate p cfg as = some s) :
    Clock cfg as.length s := by
  refine simulate_inv (fun as s => Clock cfg as.length s) ?_ ?_ h
  · exact ⟨0, fun _ => rfl, .inl ⟨rfl, pos, by rw [Nat.zero_mul]; rfl⟩⟩
  · intro bs a _ s t _ clock st
    rw [List.length_append, List.length_singleton]
    rcases hawkeyeTrackAccess_inv st with ⟨no, rfl⟩ | ⟨m, u, summarizes, hu, rfl⟩
    · exact clock.next pos no
    · obtain ⟨k, zero, ⟨tracking, lt, e⟩ | ⟨waiting, _⟩⟩ := clock
      · have last := summarizes.1
        rw [due_tracking tracking lt] at last
        have last := of_decide_eq_true (Option.some.inj last)
        refine ⟨k, zero, .inr ⟨rfl, .inl rfl, ?_⟩⟩
        rw [e, Nat.add_assoc, last]
        rfl
      · rw [summarizes.tracking] at waiting
        cases waiting

/-- Two accesses that end windows have the same place in their periods. -/
lemma phase_unique {k k' x I P : Nat} (one : 1 ≤ x) (le : x ≤ I) (period : I ≤ P)
    (h : k * P + x = k' * P + I) : x = I := by
  rcases Nat.lt_trichotomy k k' with lt | same | gt
  · have step := Nat.mul_le_mul_right P (Nat.succ_le_of_lt lt)
    rw [Nat.succ_mul] at step
    omega
  · rw [same] at h
    omega
  · have step := Nat.mul_le_mul_right P (Nat.succ_le_of_lt gt)
    rw [Nat.succ_mul] at step
    omega

/-- `summarize` is called after the accesses number `I + k*(I+M)`, where `M` is the product of `FACTOR` and
    `ACCESS_INTERVAL` as the program computes it. -/
lemma Clock.due {n : Nat} {d : Bool} (pos : 0 < cfg.accessInterval.toNat) (clock : Clock cfg n s)
    (h : Hawkeye.due cfg s = some d) : d = true ↔
      ∃ k, n + 1 = k * (cfg.accessInterval.toNat + cfg.period) + cfg.accessInterval.toNat := by
  obtain ⟨k, zero, ⟨tracking, lt, e⟩ | ⟨waiting, lt, e⟩⟩ := clock
  · rw [due_tracking tracking lt] at h
    obtain rfl := Option.some.inj h
    rw [decide_eq_true_iff]
    constructor
    · intro last
      exact ⟨k, by rw [e, Nat.add_assoc, last]⟩
    · intro ⟨k', e'⟩
      rw [e, Nat.add_assoc] at e'
      exact phase_unique (by omega) lt (by omega) e'
  · rw [due_waiting waiting] at h
    split at h
    case isTrue => cases h
    case isFalse ne =>
      obtain rfl := Option.some.inj h
      refine iff_of_false Bool.false_ne_true ?_
      intro ⟨k', e'⟩
      -- the access would lie at the end of the period
      have whole : k * (cfg.accessInterval.toNat + cfg.period) + (s.currNumAccesses + 1) =
          k' * (cfg.accessInterval.toNat + cfg.period) := by omega
      have turn := (Nat.dvd_add_right (Nat.dvd_mul_left (cfg.accessInterval.toNat + cfg.period) k)).mp
        (whole ▸ Nat.dvd_mul_left _ k')
      have le := Nat.le_of_dvd (by omega) turn
      omega

/-- The bits that are set are the pages of the accesses of the window so far. -/
def Sampled (as : List UInt64) (s : State) : Prop :=
  ∀ base (o : Fin numBasePages), o ∈ s.pages base ↔ s.tracking = true ∧
    ∃ v ∈ as.drop (as.length - s.currNumAccesses), v.toNat / pageSize = base * numBasePages + o

/-- One more access in a window. -/
lemma Sampled.cover (sampled : Sampled as s) (tracking : s.tracking = true) (base : Nat) (o : Fin numBasePages) :
    o ∈ (s.count.cover a.toNat).pages base ↔
      ∃ v ∈ (as ++ [a]).drop (as.length - s.currNumAccesses),
        v.toNat / pageSize = base * numBasePages + o := by
  have before : o ∈ s.count.pages base ↔ _ := (sampled base o).trans (and_iff_right tracking)
  rw [List.drop_append_of_le_length (Nat.sub_le _ _)]
  simp only [List.mem_append, List.mem_singleton, or_and_right, exists_or, exists_eq_left]
  rw [← before, pages_cover, page_iff]
  by_cases same : base = a.toNat / hugePageSize
  · rw [if_pos same, Finset.mem_insert]
    constructor
    · rintro (rfl | mem)
      · exact .inr ⟨same.symm, rfl⟩
      · exact .inl mem
    · rintro (mem | ⟨_, rfl⟩)
      · exact .inr mem
      · exact .inl rfl
  · rw [if_neg same]
    exact (or_iff_left fun h => same h.1.symm).symm

/-- In every run the coverage is that of the accesses of the windows. -/
lemma simulate_sampled (pos : 0 < cfg.accessInterval.toNat) (h : simulate p cfg as = some s) :
    Sampled as s := by
  refine simulate_inv (fun as s => Sampled as s) ?_ ?_ h
  · intro base o
    simp [State.pages, init]
  · intro bs a _ s t hs sampled st
    have clock := simulate_clock pos hs
    rcases hawkeyeTrackAccess_inv st with ⟨no, rfl⟩ | ⟨m, u, _, _, rfl⟩
    · obtain ⟨k, _, ⟨tracking, lt, e⟩ | ⟨waiting, _⟩⟩ := clock
      · have small := cfg.accessInterval.toNat_lt
        obtain ⟨track, curr, _, _⟩ := cover_frame (s := s.count) (v := a.toNat)
        rw [count_word (by omega)] at curr
        intro base o
        have len : (bs ++ [a]).length - (s.currNumAccesses + 1) = bs.length - s.currNumAccesses := by
          rw [List.length_append, List.length_singleton, Nat.add_sub_add_right]
        rw [next_tracking tracking, track, curr, len, sampled.cover tracking]
        exact (and_iff_right tracking).symm
      · -- nothing is set before the next window
        have none : ∀ base (o : Fin numBasePages), o ∉ (next cfg s a).pages base := by
          intro base o mem
          have e : (next cfg s a).pages base = s.pages base := by
            unfold next
            rw [if_neg (by rw [waiting]; exact Bool.false_ne_true)]
            split <;> rfl
          rw [e, sampled base o, waiting] at mem
          exact Bool.false_ne_true mem.1
        intro base o
        refine iff_of_false (none base o) ?_
        unfold next
        rw [if_neg (by rw [waiting]; exact Bool.false_ne_true)]
        split
        · simp
        · intro ⟨tracking, _⟩
          rw [show s.count.tracking = s.tracking from rfl, waiting] at tracking
          cases tracking
    · intro base o
      have none : (u.close p).pages base = ∅ := pages_clear
      rw [none]
      exact iff_of_false (Finset.notMem_empty o) fun h => Bool.false_ne_true h.1

/-- At each call of `summarize` the samples are those of the last `ACCESS_INTERVAL` accesses. -/
lemma Summarizes.pages (pos : 0 < cfg.accessInterval.toNat) (h : simulate p cfg as = some s)
    (summarizes : Summarizes cfg s a m) (base : Nat) (o : Fin numBasePages) : o ∈ m.pages base ↔
      ∃ v ∈ (as ++ [a]).drop (as.length + 1 - cfg.accessInterval.toNat),
        v.toNat / pageSize = base * numBasePages + o := by
  obtain ⟨k, _, ⟨tracking, lt, e⟩ | ⟨waiting, _⟩⟩ := simulate_clock pos h
  · obtain ⟨last, rfl⟩ := summarizes
    rw [due_tracking tracking lt] at last
    have last := of_decide_eq_true (Option.some.inj last)
    rw [← last, Nat.add_sub_add_right]
    exact (simulate_sampled pos h).cover tracking base o
  · rw [summarizes.tracking] at waiting
    cases waiting

/-- It is decided whether an access ends a window, but for a period of zero. -/
lemma Clock.due_isSome {n : Nat} (clock : Clock cfg n s)
    (go : n < cfg.accessInterval.toNat ∨ cfg.period ≠ 0) : ∃ d, Hawkeye.due cfg s = some d := by
  obtain ⟨k, _, ⟨tracking, lt, e⟩ | ⟨waiting, lt, e⟩⟩ := clock
  · exact ⟨_, due_tracking tracking lt⟩
  · rw [due_waiting waiting, if_neg (by omega)]
    exact ⟨false, rfl⟩

/-- The first window is the only one before the end of the first period. -/
lemma eq_of_lt_turn {n I P k : Nat} (lt : n < I + P) (e : n = k * P + I) : n = I := by
  cases k with
  | zero => omega
  | succ k =>
    rw [Nat.succ_mul] at e
    omega

/-- The first `n` accesses of a program that touches the pages of region 0 up to page `q`, one after the
    other, and stays there. -/
def sweep (q n : Nat) : List UInt64 :=
  (List.range n).map fun i => UInt64.ofNat (pageSize * min i q)

/-- One more access of a sweep. -/
lemma sweep_succ (q n : Nat) :
    sweep q (n + 1) = sweep q n ++ [UInt64.ofNat (pageSize * min n q)] := by
  rw [sweep, List.range_succ, List.map_append]
  rfl

/-- A sweep has as many accesses as it is asked for. -/
lemma length_sweep (q n : Nat) : (sweep q n).length = n := by
  rw [sweep, List.length_map, List.length_range]

/-- The addresses of a sweep do not wrap around. -/
lemma toNat_sweep {q : Nat} (lt : q < 512) (i : Nat) :
    (UInt64.ofNat (pageSize * min i q)).toNat = pageSize * min i q := by
  apply UInt64.toNat_ofNat_of_lt'
  show pageSize * min i q < 2 ^ 64
  unfold pageSize
  omega

/-- An access that ends no window touches no average and no other region. -/
lemma next_frame (cfg : Config) : (next cfg s a).ema = s.ema ∧
    ∀ r, r ∈ (next cfg s a).coverage → r = a.toNat / hugePageSize ∨ r ∈ s.coverage := by
  unfold next
  split
  · exact ⟨(cover_frame (s := s.count)).2.2.1, fun r mem => mem_cover (s := s.count).mp mem⟩
  · split <;> exact ⟨rfl, fun r mem => .inr mem⟩

/-- It forgets no region. -/
lemma mem_next {r : Nat} (mem : r ∈ s.coverage) : r ∈ (next cfg s a).coverage := by
  unfold next
  split
  · exact mem_cover.mpr (.inr mem)
  · split <;> exact mem

/-- The pages that the first window of a sweep touches. -/
lemma pages_sweep {q n : Nat} (lt : q < 512) (enough : q < cfg.accessInterval.toNat)
    (h : simulate p cfg (sweep q n) = some s) (window : n + 1 = cfg.accessInterval.toNat)
    (summarizes : Summarizes cfg s (UInt64.ofNat (pageSize * min n q)) m) :
    m.pages 0 = Finset.Iic ⟨q, lt⟩ := by
  ext o
  rw [summarizes.pages (by omega) h, ← sweep_succ, length_sweep, window, Nat.sub_self, List.drop_zero,
    Finset.mem_Iic, Fin.le_def, Nat.zero_mul, Nat.zero_add]
  simp only [sweep, List.mem_map, List.mem_range]
  constructor
  · rintro ⟨_, ⟨i, _, rfl⟩, e⟩
    rw [toNat_sweep lt, Nat.mul_div_cancel_left _ (by decide)] at e
    show o.val ≤ q
    omega
  · intro le
    have le : o.val ≤ q := le
    refine ⟨_, ⟨o, by omega, rfl⟩, ?_⟩
    rw [toNat_sweep lt, Nat.mul_div_cancel_left _ (by decide), Nat.min_eq_left le]

/-- A sweep of at least 450 pages survives its first window, after which the average of its region is the
    number of its pages. -/
lemma simulate_sweep {q n : Nat} (lt : q < 512) (high : 450 ≤ q + 1)
    (enough : q < cfg.accessInterval.toNat) (ne : cfg.period ≠ 0)
    (le : n < cfg.accessInterval.toNat + (cfg.accessInterval.toNat + cfg.period)) :
    ∃ s, simulate p cfg (sweep q n) = some s ∧ (∀ r ∈ s.coverage, r = 0) ∧
      (n < cfg.accessInterval.toNat → ∀ r, s.ema.find r = none) ∧
      (cfg.accessInterval.toNat ≤ n → 0 ∈ s.coverage ∧ s.ema.find 0 = some ((q + 1 : Nat) : ℚ)) := by
  induction n with
  | zero =>
    refine ⟨init, rfl, ?_, fun _ _ => rfl, fun h => by omega⟩
    intro r mem
    exact absurd mem (AList.notMem_empty r)
  | succ n ih =>
    obtain ⟨s, hs, only, before, after⟩ := ih (by omega)
    have clock := simulate_clock (by omega) hs
    rw [length_sweep] at clock
    have region : (UInt64.ofNat (pageSize * min n q)).toNat / hugePageSize = 0 := by
      rw [toNat_sweep lt]
      unfold pageSize hugePageSize
      omega
    obtain ⟨d, hd⟩ := clock.due_isSome (.inr ne)
    have window := clock.due (by omega) hd
    rw [sweep_succ]
    cases d with
    | true =>
      -- the end of the first window
      obtain ⟨k, e⟩ := window.mp rfl
      have e := eq_of_lt_turn le e
      obtain ⟨m, summarizes⟩ : ∃ m, Summarizes cfg s (UInt64.ofNat (pageSize * min n q)) m :=
        ⟨_, hd, rfl⟩
      have inv := summarizes.inv (simulate_valid hs)
      have cov : ∀ r, r ∈ m.coverage ↔ r = 0 ∨ r ∈ s.coverage := by
        intro r
        rw [summarizes.2, mem_cover, region]
        rfl
      have fresh : ∀ r, m.ema.find r = none := by
        intro r
        rw [summarizes.2, cover_frame.2.2.1]
        exact before (by omega) r
      have card : accEma p m 0 = (q + 1 : Nat) := by
        rw [accEma, UnorderedMap.contains, fresh, pages_sweep lt enough hs e summarizes, Fin.card_Iic]
        rfl
      have here : 0 ∈ m.coverage := (cov 0).mpr (.inl rfl)
      have low : ∀ base ∈ m.coverage, m.ema.get base 0 < 500 := by
        intro base _
        rw [UnorderedMap.get, fresh]
        norm_num
      have top : 450 ≤ accEma p m 0 := by
        rw [card]
        exact_mod_cast high
      obtain ⟨u, hu⟩ := summarize_isSome (p := p) inv low ⟨0, here, top⟩
      obtain ⟨_, same, _, _, placed⟩ := summarize_spec inv hu
      refine ⟨u.close p, simulate_snoc.mpr ⟨s, hs, summarizes.step hu⟩, ?_, fun h => by omega,
        fun _ => ⟨?_, ?_⟩⟩
      · intro r mem
        have mem := mem_clear.mp mem
        rw [same, cov] at mem
        exact mem.elim id (only r)
      · refine mem_clear.mpr ?_
        rw [same]
        exact here
      · rw [← card]
        exact (placed 0 here).2.ema
    | false =>
      have not : n + 1 ≠ cfg.accessInterval.toNat := by
        intro e
        exact Bool.false_ne_true (window.mpr ⟨0, by omega⟩)
      obtain ⟨ema, cov⟩ := next_frame (s := s) (a := UInt64.ofNat (pageSize * min n q)) cfg
      refine ⟨_, simulate_snoc.mpr ⟨s, hs, next_step hd⟩, ?_, ?_, ?_⟩
      · intro r mem
        have mem := cov r mem
        rw [region] at mem
        exact mem.elim id (only r)
      · intro lt r
        rw [ema]
        exact before (by omega) r
      · intro past
        rw [ema]
        obtain ⟨mem, known⟩ := after (by omega)
        exact ⟨mem_next mem, known⟩

/-- Up to its second window the schedule is the intended one. -/
lemma first_window {n I P Q : Nat} (lt : n < I + P) (le : P ≤ Q) :
    (∃ k, n = k * P + I) ↔ ∃ k, n = I + k * Q := by
  constructor
  · intro ⟨k, e⟩
    exact ⟨0, by rw [Nat.zero_mul]; exact eq_of_lt_turn lt e⟩
  · intro ⟨k, e⟩
    rw [Nat.add_comm] at e
    exact ⟨0, by rw [Nat.zero_mul, Nat.zero_add]; exact eq_of_lt_turn (by omega) e⟩

/-- The windows are exact if and only if the product of `FACTOR` and `ACCESS_INTERVAL` fits into 64 bits, or
    the program does not get to the access at which this shows. -/
theorem windows_exact_iff (one : 0 < cfg.factor.toNat) (pos : 0 < cfg.accessInterval.toNat) :
    Exact p cfg as ↔ cfg.factor.toNat * cfg.accessInterval.toNat < 2 ^ 64 ∨
      ∀ pre a s, pre ++ [a] <+: as → simulate p cfg pre = some s → pre.length + 1 < early cfg := by
  have le : cfg.period ≤ cfg.factor.toNat * cfg.accessInterval.toNat := Nat.mod_le _ _
  have turn : (cfg.factor.toNat + 1) * cfg.accessInterval.toNat =
      cfg.accessInterval.toNat + cfg.factor.toNat * cfg.accessInterval.toNat := by ring
  unfold Exact
  rw [turn]
  constructor
  · intro exact
    rcases Nat.lt_or_ge (cfg.factor.toNat * cfg.accessInterval.toNat) (2 ^ 64) with fits | big
    · exact .inl fits
    · refine .inr fun pre a s hpre hs => ?_
      have lt := lt_of_lt_of_le (period_lt cfg) big
      by_contra late
      -- the prefix of the trace up to the access in question
      have len : early cfg - 1 < (pre ++ [a]).length := by
        rw [List.length_append, List.length_singleton]
        omega
      have hq : (pre ++ [a]).take (early cfg - 1) ++ [(pre ++ [a])[early cfg - 1]] <+: as := by
        rw [List.take_append_getElem]
        exact (List.take_prefix _ _).trans hpre
      have hq' : (pre ++ [a]).take (early cfg - 1) <+: pre := by
        rw [List.take_append_of_le_length (by omega)]
        exact List.take_prefix _ _
      obtain ⟨t, ht⟩ := simulate_prefix hq' hs
      have clock := simulate_clock pos ht
      rw [List.length_take, Nat.min_eq_left len.le] at clock
      obtain ⟨d, hd, scheduled⟩ := (exact _ _ t hq ht).1
      rw [List.length_take, Nat.min_eq_left len.le] at scheduled
      unfold early at clock scheduled
      split at clock
      case isTrue zero =>
        -- the modulus is zero
        obtain ⟨k, first, ⟨_, lt, e⟩ | ⟨waiting, _⟩⟩ := clock
        · rw [first zero] at e
          omega
        · rw [due_waiting waiting, if_pos zero] at hd
          cases hd
      case isFalse ne =>
        rw [if_neg ne] at scheduled
        have yes : d = true := (clock.due pos hd).mpr ⟨1, by omega⟩
        obtain ⟨k, e⟩ := scheduled.mp yes
        cases k with
        | zero => omega
        | succ k =>
          rw [Nat.add_mul k, Nat.one_mul] at e
          omega
  · intro cond pre a s hpre hs
    have clock := simulate_clock pos hs
    refine ⟨?_, fun m summarizes base o => summarizes.pages pos hs base o⟩
    rcases cond with fits | before
    · have product : cfg.period = cfg.factor.toNat * cfg.accessInterval.toNat :=
        Nat.mod_eq_of_lt fits
      have ne : cfg.period ≠ 0 := by
        rw [product]
        exact Nat.ne_of_gt (Nat.mul_pos one pos)
      obtain ⟨d, hd⟩ := clock.due_isSome (.inr ne)
      refine ⟨d, hd, (clock.due pos hd).trans ?_⟩
      rw [product]
      simp only [Nat.add_comm cfg.accessInterval.toNat]
    · have lt := before pre a s hpre hs
      unfold early at lt
      have go : pre.length < cfg.accessInterval.toNat ∨ cfg.period ≠ 0 := by
        split at lt
        case isTrue => exact .inl (by omega)
        case isFalse ne => exact .inr ne
      have lt' : pre.length + 1 < cfg.accessInterval.toNat +
          (cfg.accessInterval.toNat + cfg.period) := by
        split at lt <;> omega
      obtain ⟨d, hd⟩ := clock.due_isSome go
      exact ⟨d, hd, (clock.due pos hd).trans (first_window lt' (by omega))⟩

/-- Three windows over 512 pages of one region, the last of which is visited again and again. -/
theorem windows_exact_iff_sweep :
    0 < (⟨128, 1, 512, 0.9⟩ : Config).factor.toNat ∧
      0 < (⟨128, 1, 512, 0.9⟩ : Config).accessInterval.toNat ∧
      Exact plain ⟨128, 1, 512, 0.9⟩ (sweep 511 1535) :=
  ⟨by decide, by decide, (windows_exact_iff (by decide) (by decide)).mpr (.inl (by decide))⟩

/-- `FACTOR*ACCESS_INTERVAL` is `2 ^ 64 + 2 ^ 34`, of which `2 ^ 34` is left: the second window comes right
    after a break of `2 ^ 34` accesses. -/
theorem window_early :
    ¬ Exact plain ⟨128, 1073741825, 17179869184, 0.9⟩ (sweep 449 51539607552) := by
  intro exact
  have period : (⟨128, 1073741825, 17179869184, 0.9⟩ : Config).period = 17179869184 := rfl
  have interval : (⟨128, 1073741825, 17179869184, 0.9⟩ : Config).accessInterval.toNat =
    17179869184 := rfl
  have factor : (⟨128, 1073741825, 17179869184, 0.9⟩ : Config).factor.toNat = 1073741825 := rfl
  obtain ⟨s, hs, _⟩ : ∃ s, simulate plain ⟨128, 1073741825, 17179869184, 0.9⟩
      (sweep 449 51539607551) = some s ∧ _ :=
    simulate_sweep (by omega) (by omega) (by omega) (by omega) (by omega)
  have clock := simulate_clock (by omega) hs
  obtain ⟨d, hd, scheduled⟩ := (exact _ _ s (by rw [← sweep_succ]) hs).1
  rw [length_sweep] at clock scheduled
  have yes : d = true := (clock.due (by omega) hd).mpr ⟨1, by omega⟩
  obtain ⟨k, e⟩ := scheduled.mp yes
  rw [interval, factor] at e
  omega

end
end PromotionCache.Hawkeye
