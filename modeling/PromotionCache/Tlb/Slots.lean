import PromotionCache.Lib.Run
import PromotionCache.Tlb.SetRun

/-!
# The lines of a set

Every line of a set is in the recency list or on the free stack, for all policies and also where a resident tag is
inserted again. The exception is a hit with policy 1: it takes the accessed line out of the list, and puts it back
only if the line was used often enough, which no line is at its first hit. So the lines are kept in a run if and
only if the policy is another one, or nothing hits (`conserves_iff`).
-/

namespace PromotionCache.Tlb
open Lib CacheSet

namespace CacheSet

/-- Every line is in exactly one of the recency list and the free stack. -/
def Conserved (s : CacheSet) : Prop :=
  ∃ ps, s.recency = some ps ∧ (ps ++ s.freeEntries).Perm (slots s.associativity)

section
variable {s s' : CacheSet} {ps qs : List Ptr} {c : Ptr} {t o : Nat} {ld : Bool}

/-- A well-formed set has its slots. -/
lemma Wf.conserved (wf : s.Wf ps) : s.Conserved := ⟨ps, wf.recency, wf.slots⟩

/-- The loop of `insertHalf` ends at the line it counts to, or at the end of the list. -/
lemma halfway_eq (th : s.links.Thread (ps ++ [.tail])) (idx : Nat) :
    s.halfway idx ((ps ++ [Ptr.tail]).head (by simp)) = some ((ps.drop idx ++ [Ptr.tail]).head (by simp)) := by
  induction idx generalizing ps with
  | zero => rfl
  | succ idx ih =>
    cases ps with
    | nil => rfl
    | cons p ps =>
      have inner : p ≠ .tail := by
        rintro rfl
        have nd := th.nodup
        simp at nd
      have next : s.links.next p = some ((ps ++ [Ptr.tail]).head (by simp)) := th.next_head (by simp)
      simp only [List.cons_append, List.head_cons, halfway, if_neg inner, next, Option.bind_eq_bind,
        Option.bind_some, List.drop_succ_cons]
      exact ih (Links.Thread.tail th)

/-- `insertHalf` puts a line somewhere into the list. -/
lemma insertHalf_spec (th : s.links.Thread (.head :: (ps ++ [.tail]))) (fresh : c ∉ Ptr.head :: (ps ++ [.tail])) :
    ∃ l qs, s.insertHalf c = some { s with links := l } ∧ l.Thread (.head :: (qs ++ [.tail])) ∧
      qs.Perm (c :: ps) := by
  set stop := if s.associativity - s.freeEntries.length = s.associativity then s.associativity / 2
    else (s.associativity - s.freeEntries.length) / 2 with hstop
  have first : s.links.next .head = some ((ps ++ [Ptr.tail]).head (by simp)) := th.next_head (by simp)
  have found := halfway_eq (Links.Thread.tail th) stop
  obtain ⟨b, ys, hys⟩ : ∃ b ys, ps.drop stop ++ [Ptr.tail] = b :: ys := by
    cases ps.drop stop <;> simp
  have split : Ptr.head :: (ps ++ [.tail]) = (.head :: ps.take stop) ++ b :: ys := by
    rw [← hys, List.cons_append, ← List.append_assoc, List.take_append_drop]
  rw [split] at th fresh
  obtain ⟨l, hl, thl⟩ := th.linkBefore (by simp) fresh
  refine ⟨l, ps.take stop ++ c :: ps.drop stop, ?_, ?_, ?_⟩
  · simp only [hys, List.head_cons] at found
    simp only [insertHalf, first, Option.bind_eq_bind, Option.bind_some, ← hstop, found, hl]
  · rw [← hys] at thl
    simpa using thl
  · have middle : (ps.take stop ++ c :: ps.drop stop).Perm (c :: (ps.take stop ++ ps.drop stop)) := List.perm_middle
    rwa [List.take_append_drop] at middle

/-- The second half of `insert`, for every policy. -/
lemma Held.exists_fillLine (held : s.Held c ps) (pol : s.policy ≤ 2) (t o : Nat) (ld : Bool) :
    ∃ l qs, s.fillLine c t o ld = some (s.stored c t o ld l) ∧ (s.stored c t o ld l).Wf qs ∧
      qs.Perm (c :: ps) := by
  by_cases half : s.policy = 1
  · obtain ⟨l, qs, hins, th, perm⟩ := insertHalf_spec
      (s := { s with line := s.filled c t o ld, addrMap := s.addrMap.set t (some c) }) held.thread held.fresh
    refine ⟨l, qs, ?_, held.wf_stored th perm t o ld, perm⟩
    have other : s.policy ≠ 0 := by omega
    unfold CacheSet.fillLine
    exact (if_neg other).trans ((if_pos half).trans hins)
  · obtain ⟨l, hfill, wf⟩ := held.fillLine (by omega) t o ld
    exact ⟨l, _, hfill, wf, place_perm _ _ _ _⟩

/-- No line of the list was used since it was inserted. -/
def Unused (s : CacheSet) (ps : List Ptr) : Prop := ∀ c ∈ ps, (s.line c).freq = 0

/-- An inserted line was not used yet. -/
lemma Unused.stored {l : Links Ptr} (unused : s.Unused ps) (perm : qs.Perm (c :: ps)) (t o : Nat) (ld : Bool) :
    (s.stored c t o ld l).Unused qs := by
  intro d mem
  show (s.filled c t o ld d).freq = 0
  by_cases e : d = c
  · simp [filled, e]
  · rw [filled, Function.update_of_ne e]
    exact unused d ((List.mem_cons.mp (perm.mem_iff.mp mem)).resolve_left e)

/-- An insertion keeps every line, also that of a resident tag. -/
lemma Wf.exists_insert (wf : s.Wf ps) (pol : s.policy ≤ 2) (pos : 1 ≤ s.associativity) (t o : Nat) (ld : Bool)
    (out : Evicted) : ∃ s' out' qs, s.insert t o ld out = some (s', out') ∧ s'.Wf qs ∧
      s'.associativity = s.associativity ∧ s'.policy = s.policy ∧ (s.Unused ps → s'.Unused qs) := by
  have bind : s.insert t o ld out = ((s.missed t).takeLine out).bind fun r =>
      (r.2.1.fillLine r.1 t o ld).bind fun s' => some (s', r.2.2) := rfl
  cases free : s.freeEntries with
  | nil =>
    obtain ⟨ps, v, rfl⟩ := wf.exists_last free pos
    obtain ⟨m, htake, held⟩ := (wf.missed t).takeLine_full free out
    obtain ⟨l, qs, hfill, wf', perm⟩ := held.exists_fillLine pol t o ld
    refine ⟨_, ⟨(s.line v).dirty, int64 (s.line v).addr, (s.line v).offset⟩, qs, ?_, wf', rfl, rfl, ?_⟩
    · rw [bind, htake, Option.bind_some, hfill]
      rfl
    · intro unused
      exact Unused.stored (l := l) (fun c mem => unused c (List.mem_append_left _ mem)) perm t o ld
  | cons c free' =>
    obtain ⟨htake, held⟩ := (wf.missed t).takeLine_free free out
    obtain ⟨l, qs, hfill, wf', perm⟩ := held.exists_fillLine pol t o ld
    refine ⟨_, out, qs, ?_, wf', rfl, rfl, ?_⟩
    · rw [bind, htake, Option.bind_some, hfill]
      rfl
    · intro unused
      exact Unused.stored (l := l) unused perm t o ld

/-- With policy 1 the first hit of a line takes it out of the list for good. -/
lemma Wf.hit_lost (wf : s.Wf ps) (pol : s.policy = 1) (two : 2 ≤ s.associativity)
    (h : s.addrMap.find t = some (some c)) (unused : (s.line c).freq = 0) (o : Nat) (ld : Bool) :
    ∃ s', s.access t o ld = some (true, s') ∧ ¬ s'.Conserved := by
  obtain ⟨mem, _⟩ := wf.bound h
  obtain ⟨l, hdel, th⟩ := deleteNode_spec wf.thread mem
  have seldom : ¬ s.associativity / 2 ≤ (s.line c).freq := by omega
  have lost : ({ s with links := l } : CacheSet).reinsert c = some { s with links := l } := by
    have other : s.policy ≠ 0 := by omega
    exact (if_neg other).trans ((if_pos pol).trans (if_neg seldom))
  set s' := ({ s with links := l } : CacheSet).touch c o ld with hs'
  have once : (s'.line c).freq ≠ maxFreq := by
    rw [hs', touch_line, if_pos rfl]
    dsimp only
    rw [unused]
    decide
  refine ⟨s', ?_, ?_⟩
  · simp only [access, lookup_bound h, hdel, lost, Option.bind_eq_bind, Option.bind_some, ← hs', if_neg once]
  · rintro ⟨qs, hrec, perm⟩
    have len := wf.length
    have shorter := List.length_erase_of_mem mem
    have some := List.length_pos_of_mem mem
    have rest : s'.recency = Option.some (ps.erase c) := by
      refine recency_of_thread th ?_
      show (ps.erase c).length ≤ s.associativity
      omega
    obtain rfl := Option.some.inj (hrec.symm.trans rest)
    have count := perm.length_eq
    simp only [List.length_append, Tlb.slots, List.length_map, List.length_range] at count
    have same : s'.freeEntries.length = s.freeEntries.length := rfl
    have assoc : s'.associativity = s.associativity := rfl
    omega

end
end CacheSet

/-- The set after a call. -/
def SetState.next (m : SetState) (call : Call) : Option SetState := (m.step call).map Prod.fst

/-- Only resident tags are evicted. -/
def Permits (m₀ : SetState) (calls : List Call) : Prop :=
  ∀ {pre t m}, pre ++ [.evict t] <+: calls → run SetState.next m₀ pre = some m → m.set.Bound t

/-- A lookup of a resident tag. -/
def Hits (m : SetState) : Call → Prop
  | .access t _ _ => m.set.Bound t
  | _ => False

/-- The program goes through the calls; every line stays in exactly one of the recency list and the free stack,
    and a line that is hit stays in the recency list. -/
structure Conserves (m₀ : SetState) (calls : List Call) : Prop where
  slots : ∀ {pre}, pre <+: calls → ∃ m, run SetState.next m₀ pre = some m ∧ m.set.Conserved
  hit : ∀ {pre t o ld m m' c}, pre ++ [.access t o ld] <+: calls → run SetState.next m₀ pre = some m →
    (m.set.lookup t).1 = some c → m.next (.access t o ld) = some m' → ∃ ps, m'.set.recency = some ps ∧ c ∈ ps

/-- What the calls keep of a set, as long as nothing hits with policy 1. -/
structure Kept (n policy : Nat) (s : CacheSet) (ps : List Ptr) : Prop extends s.Wf ps where
  assoc : s.associativity = n
  pol : s.policy = policy

section
variable {n policy : Nat} {m m' : SetState} {ps : List Ptr} {call : Call} {t o : Nat} {ld : Bool}

/-- A call keeps the lines, if it is no hit with policy 1. -/
lemma Kept.step (kept : Kept n policy m.set ps) (call : Call) (pos : 1 ≤ n) (le : policy ≤ 2)
    (permitted : ∀ t, call = .evict t → m.set.Bound t) (miss : policy = 1 → ¬ Hits m call) :
    ∃ m' qs, m.next call = some m' ∧ Kept n policy m'.set qs ∧
      (∀ t o ld c, call = .access t o ld → (m.set.lookup t).1 = some c → c ∈ qs) ∧
      (policy = 1 → m.set.Unused ps → m'.set.Unused qs) := by
  cases call with
  | access t o ld =>
    by_cases held : m.set.Bound t
    · have other : policy ≠ 1 := fun half => miss half held
      obtain ⟨c, hc⟩ := held
      have pol : m.set.policy = 0 ∨ m.set.policy = 2 := by
        rw [kept.pol]
        omega
      obtain ⟨l, hacc, wf⟩ := kept.access_hit pol hc o ld
      have perm := place_perm m.set.policy m.set.line c (ps.erase c)
      refine ⟨⟨m.set.hit ps c o ld l, m.out⟩, _, ?_, ⟨wf, kept.assoc, kept.pol⟩, ?_, fun half => absurd half other⟩
      · rw [SetState.next, SetState.step_access hacc]
        rfl
      · rintro _ _ _ d ⟨⟩ hd
        rw [lookup_bound hc] at hd
        obtain rfl := Option.some.inj hd
        exact perm.mem_iff.mpr List.mem_cons_self
    · have unbound := not_bound.mp held
      refine ⟨⟨m.set.missed t, m.out⟩, ps, ?_, ⟨kept.missed t, kept.assoc, kept.pol⟩, ?_, fun _ unused => unused⟩
      · rw [SetState.next, SetState.step_access (access_miss unbound o ld)]
        rfl
      · rintro _ _ _ d ⟨⟩ hd
        rw [lookup_unbound unbound] at hd
        cases hd
  | insert t o ld =>
    obtain ⟨s', out', qs, hins, wf, assoc, pol, unused⟩ := kept.exists_insert (by rw [kept.pol]; exact le)
      (by rw [kept.assoc]; exact pos) t o ld m.out
    refine ⟨⟨s', out'⟩, qs, ?_, ⟨wf, assoc.trans kept.assoc, pol.trans kept.pol⟩, nofun, fun _ => unused⟩
    rw [SetState.next, SetState.step_insert hins]
    rfl
  | evict t =>
    obtain ⟨c, hc⟩ := permitted t rfl
    obtain ⟨l, hev, wf⟩ := kept.evict_bound hc
    refine ⟨⟨m.set.evicted c t l, m.out⟩, _, ?_, ⟨wf, kept.assoc, kept.pol⟩, nofun, ?_⟩
    · rw [SetState.next, SetState.step_evict hev]
      rfl
    · exact fun _ unused d mem => unused d (List.mem_of_mem_erase mem)
  | flush =>
    obtain ⟨l, map, hfl, wf, _⟩ := kept.flush
    refine ⟨⟨m.set.flushed ps l map, m.out⟩, [], ?_, ⟨wf, kept.assoc, kept.pol⟩, nofun, nofun⟩
    rw [SetState.next, SetState.step_flush hfl]
    rfl

/-- With policy 1 a call after which the lines are still there was no hit, if no line was used before. -/
lemma Kept.not_hits (kept : Kept n policy m.set ps) (two : 2 ≤ n) (half : policy = 1) (unused : m.set.Unused ps)
    (h : m.next call = some m') (conserved : m'.set.Conserved) : ¬ Hits m call := by
  cases call with
  | access t o ld =>
    rintro ⟨c, hc⟩
    obtain ⟨s', hacc, lost⟩ := kept.hit_lost (kept.pol.trans half) (by rw [kept.assoc]; exact two) hc
      (unused c (kept.bound hc).1) o ld
    rw [SetState.next, SetState.step_access hacc] at h
    obtain rfl := Option.some.inj h
    exact lost conserved
  | insert | evict | flush => exact id

/-- So has a new set. -/
lemma kept_new (n lineSize policy : Nat) : Kept n policy (.new n lineSize policy) [] where
  toWf := wf_new n lineSize policy
  assoc := rfl
  pol := rfl

end

section
variable {n lineSize policy : Nat} {out : Evicted} {calls pre : List Call}

/-- What is permitted of a run is permitted of its beginnings. -/
lemma Permits.of_prefix {m₀ : SetState} (permits : Permits m₀ calls) (le : pre <+: calls) : Permits m₀ pre :=
  fun pre' => permits (pre'.trans le)

/-- A run without hits, as far as the policy is 1. -/
lemma kept_run (pos : 1 ≤ n) (le : policy ≤ 2) (permits : Permits ⟨.new n lineSize policy, out⟩ calls)
    (miss : policy = 1 → ∀ {pre call m ps}, pre ++ [call] <+: calls →
      run SetState.next ⟨.new n lineSize policy, out⟩ pre = some m → Kept n policy m.set ps →
        m.set.Unused ps → ¬ Hits m call) :
    ∃ m, run SetState.next ⟨.new n lineSize policy, out⟩ calls = some m ∧
      ∃ ps, Kept n policy m.set ps ∧ (policy = 1 → m.set.Unused ps) := by
  have start : (CacheSet.new n lineSize policy).Unused [] := fun c mem => absurd mem List.not_mem_nil
  refine run_total
    (fun (_ : List Call) (m : SetState) => ∃ ps, Kept n policy m.set ps ∧ (policy = 1 → m.set.Unused ps))
    ⟨[], kept_new n lineSize policy, fun _ => start⟩ ?_
  rintro pre call more m hrun ⟨ps, kept, unused⟩
  obtain ⟨m', qs, hstep, kept', _, unused'⟩ := kept.step call pos le
    (fun t e => permits (e ▸ more) hrun) (fun half => miss half more hrun kept (unused half))
  exact ⟨m', hstep, qs, kept', fun half => unused' half (unused half)⟩

/-- From the constructor on, for every associativity from 2 on and every policy, each line is in exactly one of the
    recency list and the free stack at all times and no hit takes the accessed line out of the list, if and only if
    the policy is not 1 or no call hits. -/
theorem conserves_iff (two : 2 ≤ n) (le : policy ≤ 2) (permits : Permits ⟨.new n lineSize policy, out⟩ calls) :
    Conserves ⟨.new n lineSize policy, out⟩ calls ↔
      policy ≠ 1 ∨ ∀ {pre call m}, pre ++ [call] <+: calls →
        run SetState.next ⟨.new n lineSize policy, out⟩ pre = some m → ¬ Hits m call := by
  have pos : 1 ≤ n := by omega
  constructor
  · intro conserves
    refine or_iff_not_imp_left.mpr fun half => ?_
    have half : policy = 1 := not_not.mp half
    have missed : ∀ {pre call m ps}, pre ++ [call] <+: calls →
        run SetState.next ⟨.new n lineSize policy, out⟩ pre = some m → Kept n policy m.set ps →
          m.set.Unused ps → ¬ Hits m call := by
      intro pre call m ps more hrun kept unused
      obtain ⟨m', hrun', conserved⟩ := conserves.slots more
      obtain ⟨m₁, hrun₁, hstep⟩ := run_snoc.mp hrun'
      obtain rfl := Option.some.inj (hrun.symm.trans hrun₁)
      exact kept.not_hits two half unused hstep conserved
    intro pre call m more hrun
    have earlier : pre <+: calls := (List.prefix_append pre [call]).trans more
    obtain ⟨m₁, hrun₁, ps, kept, unused⟩ := kept_run pos le (permits.of_prefix earlier)
      (fun _ _ _ _ _ more => missed (more.trans earlier))
    obtain rfl := Option.some.inj (hrun.symm.trans hrun₁)
    exact missed more hrun kept (unused half)
  · intro noHit
    have kept : ∀ {pre}, pre <+: calls → ∃ m, run SetState.next ⟨.new n lineSize policy, out⟩ pre = some m ∧
        ∃ ps, Kept n policy m.set ps ∧ (policy = 1 → m.set.Unused ps) := by
      intro pre earlier
      refine kept_run pos le (permits.of_prefix earlier) ?_
      intro half pre' call m ps more hrun _ _
      exact (noHit.resolve_left (not_not.mpr half)) (more.trans earlier) hrun
    constructor
    case slots =>
      intro pre earlier
      obtain ⟨m, hrun, ps, kept, _⟩ := kept earlier
      exact ⟨m, hrun, kept.conserved⟩
    case hit =>
      intro pre t o ld m m' c more hrun found hstep
      obtain ⟨m₁, hrun₁, ps, kept, _⟩ := kept ((List.prefix_append pre _).trans more)
      obtain rfl := Option.some.inj (hrun.symm.trans hrun₁)
      obtain ⟨m₂, qs, hstep₂, kept', hit, _⟩ := kept.step (.access t o ld) pos le nofun
        (fun half => (noHit.resolve_left (not_not.mpr half)) more hrun)
      obtain rfl := Option.some.inj (hstep.symm.trans hstep₂)
      exact ⟨qs, kept'.recency, hit t o ld c rfl found⟩

end

/-- A set of two lines with policy 2, in which a tag is used, inserted again and evicted. -/
theorem conserves_iff_lfu :
    Conserves ⟨.new 2 64 2, ⟨false, 0, 0⟩⟩ [.insert 5 0 true, .access 5 8 false, .insert 5 0 true, .evict 5] := by
  refine (conserves_iff (by decide) (by decide) ?_).mpr (.inl (by decide))
  intro pre t m more hrun
  have whole : pre ++ [.evict t] = [.insert 5 0 true, .access 5 8 false, .insert 5 0 true] ++ [.evict 5] := by
    change _ <+: [.insert 5 0 true, .access 5 8 false, .insert 5 0 true] ++ [Call.evict 5] at more
    rcases List.prefix_concat_iff.mp more with whole | earlier
    · exact whole
    · have mem : Call.evict t ∈ [Call.insert 5 0 true, .access 5 8 false, .insert 5 0 true] :=
        earlier.subset (List.mem_append_right _ (List.mem_singleton_self _))
      simp at mem
  obtain ⟨rfl, last⟩ := List.append_inj' whole rfl
  obtain rfl : t = 5 := Call.evict.inj (List.singleton_injective last)
  have resident : (run SetState.next ⟨.new 2 64 2, ⟨false, 0, 0⟩⟩
      [.insert 5 0 true, .access 5 8 false, .insert 5 0 true]).all fun m => decide (m.set.Bound 5) := by decide
  rw [hrun] at resident
  exact of_decide_eq_true resident

/-- A set of two lines with policy 1, in which a tag is inserted and used: its line is nowhere. -/
theorem halfway_not_conserves :
    Permits ⟨.new 2 64 1, ⟨false, 0, 0⟩⟩ [.insert 5 0 true, .access 5 0 true] ∧
      ¬ Conserves ⟨.new 2 64 1, ⟨false, 0, 0⟩⟩ [.insert 5 0 true, .access 5 0 true] := by
  constructor
  · intro pre t m more _
    have mem := more.subset (List.mem_append_right pre (List.mem_singleton_self (Call.evict t)))
    simp at mem
  · intro conserves
    obtain ⟨m, hrun, ps, hrec, perm⟩ := conserves.slots (List.prefix_refl _)
    have left : (run SetState.next ⟨.new 2 64 1, ⟨false, 0, 0⟩⟩ [.insert 5 0 true, .access 5 0 true]).map
        (fun m => (m.set.recency, m.set.freeEntries, m.set.associativity)) = some (some [], [.entry 0], 2) := by
      decide
    rw [hrun, Option.map_some, hrec] at left
    simp only [Option.some.injEq, Prod.mk.injEq] at left
    obtain ⟨rfl, free, assoc⟩ := left
    rw [free, assoc] at perm
    exact absurd perm.length_eq (by decide)

end PromotionCache.Tlb
