import PromotionCache.Tlb.SetLfu

/-!
# Lines that were used equally often

Among lines of one frequency `insertLFU` puts a line in front of the others. On a hit it does so before
the frequency goes up, so that the line ends up behind the lines it has caught up with, and a decay puts
lines together that had different frequencies. As long as no hit catches up with another line, and each
decay finds the lines that it puts together in the order of their use, the lines of one frequency stand
in the order of use (`Recent`), and an insertion evicts the one that was not used for longest.
-/

namespace PromotionCache.Tlb
open Lib

namespace CacheSet

/-- Among lines of one frequency, those further back were used longer ago. -/
def Recent (line : Ptr → CacheLine) (age : Nat → Nat) (ps : List Ptr) : Prop :=
  ps.Pairwise fun a b => (line a).freq = (line b).freq → age (line b).addr < age (line a).addr

/-- An element is inserted in front of one that stays behind it. -/
lemma pairwise_orderedInsert {α : Type*} {R r : α → α → Prop} [DecidableRel r] {xs : List α} {c : α}
    (h : xs.Pairwise R) (front : ∀ x ∈ xs, ¬ r c x → R x c) (back : ∀ x ∈ xs, R c x) :
    (xs.orderedInsert r c).Pairwise R := by
  induction xs with
  | nil => exact List.pairwise_singleton _ _
  | cons x xs ih =>
    obtain ⟨hx, h⟩ := List.pairwise_cons.mp h
    obtain ⟨frontX, front⟩ := List.forall_mem_cons.mp front
    obtain ⟨backX, back⟩ := List.forall_mem_cons.mp back
    rw [List.orderedInsert_cons]
    split
    case isTrue =>
      rw [List.pairwise_cons, List.pairwise_cons]
      exact ⟨List.forall_mem_cons.mpr ⟨backX, back⟩, hx, h⟩
    case isFalse later =>
      rw [List.pairwise_cons]
      refine ⟨?_, ih h front back⟩
      intro y hy
      rcases (List.mem_orderedInsert _).mp hy with rfl | hy
      · exact frontX later
      · exact hx y hy

section
variable {s : CacheSet} {ps : List Ptr} {line line' : Ptr → CacheLine} {age age' : Nat → Nat} {c : Ptr}

/-- The line that is placed was used last, and has not caught up with a line in front of it. -/
lemma Recent.placed (recent : Recent line age ps)
    (same : ∀ p ∈ ps, (line' p).freq = (line p).freq ∧ age' (line' p).addr = age (line p).addr)
    (young : ∀ p ∈ ps, age' (line' p).addr < age' (line' c).addr)
    (alone : ∀ p ∈ ps, (line c).freq < (line p).freq → (line' p).freq ≠ (line' c).freq) :
    Recent line' age' (place 2 line c ps) := by
  apply pairwise_orderedInsert (r := fun a b => (line b).freq ≤ (line a).freq)
  · apply List.Pairwise.imp_of_mem _ recent
    intro a b ha hb h
    rw [(same a ha).1, (same b hb).1, (same a ha).2, (same b hb).2]
    exact h
  · intro p hp front e
    exact absurd e (alone p hp (Nat.lt_of_not_le front))
  · intro p hp _
    exact young p hp

/-- A decay puts the frequencies `2k` and `2k + 1` together. -/
lemma Recent.decayed (recent : Recent line age ps) (sorted : ByFreq line ps)
    (merged : ∀ a ∈ ps, ∀ b ∈ ps, (line a).freq = (line b).freq + 1 → (line b).freq % 2 = 0 →
      age (line b).addr < age (line a).addr) : Recent (decayed line ps) age ps := by
  apply List.Pairwise.imp_of_mem _ (recent.and sorted)
  intro a b ha hb ⟨recent, le⟩
  simp only [CacheSet.decayed, if_pos ha, if_pos hb]
  intro e
  by_cases same : (line a).freq = (line b).freq
  · exact recent same
  · exact merged a ha b hb (by omega) (by omega)

/-- A hit that catches up with no other line, and that finds the lines in the order of their use if it
    triggers a decay. -/
lemma Recent.hit {o : Nat} {ld : Bool} (recent : Recent s.line age ps) (sorted : ByFreq s.line ps)
    (lt : (s.line c).freq < maxFreq) (mem : c ∈ ps) (nd : ps.Nodup)
    (others : ∀ p ∈ ps, p ≠ c → age' (s.line p).addr = age (s.line p).addr)
    (young : ∀ p ∈ ps, p ≠ c → age (s.line p).addr < age' (s.line c).addr)
    (alone : ∀ p ∈ ps, (s.line p).freq ≠ (s.line c).freq + 1)
    (merged : (s.line c).freq + 1 = maxFreq → ∀ a ∈ ps, ∀ b ∈ ps, a ≠ c → b ≠ c →
      (s.line a).freq = (s.line b).freq + 1 → (s.line b).freq % 2 = 0 →
      age (s.line b).addr < age (s.line a).addr) :
    Recent (s.hitLine ps c o ld) age' (place 2 s.line c (ps.erase c)) := by
  have perm : (CacheSet.place 2 s.line c (ps.erase c)).Perm ps :=
    (place_perm _ _ _ _).trans (List.perm_cons_erase mem).symm
  have freq := touch_freq lt o ld
  have touched : ∀ p, p ≠ c → (s.touch c o ld).line p = s.line p := by
    intro p ne
    rw [touch_line, if_neg ne]
  have own : ((s.touch c o ld).line c).addr = (s.line c).addr := by
    rw [touch_line, if_pos rfl]
  have away : ∀ p ∈ ps.erase c, p ≠ c ∧ p ∈ ps := by
    intro p hp
    refine ⟨?_, List.mem_of_mem_erase hp⟩
    rintro rfl
    exact nd.not_mem_erase hp
  -- the list before a decay
  have placed : Recent (s.touch c o ld).line age' (CacheSet.place 2 s.line c (ps.erase c)) := by
    apply Recent.placed (recent.sublist List.erase_sublist)
    · intro p hp
      obtain ⟨ne, hp⟩ := away p hp
      rw [touched p ne]
      exact ⟨rfl, others p hp ne⟩
    · intro p hp
      obtain ⟨ne, hp⟩ := away p hp
      rw [touched p ne, own, others p hp ne]
      exact young p hp ne
    · intro p hp _
      obtain ⟨ne, hp⟩ := away p hp
      rw [touched p ne, freq]
      exact alone p hp
  unfold hitLine
  split
  case isFalse => exact placed
  case isTrue full =>
    rw [freq] at full
    have order : ByFreq (s.touch c o ld).line (CacheSet.place 2 s.line c (ps.erase c)) := by
      apply ByFreq.placed (sorted.sublist List.erase_sublist)
      · omega
      · omega
      · intro p hp
        rw [touched p (away p hp).1]
    rw [← decayed_perm perm]
    apply placed.decayed order
    intro a placedA b placedB e even
    have ha := perm.mem_iff.mp placedA
    have hb := perm.mem_iff.mp placedB
    by_cases ca : a = c
    · subst ca
      have cb : b ≠ a := by
        rintro rfl
        omega
      rw [touched b cb, own, others b hb cb]
      exact young b hb cb
    · by_cases cb : b = c
      · -- no frequency is above the one that triggers the decay
        subst cb
        rw [touched a ca, freq] at e
        rw [freq] at even
        exact absurd full (by simp only [maxFreq]; omega)
      · rw [touched a ca, touched b cb] at e
        rw [touched b cb] at even
        rw [touched a ca, touched b cb, others a ha ca, others b hb cb]
        exact merged full a ha b hb ca cb e even

/-- Filling the held line, which nothing has used before. -/
lemma Recent.filled {t o : Nat} {ld : Bool} (recent : Recent s.line age ps) (held : s.Held c ps)
    (others : ∀ p ∈ ps, age' (s.line p).addr = age (s.line p).addr)
    (young : ∀ p ∈ ps, age (s.line p).addr < age' t) :
    Recent (s.filled c t o ld) age' (place 2 (s.filled c t o ld) c ps) := by
  have kept : ∀ p ∈ ps, s.filled c t o ld p = s.line p := by
    intro p hp
    rw [CacheSet.filled, Function.update_of_ne (held.ne_of_mem hp)]
  have own : s.filled c t o ld c = { addr := t, offset := o, dirty := !ld, freq := 0 } := by
    rw [CacheSet.filled, Function.update_self]
  have before : Recent (s.filled c t o ld) age' ps := by
    apply List.Pairwise.imp_of_mem _ recent
    intro a b ha hb h
    rw [kept a ha, kept b hb, others a ha, others b hb]
    exact h
  apply before.placed
  · exact fun p _ => ⟨rfl, rfl⟩
  · intro p hp
    rw [kept p hp, own, others p hp]
    exact young p hp
  · intro p _ lt
    exact Nat.ne_of_gt lt

end
end CacheSet

/-- The call uses the line of tag `t`. -/
def Call.uses (t : Nat) : Call → Bool
  | .access address _ _ => address = t
  | .insert address _ _ => address = t
  | _ => false

/-- The number of the last access to or insertion of tag `t` in a history, or 0. -/
def lastUsed (calls : List Call) (t : Nat) : Nat :=
  calls.length - calls.reverse.findIdx (Call.uses t)

/-- When a tag was used last, with one more call. -/
lemma lastUsed_snoc (calls : List Call) (call : Call) (t : Nat) :
    lastUsed (calls ++ [call]) t = if call.uses t then calls.length + 1 else lastUsed calls t := by
  unfold lastUsed
  rw [List.reverse_append, List.reverse_singleton, List.singleton_append, List.findIdx_cons,
    List.length_append, List.length_singleton]
  cases call.uses t with
  | true => rfl
  | false => exact Nat.add_sub_add_right _ _ _

/-- It was not after the last call. -/
lemma lastUsed_le (calls : List Call) (t : Nat) : lastUsed calls t ≤ calls.length := Nat.sub_le _ _

/-- The next insertion that evicts takes, of the lines with the least frequency, the one whose last
    access or insertion is the oldest. -/
def EvictsOldest (calls : List Call) (m : SetState) : Prop :=
  ∀ t o ld m' out, Allowed m.set (.insert t o ld) → m.set.freeEntries = [] →
    m.step (.insert t o ld) = some (m', .inserted out) →
    ∃ v ∈ m.set.contents, out = ⟨v.dirty, int64 v.addr, v.offset⟩ ∧ ¬ m'.set.Bound v.addr ∧
      (∀ c ∈ m.set.contents, v.freq ≤ c.freq) ∧
      ∀ c ∈ m.set.contents, c ≠ v → c.freq = v.freq → lastUsed calls v.addr < lastUsed calls c.addr

/-- After the calls `calls`, the next one catches up with no other line, and if it makes the frequencies
    decay, then the lines that get the same frequency were used in the order of their frequencies. -/
def KeepsOrder (calls : List Call) (s : CacheSet) : Call → Prop
  | .access t _ _ => ∀ l ∈ s.contents, l.addr = t →
      (∀ c ∈ s.contents, c.freq ≠ l.freq + 1) ∧
      (l.freq + 1 = maxFreq → ∀ c ∈ s.contents, ∀ d ∈ s.contents, c.addr ≠ t → d.addr ≠ t →
        c.freq = d.freq + 1 → d.freq % 2 = 0 → lastUsed calls d.addr < lastUsed calls c.addr)
  | _ => True

/-- The list of a sound set, with the lines of one frequency in the order of their use. -/
structure TieSound (n : Nat) (calls : List Call) (s : CacheSet) (ps : List Ptr) : Prop
    extends LfuSound n s ps where
  recent : CacheSet.Recent s.line (lastUsed calls) ps

section
variable {n : Nat} {m m' : SetState} {ps : List Ptr} {calls : List Call}

/-- A call that uses a tag leaves the ages of the others. -/
lemma lastUsed_ne {call : Call} {t u : Nat} (uses : ∀ v, call.uses v = true → v = t) (ne : u ≠ t) :
    lastUsed (calls ++ [call]) u = lastUsed calls u := by
  rw [lastUsed_snoc, if_neg]
  exact fun used => ne (uses u used)

/-- A tag that is used now has been used last now. -/
lemma lastUsed_self {call : Call} {t : Nat} (used : call.uses t = true) :
    lastUsed (calls ++ [call]) t = calls.length + 1 := by
  rw [lastUsed_snoc, if_pos used]

/-- It was before the next call. -/
lemma lastUsed_lt (calls : List Call) (t : Nat) : lastUsed calls t < calls.length + 1 :=
  Nat.lt_succ_of_le (lastUsed_le calls t)

/-- An access uses its tag. -/
lemma uses_access {t o v : Nat} {ld : Bool} : (Call.access t o ld).uses v = true ↔ v = t :=
  decide_eq_true_iff.trans eq_comm

/-- An insertion uses its tag. -/
lemma uses_insert {t o v : Nat} {ld : Bool} : (Call.insert t o ld).uses v = true ↔ v = t :=
  decide_eq_true_iff.trans eq_comm

/-- A line that is filled with a tag no other line has is younger than they are. -/
lemma recent_inserted {s : CacheSet} {c : Ptr} {t o : Nat} {ld : Bool}
    (recent : CacheSet.Recent s.line (lastUsed calls) ps) (held : s.Held c ps)
    (other : ∀ p ∈ ps, (s.line p).addr ≠ t) :
    CacheSet.Recent (s.filled c t o ld) (lastUsed (calls ++ [.insert t o ld]))
      (CacheSet.place 2 (s.filled c t o ld) c ps) := by
  apply recent.filled held
  · exact fun p hp => lastUsed_ne (fun v => uses_insert.mp) (other p hp)
  · intro p _
    rw [lastUsed_self (uses_insert.mpr rfl)]
    exact lastUsed_lt calls _

/-- A call keeps the order of the lines if it keeps that of the lines of one frequency. -/
lemma TieSound.step {call r} (snd : TieSound n calls m.set ps) (ok : Allowed m.set call)
    (keeps : KeepsOrder calls m.set call) (st : m.step call = some (m', r)) :
    ∃ qs, TieSound n (calls ++ [call]) m'.set qs := by
  have pol : m.set.policy = 0 ∨ m.set.policy = 2 := .inr snd.pol
  obtain ⟨qs, snd'⟩ := snd.toLfuSound.step ok st
  suffices h : ∃ qs, m'.set.Wf qs ∧
      CacheSet.Recent m'.set.line (lastUsed (calls ++ [call])) qs by
    obtain ⟨qs', wf, recent⟩ := h
    cases snd'.toWf.unique wf
    exact ⟨qs, snd', recent⟩
  cases call with
  | access t o ld =>
    have uses : ∀ v, (Call.access t o ld).uses v = true → v = t := fun v => uses_access.mp
    by_cases b : m.set.Bound t
    · obtain ⟨c, h⟩ := b
      obtain ⟨mem, addr⟩ := snd.bound h
      obtain ⟨l, hacc, wf'⟩ := snd.toWf.access_hit pol h o ld
      rw [SetState.step_access hacc] at st
      cases st
      have other : ∀ p ∈ ps, p ≠ c → (m.set.line p).addr ≠ t := by
        intro p hp ne e
        exact ne (snd.toExact.addr_inj hp mem (e.trans addr.symm))
      have listed : ∀ p ∈ ps, m.set.line p ∈ m.set.contents := by
        intro p hp
        rw [snd.toWf.contents_eq]
        exact List.mem_map_of_mem hp
      obtain ⟨alone, merged⟩ := keeps _ (listed c mem) addr
      refine ⟨_, wf', ?_⟩
      rw [snd.pol]
      apply snd.recent.hit snd.sorted (snd.freq mem) mem snd.toWf.nodup_list
      · exact fun p hp ne => lastUsed_ne uses (other p hp ne)
      · intro p _ _
        rw [addr, lastUsed_self (uses_access.mpr rfl)]
        exact lastUsed_lt calls _
      · exact fun p hp => alone _ (listed p hp)
      · intro full a ha b hb na nb
        exact merged full _ (listed a ha) _ (listed b hb) (other a ha na) (other b hb nb)
    · have hacc := CacheSet.access_miss (CacheSet.not_bound.mp b) o ld
      rw [SetState.step_access hacc] at st
      cases st
      refine ⟨ps, snd.toWf.missed t, ?_⟩
      have other : ∀ p ∈ ps, (m.set.line p).addr ≠ t := by
        intro p hp e
        exact b ⟨p, e ▸ snd.complete hp⟩
      apply List.Pairwise.imp_of_mem _ snd.recent
      intro p q hp hq h
      show (m.set.line p).freq = (m.set.line q).freq → _
      rw [show ((m.set.missed t).line p) = m.set.line p from rfl,
        show ((m.set.missed t).line q) = m.set.line q from rfl,
        lastUsed_ne uses (other p hp), lastUsed_ne uses (other q hq)]
      exact h
  | insert t o ld =>
    have other : ∀ p ∈ ps, (m.set.line p).addr ≠ t := by
      intro p hp e
      exact ok ⟨p, e ▸ snd.complete hp⟩
    cases hfree : m.set.freeEntries with
    | cons c free =>
      obtain ⟨held, l, hins, wf'⟩ := snd.toWf.insert_free pol hfree t o ld m.out
      rw [SetState.step_insert hins] at st
      cases st
      refine ⟨_, wf', ?_⟩
      rw [snd.pol]
      have before : CacheSet.Recent (m.set.popped t free).line (lastUsed calls) ps := snd.recent
      exact recent_inserted before held other
    | nil =>
      rcases Nat.eq_zero_or_pos m.set.associativity with zero | pos
      · simp [SetState.step, snd.toWf.insert_empty zero] at st
      obtain ⟨qs', v, rfl⟩ := snd.toWf.exists_last hfree pos
      obtain ⟨u, held, l, hins, wf'⟩ := snd.toWf.insert_full pol hfree t o ld m.out
      rw [SetState.step_insert hins] at st
      cases st
      refine ⟨_, wf', ?_⟩
      rw [snd.pol]
      have before : CacheSet.Recent (m.set.unseated t v u).line (lastUsed calls) qs' :=
        snd.recent.sublist (List.sublist_append_left qs' [v])
      exact recent_inserted before held fun p hp => other p (List.mem_append_left _ hp)
  | evict t =>
    obtain ⟨c, h⟩ := ok
    obtain ⟨l, hev, wf'⟩ := snd.toWf.evict_bound h
    rw [SetState.step_evict hev] at st
    cases st
    refine ⟨_, wf', ?_⟩
    have same : lastUsed (calls ++ [.evict t]) = lastUsed calls := by
      funext u
      rw [lastUsed_snoc]
      rfl
    rw [same]
    exact snd.recent.sublist List.erase_sublist
  | flush =>
    obtain ⟨l, u, hfl, wf', _⟩ := snd.toWf.flush
    rw [SetState.step_flush hfl] at st
    cases st
    exact ⟨[], wf', List.Pairwise.nil⟩

/-- A full set evicts the last line of its list. -/
lemma TieSound.evictsOldest (snd : TieSound n calls m.set ps) : EvictsOldest calls m := by
  intro t o ld m' out fresh full st
  rcases Nat.eq_zero_or_pos m.set.associativity with zero | pos
  · simp [SetState.step, snd.toWf.insert_empty zero] at st
  obtain ⟨qs, v, rfl⟩ := snd.toWf.exists_last full pos
  obtain ⟨s', hins, _, _, bound, _⟩ := snd.toWf.insert_bound (.inr snd.pol) pos t o ld m.out
  rw [SetState.step_insert hins] at st
  cases st
  have victim := snd.toWf.victim_full full
  have listed := snd.toWf.contents_eq
  refine ⟨m.set.line v, ?_, ?_, ?_, ?_, ?_⟩
  · rw [listed]
    exact List.mem_map_of_mem (List.mem_append_right _ (List.mem_singleton_self v))
  · rw [CacheSet.report, victim]
  · intro held
    rcases (bound _).mp held with e | ⟨_, kept⟩
    · exact fresh ⟨v, e ▸ snd.complete (List.mem_append_right _ (List.mem_singleton_self v))⟩
    · exact kept _ victim rfl
  · rw [listed]
    intro c hc
    obtain ⟨p, hp, rfl⟩ := List.mem_map.mp hc
    rcases List.mem_append.mp hp with hp | hp
    · exact (List.pairwise_append.mp snd.sorted).2.2 p hp v (List.mem_singleton_self v)
    · rw [List.mem_singleton.mp hp]
  · rw [listed]
    intro c hc ne same
    obtain ⟨p, hp, rfl⟩ := List.mem_map.mp hc
    rcases List.mem_append.mp hp with hp | hp
    · exact (List.pairwise_append.mp snd.recent).2.2 p hp v (List.mem_singleton_self v) same
    · rw [List.mem_singleton.mp hp] at ne
      exact absurd rfl ne

/-- In every history whose calls keep the order of the lines of one frequency, an insertion that evicts
    takes, of the lines with the least frequency, the one whose last access or insertion is the
    oldest. -/
theorem evicts_oldest {lineSize : Nat} {out : Evicted} {calls : List Call} {m : SetState}
    {replies : List Reply} (h : Reaches ⟨.new n lineSize 2, out⟩ calls m replies)
    (keeps : ∀ pre call, pre ++ [call] <+: calls → ∀ m₁ rs,
      Reaches ⟨.new n lineSize 2, out⟩ pre m₁ rs → KeepsOrder pre m₁.set call) :
    EvictsOldest calls m := by
  suffices snd : ∃ ps, TieSound n calls m.set ps by
    obtain ⟨ps, snd⟩ := snd
    exact snd.evictsOldest
  induction h with
  | nil => exact ⟨[], ⟨sound_new n lineSize 2, List.Pairwise.nil⟩, List.Pairwise.nil⟩
  | @snoc calls m₁ replies call m₂ r before ok st ih =>
    obtain ⟨ps, snd⟩ := ih fun pre call' hpre =>
      keeps pre call' (hpre.trans (List.prefix_append calls [call]))
    exact snd.step ok (keeps calls call (List.prefix_refl _) m₁ replies before) st

/-- Tag 6 is accessed after tag 5, with which it catches up, and is evicted before it. -/
theorem caught_up_evicted :
    ∃ m replies, Reaches ⟨.new 2 4096 2, ⟨false, -1, 0⟩⟩
        [.insert 5 0 true, .insert 6 0 true, .access 5 0 true, .access 6 0 true] m replies ∧
      ¬ EvictsOldest [.insert 5 0 true, .insert 6 0 true, .access 5 0 true, .access 6 0 true] m := by
  set m₀ : SetState := ⟨.new 2 4096 2, ⟨false, -1, 0⟩⟩
  have run : (m₀.replay
      [.insert 5 0 true, .insert 6 0 true, .access 5 0 true, .access 6 0 true]).map
        (fun e => (e.1.set.contents, e.1.set.freeEntries, decide (e.1.set.Bound 7),
          (e.1.step (.insert 7 0 true)).map Prod.snd)) =
      some ([⟨5, 0, false, 1⟩, ⟨6, 0, false, 1⟩], [], false, some (.inserted ⟨false, 6, 0⟩)) := by
    decide +kernel
  obtain ⟨⟨m, rs⟩, run, e⟩ := Option.map_eq_some_iff.mp run
  simp only [Prod.mk.injEq, decide_eq_false_iff_not] at e
  obtain ⟨listed, full, fresh, last⟩ := e
  obtain ⟨⟨m', r⟩, st, rfl⟩ := Option.map_eq_some_iff.mp last
  refine ⟨m, rs, Reaches.nil.replay run, ?_⟩
  intro oldest
  obtain ⟨v, mem, out, _, _, ages⟩ := oldest 7 0 true m' _ fresh full st
  rw [listed] at mem ages
  rcases List.mem_cons.mp mem with rfl | mem
  · cases out
  · obtain rfl := List.mem_singleton.mp mem
    have older := ages _ List.mem_cons_self (by decide) rfl
    revert older
    decide

/-- Tag 5 is accessed alone, so that tag 6 is the one to make room. -/
theorem evicts_oldest_one :
    ∃ m replies, Reaches ⟨.new 2 4096 2, ⟨false, -1, 0⟩⟩
        [.insert 5 0 true, .insert 6 0 true, .access 5 0 true] m replies ∧
      EvictsOldest [.insert 5 0 true, .insert 6 0 true, .access 5 0 true] m := by
  set m₀ : SetState := ⟨.new 2 4096 2, ⟨false, -1, 0⟩⟩ with hm₀
  have run : (m₀.replay [.insert 5 0 true, .insert 6 0 true, .access 5 0 true]).isSome = true := by
    decide +kernel
  have two : (m₀.replay [.insert 5 0 true, .insert 6 0 true]).map (fun e => e.1.set.contents) =
      some [⟨6, 0, false, 0⟩, ⟨5, 0, false, 0⟩] := by decide +kernel
  obtain ⟨⟨m, rs⟩, run⟩ := Option.isSome_iff_exists.mp run
  have h := Reaches.nil.replay run
  refine ⟨m, rs, h, evicts_oldest h ?_⟩
  intro pre call hpre m₁ rs₁ before
  -- the only access is the last call
  obtain ⟨rest, e⟩ := hpre
  rcases pre with - | ⟨x, - | ⟨y, - | ⟨z, pre⟩⟩⟩
  · obtain ⟨rfl, _⟩ := List.cons.inj e
    exact True.intro
  · obtain ⟨_, e₁⟩ := List.cons.inj e
    obtain ⟨rfl, _⟩ := List.cons.inj e₁
    exact True.intro
  · obtain ⟨rfl, e₁⟩ := List.cons.inj e
    obtain ⟨rfl, e₂⟩ := List.cons.inj e₁
    obtain ⟨rfl, _⟩ := List.cons.inj e₂
    rw [before.replay_eq] at two
    have listed : m₁.set.contents = [⟨6, 0, false, 0⟩, ⟨5, 0, false, 0⟩] := Option.some.inj two
    intro l mem addr
    rw [listed] at mem ⊢
    rcases List.mem_cons.mp mem with rfl | mem
    · cases addr
    · obtain rfl := List.mem_singleton.mp mem
      exact ⟨by decide, fun decay => by cases decay⟩
  · have len := congrArg List.length e
    simp at len

end
end PromotionCache.Tlb
