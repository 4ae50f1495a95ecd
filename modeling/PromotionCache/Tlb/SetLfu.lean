import PromotionCache.Tlb.SetRun

/-!
# Policy 2 is a queue by frequency

`insertLFU` places a line by its frequency. On a hit the frequency is incremented only afterwards,
and a decay may then halve all frequencies, so that the order has to survive both (`ByFreq.placed`,
`ByFreq.decayed`). From there every operation keeps the list in the order of frequency.
-/

namespace PromotionCache.Tlb
open Lib

namespace CacheSet

/-- Non-increasing frequency from head to tail. -/
def ByFreq (line : Ptr → CacheLine) (ps : List Ptr) : Prop :=
  ps.Pairwise fun a b => (line b).freq ≤ (line a).freq

section
variable {s : CacheSet} {ps : List Ptr}

/-- `insertLFU` leaves the lines in front strictly more frequent, so the placed line may gain one
    access afterwards. -/
lemma ByFreq.placed {line line' : Ptr → CacheLine} {c : Ptr} (sorted : ByFreq line ps)
    (lo : (line c).freq ≤ (line' c).freq) (hi : (line' c).freq ≤ (line c).freq + 1)
    (others : ∀ p ∈ ps, (line' p).freq = (line p).freq) :
    ByFreq line' (place 2 line c ps) := by
  have e : ∀ ps, CacheSet.place 2 line c ps =
      ps.orderedInsert (fun a b => (line b).freq ≤ (line a).freq) c := fun _ => rfl
  rw [e]
  unfold ByFreq at *
  induction ps with
  | nil => simp
  | cons p ps ih =>
    obtain ⟨le, sorted⟩ := List.pairwise_cons.mp sorted
    have hp := others p List.mem_cons_self
    have hps : ∀ q ∈ ps, (line' q).freq = (line q).freq := fun q hq =>
      others q (List.mem_cons_of_mem _ hq)
    rw [List.orderedInsert_cons]
    split
    case isTrue first =>
      rw [List.pairwise_cons, List.pairwise_cons]
      refine ⟨?_, ?_, ?_⟩
      · intro q hq
        rcases List.mem_cons.mp hq with rfl | hq
        · omega
        · have := le q hq
          have := hps q hq
          omega
      · intro q hq
        have := le q hq
        have := hps q hq
        omega
      · apply sorted.imp_of_mem
        intro a b ha hb h
        rw [hps a ha, hps b hb]
        exact h
    case isFalse later =>
      rw [List.pairwise_cons]
      refine ⟨?_, ih sorted hps⟩
      intro q hq
      rcases (List.mem_orderedInsert _).mp hq with rfl | hq
      · -- the placed line: `p` was strictly more frequent
        omega
      · have := le q hq
        have := hps q hq
        omega

/-- Lines that are sorted by frequency stay so when they decay. -/
lemma ByFreq.decayed {line : Ptr → CacheLine} (sorted : ByFreq line ps) :
    ByFreq (decayed line ps) ps := by
  apply List.Pairwise.imp_of_mem _ sorted
  intro a b ha hb h
  simp only [CacheSet.decayed, if_pos ha, if_pos hb]
  exact Nat.div_le_div_right h

/-- A hit keeps the order. -/
lemma ByFreq.hit {c : Ptr} (sorted : ByFreq s.line ps) (lt : (s.line c).freq < maxFreq)
    (mem : c ∈ ps) (nd : ps.Nodup) (o : Nat) (ld : Bool) :
    ByFreq (s.hitLine ps c o ld) (place 2 s.line c (ps.erase c)) := by
  have perm : (CacheSet.place 2 s.line c (ps.erase c)).Perm ps :=
    (place_perm _ _ _ _).trans (List.perm_cons_erase mem).symm
  have hc := touch_freq lt o ld
  have placed : ByFreq (s.touch c o ld).line (CacheSet.place 2 s.line c (ps.erase c)) := by
    apply ByFreq.placed (sorted.sublist List.erase_sublist)
    · omega
    · omega
    · intro p hp
      have ne : p ≠ c := by
        rintro rfl
        exact nd.not_mem_erase hp
      rw [touch_line, if_neg ne]
  unfold hitLine
  split
  · rw [← decayed_perm perm]
    exact placed.decayed
  · exact placed

/-- Filling the held line keeps the order. -/
lemma ByFreq.filled {c : Ptr} (held : s.Held c ps) (sorted : ByFreq s.line ps) (t o : Nat)
    (ld : Bool) : ByFreq (s.filled c t o ld) (place 2 (s.filled c t o ld) c ps) := by
  apply ByFreq.placed _ (Nat.le_refl _) (Nat.le_succ _)
  · intro p _
    rfl
  · apply List.Pairwise.imp_of_mem _ sorted
    intro a b ha hb h
    simp only [CacheSet.filled, Function.update_of_ne (held.ne_of_mem ha),
      Function.update_of_ne (held.ne_of_mem hb)]
    exact h

end
end CacheSet

/-- A sound set with policy 2 whose list is in the order of frequency. -/
structure LfuSound (n : Nat) (s : CacheSet) (ps : List Ptr) : Prop extends Sound n 2 s ps where
  sorted : CacheSet.ByFreq s.line ps

section
variable {n : Nat} {m m' : SetState} {ps : List Ptr}

/-- A call keeps the order of the list. -/
lemma LfuSound.step {call r} (snd : LfuSound n m.set ps) (ok : Allowed m.set call)
    (st : m.step call = some (m', r)) : ∃ qs, LfuSound n m'.set qs := by
  have pol : m.set.policy = 0 ∨ m.set.policy = 2 := .inr snd.pol
  obtain ⟨qs, snd'⟩ := snd.toSound.step (.inr rfl) ok st
  suffices h : ∃ qs, m'.set.Wf qs ∧ CacheSet.ByFreq m'.set.line qs by
    obtain ⟨qs', wf, sorted⟩ := h
    cases snd'.toWf.unique wf
    exact ⟨qs, snd', sorted⟩
  cases call with
  | access t o ld =>
    by_cases b : m.set.Bound t
    · obtain ⟨c, h⟩ := b
      obtain ⟨mem, _⟩ := snd.bound h
      obtain ⟨l, hacc, wf'⟩ := snd.toWf.access_hit pol h o ld
      rw [SetState.step_access hacc] at st
      cases st
      have sorted := snd.sorted.hit (snd.freq mem) mem snd.toWf.nodup_list o ld
      rw [← snd.pol] at sorted
      exact ⟨_, wf', sorted⟩
    · have hacc := CacheSet.access_miss (CacheSet.not_bound.mp b) o ld
      rw [SetState.step_access hacc] at st
      cases st
      exact ⟨ps, snd.toWf.missed t, snd.sorted⟩
  | insert t o ld =>
    cases hfree : m.set.freeEntries with
    | cons c free =>
      obtain ⟨held, l, hins, wf'⟩ := snd.toWf.insert_free pol hfree t o ld m.out
      rw [SetState.step_insert hins] at st
      cases st
      have sorted := CacheSet.ByFreq.filled held snd.sorted t o ld
      rw [← snd.pol] at sorted
      exact ⟨_, wf', sorted⟩
    | nil =>
      rcases Nat.eq_zero_or_pos m.set.associativity with zero | pos
      · simp [SetState.step, snd.toWf.insert_empty zero] at st
      obtain ⟨qs', v, rfl⟩ := snd.toWf.exists_last hfree pos
      obtain ⟨u, held, l, hins, wf'⟩ := snd.toWf.insert_full pol hfree t o ld m.out
      rw [SetState.step_insert hins] at st
      cases st
      have rest : CacheSet.ByFreq m.set.line qs' :=
        snd.sorted.sublist (List.sublist_append_left qs' [v])
      have sorted := CacheSet.ByFreq.filled held rest t o ld
      rw [← snd.pol] at sorted
      exact ⟨_, wf', sorted⟩
  | evict t =>
    obtain ⟨c, h⟩ := ok
    obtain ⟨l, hev, wf'⟩ := snd.toWf.evict_bound h
    rw [SetState.step_evict hev] at st
    cases st
    exact ⟨_, wf', snd.sorted.sublist List.erase_sublist⟩
  | flush =>
    obtain ⟨l, u, hfl, wf', _⟩ := snd.toWf.flush
    rw [SetState.step_flush hfl] at st
    cases st
    exact ⟨[], wf', List.Pairwise.nil⟩

/-- Every call keeps the lines sorted. -/
lemma Reaches.lfu {lineSize calls m replies} {out : Evicted}
    (h : Reaches ⟨.new n lineSize 2, out⟩ calls m replies) : ∃ ps, LfuSound n m.set ps := by
  induction h with
  | nil => exact ⟨[], sound_new n lineSize 2, List.Pairwise.nil⟩
  | snoc _ ok st ih =>
    obtain ⟨ps, snd⟩ := ih
    exact snd.step ok st

/-- A queue by frequency: the list is in the order of the counters, which stay below the maximum,
    and `get_set` and `get_freq` report that list with these counters. -/
structure CacheSet.LfuQueue (s : CacheSet) : Prop where
  sorted : s.contents.Pairwise fun a b => b.freq ≤ a.freq
  bounded : ∀ c ∈ s.contents, c.freq ≤ 254
  listed : s.getSet = some (s.contents.map CacheLine.addr)
  counted : ∀ c ∈ s.contents, s.getFreq c.addr = some c.freq

/-- The set is a queue by frequency then. -/
lemma LfuSound.queue (snd : LfuSound n m.set ps) : m.set.LfuQueue := by
  constructor
  case sorted =>
    rw [snd.toWf.contents_eq, List.pairwise_map]
    exact snd.sorted
  case bounded =>
    rw [snd.toWf.contents_eq]
    intro c hc
    obtain ⟨p, hp, rfl⟩ := List.mem_map.mp hc
    exact Nat.le_of_lt_succ (snd.freq hp)
  case listed =>
    rw [snd.toWf.getSet, snd.toWf.contents_eq, List.map_map]
    rfl
  case counted =>
    rw [snd.toWf.contents_eq]
    intro c hc
    obtain ⟨p, hp, rfl⟩ := List.mem_map.mp hc
    exact snd.toWf.getFreq_bound (snd.complete hp)

/-- An insertion into a set with room evicts nothing, one into a full set a line with the least
    counter. -/
lemma LfuSound.insert {t o ld r} (snd : LfuSound n m.set ps)
    (st : m.step (.insert t o ld) = some (m', r)) :
    if m.set.contents.length < n then
      r = .inserted m.out ∧ m'.set.tags.Perm (t :: m.set.tags)
    else
      ∃ cs v, m.set.contents = cs ++ [v] ∧
        r = .inserted ⟨v.dirty, int64 v.addr, v.offset⟩ ∧
        m'.set.tags.Perm (t :: cs.map CacheLine.addr) ∧
        ∀ c ∈ m.set.contents, v.freq ≤ c.freq := by
  have len := snd.toWf.length
  rw [snd.assoc] at len
  have clen : m.set.contents.length = ps.length := by
    rw [snd.toWf.contents_eq, List.length_map]
  rcases Nat.eq_zero_or_pos m.set.associativity with zero | pos
  · simp [SetState.step, snd.toWf.insert_empty zero] at st
  obtain ⟨s', hins, _, _, _, _, _, perm, _⟩ := snd.toWf.insert_bound (.inr snd.pol) pos t o ld m.out
  rw [SetState.step_insert hins] at st
  cases st
  cases hfree : m.set.freeEntries with
  | cons c free =>
    rw [hfree, List.length_cons] at len
    rw [if_pos (by omega)]
    rw [CacheSet.kept, if_neg (by simp [hfree])] at perm
    exact ⟨by simp [CacheSet.report, CacheSet.Wf.victim_free hfree], perm⟩
  | nil =>
    rw [hfree, List.length_nil] at len
    rw [if_neg (by omega)]
    obtain ⟨qs, v, rfl⟩ := snd.toWf.exists_last hfree pos
    have hc : m.set.contents = qs.map m.set.line ++ [m.set.line v] := by
      simp [snd.toWf.contents_eq]
    refine ⟨qs.map m.set.line, m.set.line v, hc, ?_, ?_, ?_⟩
    · simp [CacheSet.report, snd.toWf.victim_full hfree]
    · have kept : m.set.kept = (qs.map m.set.line).map CacheLine.addr := by
        simp [CacheSet.kept, hfree, CacheSet.tags, hc]
      rw [kept] at perm
      exact perm
    · -- the order makes the last line the least frequent one
      intro c mem
      have sorted := snd.queue.sorted
      rw [hc] at sorted mem
      rcases List.mem_append.mp mem with mem | mem
      · exact (List.pairwise_append.mp sorted).2.2 c mem _ (List.mem_singleton_self _)
      · cases List.mem_singleton.mp mem
        exact Nat.le_refl _

/-- A set with policy 2 is a queue by frequency after every history of allowed calls. An insertion
    evicts a line only from a full set, and then one whose counter is the least; and every further
    allowed call succeeds. -/
theorem set_lfu {n lineSize : Nat} {out : Evicted} {calls : List Call} {m : SetState}
    {replies : List Reply} (h : Reaches ⟨.new n lineSize 2, out⟩ calls m replies) :
    m.set.LfuQueue ∧
      (∀ t o ld m' r, Allowed m.set (.insert t o ld) → m.step (.insert t o ld) = some (m', r) →
        if m.set.contents.length < n then
          r = .inserted m.out ∧ m'.set.tags.Perm (t :: m.set.tags)
        else
          ∃ cs v, m.set.contents = cs ++ [v] ∧
            r = .inserted ⟨v.dirty, int64 v.addr, v.offset⟩ ∧
            m'.set.tags.Perm (t :: cs.map CacheLine.addr) ∧
            ∀ c ∈ m.set.contents, v.freq ≤ c.freq) ∧
      (0 < n → ∀ call, Allowed m.set call → ∃ m' r, m.step call = some (m', r)) := by
  obtain ⟨ps, snd⟩ := h.lfu
  refine ⟨snd.queue, ?_, ?_⟩
  · intro t o ld m' r _ st
    exact snd.insert st
  · intro pos call ok
    obtain ⟨m', r, _, st, _⟩ := snd.toSound.progress (.inr rfl) (.inl pos) ok
    exact ⟨m', r, st⟩

/-- A tag that was accessed survives the insertion of a third tag, the other one does not. -/
theorem set_lfu_keeps_accessed :
    ∃ m, Reaches ⟨.new 2 4096 2, ⟨false, -1, 0⟩⟩
        [.insert 5 0 true, .insert 6 0 true, .access 5 0 true, .insert 7 0 true] m
        [.inserted ⟨false, -1, 0⟩, .inserted ⟨false, -1, 0⟩, .hit true, .inserted ⟨false, 6, 0⟩] ∧
      m.set.LfuQueue := by
  set m₀ : SetState := ⟨.new 2 4096 2, ⟨false, -1, 0⟩⟩
  have run : (m₀.replay
      [.insert 5 0 true, .insert 6 0 true, .access 5 0 true, .insert 7 0 true]).map Prod.snd =
      some [.inserted ⟨false, -1, 0⟩, .inserted ⟨false, -1, 0⟩, .hit true,
        .inserted ⟨false, 6, 0⟩] := by decide +kernel
  obtain ⟨⟨m, rs⟩, run, rfl⟩ := Option.map_eq_some_iff.mp run
  have h := Reaches.nil.replay run
  exact ⟨m, h, (set_lfu h).1⟩

end
end PromotionCache.Tlb
