import PromotionCache.Tlb.CacheSet
import Mathlib.Data.List.Sort
import Mathlib.Data.List.TakeWhile
import Mathlib.Tactic.Common

/-!
# What the operations of a set do

`CacheSet.Wf s ps` says that `ps` is the recency list of `s`, from head to tail, and that list,
free stack and hash map fit together: the lines of `ps` and the free ones are the lines of the set,
each once, and a tag that the map binds is the tag of the bound line, which is in the list. The
converse, that the map binds the tag of every line in the list, is not part of `Wf`: it fails once
a resident tag is inserted again (`CacheSet.Exact` states it).

Each operation has one lemma that gives its result in terms of `ps`, for the policies 0 and 2, and
with it the recency list and `Wf` of the new set. Nothing after this module unfolds an operation.
-/

namespace PromotionCache.Tlb
open Lib

/-- The lines of a set with associativity `n`. -/
def slots (n : Nat) : List Ptr := (List.range n).map Ptr.entry

/-- The slots are different. -/
lemma slots_nodup (n : Nat) : (slots n).Nodup := by
  apply List.Nodup.map
  · intro i j e
    exact Ptr.entry.inj e
  · exact List.nodup_range

/-- The head of the list is none of them. -/
lemma head_notin_slots {n : Nat} : Ptr.head ∉ slots n := by simp [slots]

/-- Neither is its tail. -/
lemma tail_notin_slots {n : Nat} : Ptr.tail ∉ slots n := by simp [slots]

namespace CacheSet

/-- Where `insertFront` (policy 0) and `insertLFU` (policy 2) put line `c`. -/
def place (policy : Nat) (line : Ptr → CacheLine) (c : Ptr) (ps : List Ptr) : List Ptr :=
  if policy = 0 then c :: ps
  else ps.orderedInsert (fun a b => (line b).freq ≤ (line a).freq) c

/-- Placing a line leaves the others where they are, one after the other. -/
lemma place_perm (policy : Nat) (line : Ptr → CacheLine) (c : Ptr) (ps : List Ptr) :
    (place policy line c ps).Perm (c :: ps) := by
  unfold place
  split
  · exact .refl _
  · exact List.perm_orderedInsert _ _ _

/-- List, free stack and hash map of a set fit together; `ps` is the recency list. -/
structure Wf (s : CacheSet) (ps : List Ptr) : Prop where
  thread : s.links.Thread (.head :: (ps ++ [.tail]))
  slots : (ps ++ s.freeEntries).Perm (slots s.associativity)
  bound : ∀ {t c}, s.addrMap.find t = some (some c) → c ∈ ps ∧ (s.line c).addr = t
  freq : ∀ {c}, c ∈ ps → (s.line c).freq < maxFreq
  tailFreq : (s.line .tail).freq = 0

section
variable {s : CacheSet} {ps : List Ptr}

/-- No slot is in the list twice, or in the list and free. -/
lemma Wf.nodup (wf : s.Wf ps) : (ps ++ s.freeEntries).Nodup :=
  wf.slots.nodup_iff.mpr (slots_nodup _)

/-- The head is no slot. -/
lemma Wf.head_notin (wf : s.Wf ps) : Ptr.head ∉ ps ++ s.freeEntries := by
  rw [wf.slots.mem_iff]
  exact head_notin_slots

/-- The tail is no slot. -/
lemma Wf.tail_notin (wf : s.Wf ps) : Ptr.tail ∉ ps ++ s.freeEntries := by
  rw [wf.slots.mem_iff]
  exact tail_notin_slots

/-- The sentinels are not lines. -/
lemma Wf.not_sentinel {c} (wf : s.Wf ps) (mem : c ∈ ps ++ s.freeEntries) :
    c ≠ .head ∧ c ≠ .tail := by
  constructor
  · rintro rfl
    exact wf.head_notin mem
  · rintro rfl
    exact wf.tail_notin mem

/-- No slot is in the list twice. -/
lemma Wf.nodup_list (wf : s.Wf ps) : ps.Nodup := (List.nodup_append.mp wf.nodup).1

/-- A line that was taken out of the list is fresh for it. -/
lemma Wf.fresh_erase {c} (wf : s.Wf ps) (mem : c ∈ ps) :
    c ∉ Ptr.head :: (ps.erase c ++ [.tail]) := by
  obtain ⟨hd, tl⟩ := wf.not_sentinel (List.mem_append_left _ mem)
  have := wf.nodup_list.not_mem_erase (a := c)
  simp [hd, tl, this]

/-- Every slot is in the list or free. -/
lemma Wf.length (wf : s.Wf ps) : ps.length + s.freeEntries.length = s.associativity := by
  have h := wf.slots.length_eq
  simpa [Tlb.slots] using h

/-- The first line, or `tail`. -/
lemma Wf.first (wf : s.Wf ps) : s.links.next .head = some ((ps ++ [Ptr.tail]).head (by simp)) :=
  wf.thread.next_head (by simp)

/-- The walk over the links finds the list. -/
lemma recency_of_thread (th : s.links.Thread (.head :: (ps ++ [.tail])))
    (len : ps.length ≤ s.associativity) : s.recency = some ps := by
  have enough : ps.length < s.associativity + 1 := by omega
  have first := th.next_head (by simp)
  simp [CacheSet.recency, first, th.tail.walk enough]

/-- The traversals see the recency list. -/
lemma Wf.recency (wf : s.Wf ps) : s.recency = some ps := by
  apply recency_of_thread wf.thread
  have := wf.length
  omega

/-- `get_set` returns the tags in the order of the list. -/
lemma Wf.getSet (wf : s.Wf ps) : s.getSet = some (ps.map fun c => (s.line c).addr) := by
  simp [CacheSet.getSet, wf.recency]

/-- A well-formed set has one recency list. -/
lemma Wf.unique {qs} (wf : s.Wf ps) (wf' : s.Wf qs) : ps = qs :=
  Option.some.inj (wf.recency.symm.trans wf'.recency)

/-- `deleteNode` takes a line out of the list. -/
lemma deleteNode_spec {c} (th : s.links.Thread (.head :: (ps ++ [.tail]))) (mem : c ∈ ps) :
    ∃ l, s.deleteNode c = some { s with links := l } ∧
      l.Thread (.head :: (ps.erase c ++ [.tail])) := by
  obtain ⟨xs, ys, notin, rfl, e⟩ := List.exists_erase_eq mem
  have th' : s.links.Thread ((.head :: xs) ++ c :: (ys ++ [.tail])) := by simpa using th
  obtain ⟨l, hl, thl⟩ := th'.unlink (by simp) (by simp)
  refine ⟨l, by simp [deleteNode, hl], ?_⟩
  rw [e]
  simpa using thl

/-- A line that is not in the list is put at its front. -/
lemma insertFront_spec {c} (th : s.links.Thread (.head :: (ps ++ [.tail])))
    (fresh : c ∉ Ptr.head :: (ps ++ [.tail])) :
    ∃ l, s.insertFront c .head = some { s with links := l } ∧
      l.Thread (.head :: (c :: ps ++ [.tail])) := by
  have th' : s.links.Thread ([] ++ .head :: (ps ++ [.tail])) := th
  obtain ⟨l, hl, thl⟩ := th'.linkAfter (by simp) fresh
  exact ⟨l, by simp [insertFront, hl], thl⟩

/-- `insertLFU` keeps the order by frequency; the loop ends at `tail`, whose frequency is 0. -/
lemma insertLFU_spec {c} (th : s.links.Thread (.head :: (ps ++ [.tail])))
    (fresh : c ∉ Ptr.head :: (ps ++ [.tail])) (tailFreq : (s.line .tail).freq = 0)
    (len : ps.length ≤ s.associativity) :
    ∃ l, s.insertLFU c = some { s with links := l } ∧
      l.Thread (.head ::
        (ps.orderedInsert (fun a b => (s.line b).freq ≤ (s.line a).freq) c ++ [.tail])) := by
  rw [List.orderedInsert_eq_take_drop]
  simp only [Nat.not_le]
  set more : Ptr → Bool := fun b => decide ((s.line c).freq < (s.line b).freq) with hmore
  have e : ps.takeWhile more ++ ps.dropWhile more = ps := List.takeWhile_append_dropWhile
  -- `b` is the line in front of which `c` goes
  obtain ⟨b, ys, hys⟩ : ∃ b ys, ps.dropWhile more ++ [Ptr.tail] = b :: ys := by
    cases ps.dropWhile more <;> simp
  have hb : more b = false := by
    cases hd : ps.dropWhile more with
    | nil =>
      rw [hd] at hys
      cases hys
      simp [hmore, tailFreq]
    | cons q qs =>
      rw [hd] at hys
      cases hys
      have h := List.head_dropWhile_not more (l := ps) (by simp [hd])
      simpa [hd] using h
  have split : ps ++ [Ptr.tail] = ps.takeWhile more ++ b :: ys := by
    rw [← hys, ← List.append_assoc, e]
  have th' : s.links.Thread ((.head :: ps.takeWhile more) ++ b :: ys) := by
    rw [split] at th
    simpa using th
  have first : s.links.next .head = some ((ps.takeWhile more ++ b :: ys).head (by simp)) :=
    th'.next_head (by simp)
  have enough : (ps.takeWhile more).length < s.associativity + 1 := by
    have := (List.takeWhile_prefix (l := ps) more).length_le
    omega
  have skip : ∀ x ∈ ps.takeWhile more, (fun p => !more p) x = false := by
    intro x hx
    simpa using List.mem_takeWhile_imp hx
  have found := th'.tail.seek skip (by simp [hb]) enough
  obtain ⟨l, hl, thl⟩ := th'.linkBefore (c := c) (by simp) (by rw [split] at fresh; simpa using fresh)
  refine ⟨l, ?_, ?_⟩
  · rw [insertLFU]
    simp only [first, Option.bind_eq_bind, Option.bind_some]
    rw [found]
    simp [hl]
  · rw [← hys] at thl
    simpa using thl

/-- The place a policy gives to a line outside the list. -/
lemma place_spec {c} (pol : s.policy = 0 ∨ s.policy = 2)
    (th : s.links.Thread (.head :: (ps ++ [.tail])))
    (fresh : c ∉ Ptr.head :: (ps ++ [.tail])) (tailFreq : (s.line .tail).freq = 0)
    (len : ps.length ≤ s.associativity) :
    ∃ l, (if s.policy = 0 then s.insertFront c .head else s.insertLFU c) =
        some { s with links := l } ∧
      l.Thread (.head :: (place s.policy s.line c ps ++ [.tail])) := by
  rcases pol with pol | pol
  · simpa [pol, place] using insertFront_spec th fresh
  · simpa [pol, place] using insertLFU_spec th fresh tailFreq len

/-- The contents of the lines after a decay of the list `ps`. -/
def decayed (line : Ptr → CacheLine) (ps : List Ptr) : Ptr → CacheLine :=
  fun p => if p ∈ ps then { line p with freq := (line p).freq / 2 } else line p

/-- Which lines decay does not depend on their order. -/
lemma decayed_perm {line : Ptr → CacheLine} {qs} (h : ps.Perm qs) :
    decayed line ps = decayed line qs := by
  funext p
  simp only [decayed, h.mem_iff]

/-- The loop halves the frequency of every line once. -/
private lemma foldl_decay (nd : ps.Nodup) :
    ps.foldl (fun s c => s.modify c fun l => { l with freq := l.freq / 2 }) s =
      { s with line := decayed s.line ps } := by
  induction ps generalizing s with
  | nil => rfl
  | cons p ps ih =>
    obtain ⟨notin, nd⟩ := List.nodup_cons.mp nd
    rw [List.foldl_cons, ih nd]
    simp only [modify, CacheSet.mk.injEq, true_and, and_true]
    funext q
    by_cases e : q = p
    · subst e
      simp [decayed, notin]
    · simp [decayed, e]

/-- The loop of `decay_freqs` halves every line of the list once. -/
lemma decayFreqs_spec (rec : s.recency = some ps) (nd : ps.Nodup) :
    s.decayFreqs = some { s with line := decayed s.line ps } := by
  simp [decayFreqs, rec, foldl_decay nd]

/-- The contents of the lines after a hit on `c` in the list `ps`. -/
def hitLine (s : CacheSet) (ps : List Ptr) (c : Ptr) (offset : Nat) (isLoad : Bool) :
    Ptr → CacheLine :=
  if ((s.touch c offset isLoad).line c).freq = maxFreq then
    decayed (s.touch c offset isLoad).line ps
  else (s.touch c offset isLoad).line

/-- What a hit does to the lines before it decays them. -/
lemma touch_line (c p : Ptr) (o : Nat) (ld : Bool) :
    (s.touch c o ld).line p =
      if p = c then
        { addr := (s.line c).addr, offset := o, dirty := if ld then (s.line c).dirty else true,
          freq := ((s.line c).freq + 1) % 2 ^ 16 }
      else s.line p := by
  simp [touch, modify, Function.update_apply]

/-- The lines after a hit. -/
lemma hitLine_apply (c p : Ptr) (o : Nat) (ld : Bool) :
    s.hitLine ps c o ld p =
      if ((s.touch c o ld).line c).freq = maxFreq then decayed (s.touch c o ld).line ps p
      else (s.touch c o ld).line p := by
  unfold hitLine
  split <;> rfl

/-- A hit changes no tag. -/
@[simp] lemma hitLine_addr (c p : Ptr) (o : Nat) (ld : Bool) :
    (s.hitLine ps c o ld p).addr = (s.line p).addr := by
  have h : ((s.touch c o ld).line p).addr = (s.line p).addr := by
    rw [touch_line]
    split <;> simp_all
  rw [hitLine_apply]
  split
  · unfold decayed
    split <;> exact h
  · exact h

/-- The other fields are those stored by the hit, or unchanged. -/
lemma hitLine_stored (ps : List Ptr) (c p : Ptr) (o : Nat) (ld : Bool) :
    ((s.hitLine ps c o ld p).offset, (s.hitLine ps c o ld p).dirty) =
      if p = c then (o, if ld then (s.line c).dirty else true)
      else ((s.line p).offset, (s.line p).dirty) := by
  have h : (((s.touch c o ld).line p).offset, ((s.touch c o ld).line p).dirty) =
      if p = c then (o, if ld then (s.line c).dirty else true)
      else ((s.line p).offset, (s.line p).dirty) := by
    rw [touch_line]
    split <;> rfl
  rw [hitLine_apply]
  split
  · unfold decayed
    split <;> exact h
  · exact h

/-- Outside the list nothing changes. -/
lemma hitLine_notin {c p : Ptr} {o : Nat} {ld : Bool} (pc : p ≠ c) (notin : p ∉ ps) :
    s.hitLine ps c o ld p = s.line p := by
  simp [hitLine_apply, decayed, touch_line, pc, notin]

/-- The counter of the accessed line does not wrap. -/
lemma touch_freq {c : Ptr} (lt : (s.line c).freq < maxFreq) (o : Nat) (ld : Bool) :
    ((s.touch c o ld).line c).freq = (s.line c).freq + 1 := by
  have nowrap : ((s.line c).freq + 1) % 2 ^ 16 = (s.line c).freq + 1 := by
    apply Nat.mod_eq_of_lt
    simp only [maxFreq] at lt
    omega
  rw [touch_line, if_pos rfl]
  exact nowrap

/-- A hit counts the access; when the count reaches the maximum the whole list decays, so the
    counter stays below the maximum and never wraps. -/
lemma hitLine_freq {c p : Ptr} {o : Nat} {ld : Bool}
    (freq : ∀ {c}, c ∈ ps → (s.line c).freq < maxFreq) (mem : c ∈ ps) :
    (s.hitLine ps c o ld p).freq =
      if (s.line c).freq + 1 = maxFreq then
        if p = c then maxFreq / 2
        else if p ∈ ps then (s.line p).freq / 2 else (s.line p).freq
      else if p = c then (s.line c).freq + 1 else (s.line p).freq := by
  have hc := touch_freq (freq mem) o ld
  rw [hitLine_apply, hc]
  split
  case isTrue full =>
    by_cases e : p = c
    · subst e
      simp [decayed, mem, hc, full]
    · simp only [decayed, touch_line, if_neg e]
      split <;> rfl
  case isFalse =>
    by_cases e : p = c
    · subst e
      simp [hc]
    · simp [touch_line, e]

/-- No frequency reaches its maximum for good. -/
lemma hitLine_lt {c p : Ptr} {o : Nat} {ld : Bool}
    (freq : ∀ {c}, c ∈ ps → (s.line c).freq < maxFreq) (mem : c ∈ ps) (pmem : p ∈ ps) :
    (s.hitLine ps c o ld p).freq < maxFreq := by
  have ltc := freq mem
  have ltp := freq pmem
  rw [hitLine_freq freq mem]
  simp only [maxFreq] at *
  split_ifs <;> omega

/-- The set the constructor builds. -/
lemma wf_new (size cacheLineSize policy : Nat) : (new size cacheLineSize policy).Wf [] where
  thread := ⟨by simp [new, Links.Adj], by simp⟩
  slots := by simp [new, Tlb.slots, List.reverse_perm]
  bound := by intro t c h; simp [new] at h
  freq := by intro c h; simp at h
  tailFreq := rfl

/-- The lookup of a bound tag changes nothing. -/
lemma lookup_bound {t c} (h : s.addrMap.find t = some (some c)) : s.lookup t = (some c, s) := by
  simp [lookup, UnorderedMap.get, UnorderedMap.subscript, h]

/-- The set a lookup of `t` leaves: `t` may be newly bound to null. -/
def missed (s : CacheSet) (t : Nat) : CacheSet :=
  { s with addrMap := s.addrMap.subscript t none }

/-- A tag that is not bound is missed. -/
lemma lookup_unbound {t} (h : ∀ c, s.addrMap.find t ≠ some (some c)) :
    s.lookup t = (none, s.missed t) := by
  have e : s.addrMap.get t none = none := by
    unfold UnorderedMap.get
    cases h' : s.addrMap.find t with
    | none => rfl
    | some c =>
      cases c with
      | none => rfl
      | some c => exact absurd h' (h c)
  simp [lookup, missed, e]

/-- A lookup binds no tag to a line. -/
lemma missed_find (t u : Nat) (c : Ptr) :
    (s.missed t).addrMap.find u = some (some c) ↔ s.addrMap.find u = some (some c) := by
  unfold missed
  rw [UnorderedMap.find_subscript]
  split
  case isTrue e =>
    subst e
    unfold UnorderedMap.get
    cases s.addrMap.find u <;> simp
  case isFalse => rfl

/-- A miss keeps the set well formed. -/
lemma Wf.missed (wf : s.Wf ps) (t : Nat) : (s.missed t).Wf ps where
  thread := wf.thread
  slots := wf.slots
  bound := fun h => wf.bound ((missed_find _ _ _).mp h)
  freq := wf.freq
  tailFreq := wf.tailFreq

/-- The set after a hit on line `c`. -/
def hit (s : CacheSet) (ps : List Ptr) (c : Ptr) (o : Nat) (ld : Bool) (l : Links Ptr) : CacheSet :=
  { s with links := l, line := s.hitLine ps c o ld }

/-- A hit moves the accessed line to its place and updates it. -/
lemma Wf.access_hit {t c} (wf : s.Wf ps) (pol : s.policy = 0 ∨ s.policy = 2)
    (h : s.addrMap.find t = some (some c)) (o : Nat) (ld : Bool) :
    ∃ l, s.access t o ld = some (true, s.hit ps c o ld l) ∧
      (s.hit ps c o ld l).Wf (place s.policy s.line c (ps.erase c)) := by
  obtain ⟨mem, addr⟩ := wf.bound h
  have cperm : (c :: ps.erase c).Perm ps := (List.perm_cons_erase mem).symm
  have pperm := (place_perm s.policy s.line c (ps.erase c)).trans cperm
  have len := wf.length
  obtain ⟨l1, hdel, th1⟩ := deleteNode_spec wf.thread mem
  have elen : (ps.erase c).length ≤ s.associativity := by
    have := List.length_erase_le (a := c) (l := ps)
    omega
  obtain ⟨l2, hplace, th2⟩ :=
    place_spec (s := { s with links := l1 }) pol th1 (wf.fresh_erase mem) wf.tailFreq elen
  have hre : ({ s with links := l1 } : CacheSet).reinsert c = some { s with links := l2 } := by
    rw [← hplace]
    unfold reinsert
    rcases pol with pol | pol <;> simp [pol]
  have hrec : (({ s with links := l2 } : CacheSet).touch c o ld).recency =
      some (place s.policy s.line c (ps.erase c)) := by
    apply recency_of_thread th2
    have plen := pperm.length_eq
    change _ ≤ s.associativity
    omega
  refine ⟨l2, ?_, ?_⟩
  · have hdecay := decayFreqs_spec hrec (pperm.nodup_iff.mpr wf.nodup_list)
    rw [decayed_perm pperm] at hdecay
    simp only [access, lookup_bound h, hdel, hre, Option.bind_eq_bind, Option.bind_some]
    rw [hdecay]
    unfold hit hitLine
    split <;> split <;> first | rfl | contradiction
  · constructor
    case thread => exact th2
    case slots => exact (pperm.append_right _).trans wf.slots
    case bound =>
      intro u d hu
      obtain ⟨dmem, daddr⟩ := wf.bound hu
      exact ⟨pperm.mem_iff.mpr dmem, (hitLine_addr c d o ld).trans daddr⟩
    case freq =>
      intro d dmem
      exact hitLine_lt wf.freq mem (pperm.mem_iff.mp dmem)
    case tailFreq =>
      have notin : Ptr.tail ∉ ps := fun h => wf.tail_notin (List.mem_append_left _ h)
      have ne : Ptr.tail ≠ c := (wf.not_sentinel (List.mem_append_left _ mem)).2.symm
      change (s.hitLine ps c o ld .tail).freq = 0
      rw [hitLine_notin ne notin, wf.tailFreq]

/-- A miss changes no line. -/
lemma access_miss {t} (h : ∀ c, s.addrMap.find t ≠ some (some c)) (o : Nat) (ld : Bool) :
    s.access t o ld = some (false, s.missed t) := by
  simp [access, lookup_unbound h]

/-- `Wf` while the line `c` is held outside list and stack, between the two halves of `insert`. -/
structure Held (s : CacheSet) (c : Ptr) (ps : List Ptr) : Prop where
  thread : s.links.Thread (.head :: (ps ++ [.tail]))
  slots : (c :: (ps ++ s.freeEntries)).Perm (slots s.associativity)
  bound : ∀ {t d}, s.addrMap.find t = some (some d) → d ∈ ps ∧ (s.line d).addr = t
  freq : ∀ {d}, d ∈ ps → (s.line d).freq < maxFreq
  tailFreq : (s.line .tail).freq = 0

/-- With a free line, `insert` takes the top of the stack. -/
lemma Wf.takeLine_free {c free} (wf : s.Wf ps) (h : s.freeEntries = c :: free) (out : Evicted) :
    s.takeLine out = some (c, { s with freeEntries := free }, out) ∧
      ({ s with freeEntries := free } : CacheSet).Held c ps := by
  refine ⟨by simp [takeLine, h], ?_⟩
  constructor
  case slots =>
    have perm := wf.slots
    rw [h] at perm
    exact List.perm_middle.symm.trans perm
  case thread => exact wf.thread
  case bound => exact wf.bound
  case freq => exact wf.freq
  case tailFreq => exact wf.tailFreq

/-- Without one, it evicts the last line of the list and unbinds its tag. -/
lemma Wf.takeLine_full {v} (wf : s.Wf (ps ++ [v])) (h : s.freeEntries = []) (out : Evicted) :
    ∃ l, s.takeLine out =
        some (v, { s with links := l, addrMap := s.addrMap.erase (s.line v).addr },
          ⟨(s.line v).dirty, int64 (s.line v).addr, (s.line v).offset⟩) ∧
      ({ s with links := l, addrMap := s.addrMap.erase (s.line v).addr } : CacheSet).Held v ps := by
  have mem : v ∈ ps ++ [v] := by simp
  have headn := (wf.not_sentinel (List.mem_append_left _ mem)).1
  have notin : v ∉ ps := by
    have nd := wf.nodup_list
    rw [List.nodup_append_comm] at nd
    exact (List.nodup_cons.mp nd).1
  have last : s.links.prev .tail = some v := by
    have th : s.links.Thread ((.head :: ps) ++ v :: .tail :: []) := by simpa using wf.thread
    exact th.prev_eq
  obtain ⟨l, hdel, th⟩ := deleteNode_spec
    (s := { s with addrMap := s.addrMap.erase (s.line v).addr }) wf.thread mem
  have e : (ps ++ [v]).erase v = ps := by simp [List.erase_append_right _ notin]
  rw [e] at th
  refine ⟨l, ?_, ?_⟩
  · unfold takeLine
    split
    case h_1 => simp [last, headn, hdel]
    case h_2 e => rw [h] at e; cases e
  constructor
  case thread => exact th
  case slots =>
    have perm := wf.slots
    simp only [h, List.append_nil] at perm ⊢
    exact (List.perm_append_singleton v ps).symm.trans perm
  case bound =>
    intro t d hd
    rw [UnorderedMap.find_erase] at hd
    split at hd
    case isTrue => cases hd
    case isFalse ne =>
      obtain ⟨dmem, addr⟩ := wf.bound hd
      rcases List.mem_append.mp dmem with dmem | dmem
      · exact ⟨dmem, addr⟩
      · -- `d` would be the victim, whose tag has just been erased
        cases List.mem_singleton.mp dmem
        exact absurd addr.symm ne
  case freq => intro d dmem; exact wf.freq (List.mem_append_left _ dmem)
  case tailFreq => exact wf.tailFreq

/-- The contents of the lines once `c` is filled. -/
def filled (s : CacheSet) (c : Ptr) (t o : Nat) (ld : Bool) : Ptr → CacheLine :=
  Function.update s.line c { addr := t, offset := o, dirty := !ld, freq := 0 }

/-- The set once `c` is filled, bound and linked. -/
def stored (s : CacheSet) (c : Ptr) (t o : Nat) (ld : Bool) (l : Links Ptr) : CacheSet :=
  { s with links := l, line := s.filled c t o ld, addrMap := s.addrMap.set t (some c) }

/-- The held line is not in the list. -/
lemma Held.fresh {c} (held : s.Held c ps) : c ∉ Ptr.head :: (ps ++ [.tail]) := by
  have nd := held.slots.nodup_iff.mpr (slots_nodup _)
  obtain ⟨cnotin, _⟩ := List.nodup_cons.mp nd
  have cslot : c ∈ Tlb.slots s.associativity := held.slots.mem_iff.mp List.mem_cons_self
  have headn : c ≠ .head := by rintro rfl; exact head_notin_slots cslot
  have tailn : c ≠ .tail := by rintro rfl; exact tail_notin_slots cslot
  have cps : c ∉ ps := fun h => cnotin (List.mem_append_left _ h)
  simp [headn, tailn, cps]

/-- A list with a line in hand fits into the set. -/
lemma Held.length {c} (held : s.Held c ps) : ps.length ≤ s.associativity := by
  have h := held.slots.length_eq
  simp [Tlb.slots] at h
  omega

/-- The tail, which has no line, has the frequency 0. -/
lemma Held.tailFreq_filled {c} (held : s.Held c ps) (t o : Nat) (ld : Bool) :
    (s.filled c t o ld .tail).freq = 0 := by
  have fresh := held.fresh
  have tailn : Ptr.tail ≠ c := by
    rintro rfl
    simp at fresh
  simp [filled, Function.update_of_ne tailn, held.tailFreq]

/-- Once the held line is filled, bound and anywhere in the list, the set is well formed again. -/
lemma Held.wf_stored {c qs} {l : Links Ptr} (held : s.Held c ps) (th : l.Thread (.head :: (qs ++ [.tail])))
    (perm : qs.Perm (c :: ps)) (t o : Nat) (ld : Bool) : (s.stored c t o ld l).Wf qs := by
  have cps : c ∉ ps := fun h => held.fresh (by simp [h])
  constructor
  case thread => exact th
  case slots => exact (perm.append_right _).trans held.slots
  case bound =>
    intro u d hu
    change (s.addrMap.set t (some c)).find u = some (some d) at hu
    rw [UnorderedMap.find_set] at hu
    split at hu
    case isTrue e =>
      cases hu
      exact ⟨perm.mem_iff.mpr List.mem_cons_self, by simp [CacheSet.stored, filled, e]⟩
    case isFalse =>
      obtain ⟨dmem, addr⟩ := held.bound hu
      have ne : d ≠ c := by rintro rfl; exact cps dmem
      refine ⟨perm.mem_iff.mpr (List.mem_cons_of_mem _ dmem), ?_⟩
      simp [CacheSet.stored, filled, Function.update_of_ne ne, addr]
  case freq =>
    intro d dmem
    change (s.filled c t o ld d).freq < maxFreq
    rcases List.mem_cons.mp (perm.mem_iff.mp dmem) with e | dps
    · simp [e, filled, maxFreq]
    · have ne : d ≠ c := by rintro rfl; exact cps dps
      simp [filled, Function.update_of_ne ne, held.freq dps]
  case tailFreq => exact held.tailFreq_filled t o ld

/-- The second half of `insert` puts the held line to its place. -/
lemma Held.fillLine {c} (held : s.Held c ps) (pol : s.policy = 0 ∨ s.policy = 2) (t o : Nat)
    (ld : Bool) :
    ∃ l, s.fillLine c t o ld = some (s.stored c t o ld l) ∧
      (s.stored c t o ld l).Wf (place s.policy (s.filled c t o ld) c ps) := by
  set s' : CacheSet := { s with line := s.filled c t o ld, addrMap := s.addrMap.set t (some c) }
  have e : s.fillLine c t o ld = if s.policy = 0 then s'.insertFront c .head
      else if s.policy = 1 then s'.insertHalf c
      else if s.policy = 2 then s'.insertLFU c else some s' := rfl
  have pol' : s'.policy = 0 ∨ s'.policy = 2 := pol
  obtain ⟨l, hplace, th⟩ :=
    place_spec pol' held.thread held.fresh (held.tailFreq_filled t o ld) held.length
  refine ⟨l, ?_, held.wf_stored th (place_perm _ _ _ _) t o ld⟩
  have epol : s'.policy = s.policy := rfl
  rw [epol] at hplace
  rw [e]
  rcases pol with pol | pol
  · rw [if_pos pol] at hplace ⊢
    exact hplace
  · rw [if_neg (by simp [pol])] at hplace
    simp only [pol]
    exact hplace

/-- The set between the halves of `insert`, when a line was free. -/
def popped (s : CacheSet) (t : Nat) (free : List Ptr) : CacheSet :=
  { s.missed t with freeEntries := free }

/-- The set between the halves of `insert`, when line `v` was evicted. -/
def unseated (s : CacheSet) (t : Nat) (v : Ptr) (m : Links Ptr) : CacheSet :=
  { s.missed t with links := m, addrMap := (s.missed t).addrMap.erase (s.line v).addr }

/-- Taking a free slot touches no line. -/
@[simp] lemma popped_line (t : Nat) (free : List Ptr) : (s.popped t free).line = s.line := rfl

/-- Neither does taking the slot of a victim. -/
@[simp] lemma unseated_line (t : Nat) (v : Ptr) (m : Links Ptr) :
    (s.unseated t v m).line = s.line := rfl

/-- `insert` with a free line. -/
lemma Wf.insert_free {c free} (wf : s.Wf ps) (pol : s.policy = 0 ∨ s.policy = 2)
    (h : s.freeEntries = c :: free) (t o : Nat) (ld : Bool) (out : Evicted) :
    (s.popped t free).Held c ps ∧
      ∃ l, s.insert t o ld out = some ((s.popped t free).stored c t o ld l, out) ∧
        ((s.popped t free).stored c t o ld l).Wf (place s.policy (s.filled c t o ld) c ps) := by
  obtain ⟨htake, held⟩ := (wf.missed t).takeLine_free h out
  obtain ⟨l, hfill, wf'⟩ := held.fillLine pol t o ld
  refine ⟨held, l, ?_, wf'⟩
  have e : (s.lookup t).2 = s.missed t := rfl
  simp [CacheSet.insert, e, htake, hfill, popped]

/-- `insert` into a full set: the last line of the list makes room. -/
lemma Wf.insert_full {v} (wf : s.Wf (ps ++ [v])) (pol : s.policy = 0 ∨ s.policy = 2)
    (h : s.freeEntries = []) (t o : Nat) (ld : Bool) (out : Evicted) :
    ∃ m, (s.unseated t v m).Held v ps ∧
      ∃ l, s.insert t o ld out =
          some ((s.unseated t v m).stored v t o ld l,
            ⟨(s.line v).dirty, int64 (s.line v).addr, (s.line v).offset⟩) ∧
        ((s.unseated t v m).stored v t o ld l).Wf
          (place s.policy (s.filled v t o ld) v ps) := by
  obtain ⟨m, htake, held⟩ := (wf.missed t).takeLine_full h out
  obtain ⟨l, hfill, wf'⟩ := held.fillLine pol t o ld
  refine ⟨m, held, l, ?_, wf'⟩
  have e : (s.lookup t).2 = s.missed t := rfl
  simp only [CacheSet.insert, e, htake, hfill, Option.bind_eq_bind, Option.bind_some]
  rfl

/-- A set without lines has nothing to evict. -/
lemma Wf.insert_empty (wf : s.Wf ps) (h : s.associativity = 0) (t o : Nat) (ld : Bool)
    (out : Evicted) : s.insert t o ld out = none := by
  have len := wf.length
  rw [h] at len
  have free : s.freeEntries = [] := List.eq_nil_of_length_eq_zero (by omega)
  have empty : ps = [] := List.eq_nil_of_length_eq_zero (by omega)
  subst empty
  have th : (s.missed t).links.Thread ([] ++ .head :: .tail :: []) := wf.thread
  have e : (s.lookup t).2 = s.missed t := rfl
  have take : (s.missed t).takeLine out = none := by
    unfold takeLine
    split
    case h_1 => simp [th.prev_eq]
    case h_2 hf =>
      change s.freeEntries = _ at hf
      rw [free] at hf
      cases hf
  simp [CacheSet.insert, e, take]

/-- The set after line `c`, bound to `t`, was evicted. -/
def evicted (s : CacheSet) (c : Ptr) (t : Nat) (l : Links Ptr) : CacheSet :=
  { s with links := l, addrMap := s.addrMap.erase t, freeEntries := c :: s.freeEntries }

/-- `evict` of a bound tag frees its line. -/
lemma Wf.evict_bound {t c} (wf : s.Wf ps) (h : s.addrMap.find t = some (some c)) :
    ∃ l, s.evict t = some (s.evicted c t l, (s.line c).dirty) ∧
      (s.evicted c t l).Wf (ps.erase c) := by
  obtain ⟨mem, addr⟩ := wf.bound h
  have headn := (wf.not_sentinel (List.mem_append_left _ mem)).1
  obtain ⟨l, hdel, th⟩ :=
    deleteNode_spec (s := { s with addrMap := s.addrMap.erase t }) wf.thread mem
  refine ⟨l, ?_, ?_⟩
  · simp only [evict, lookup_bound h, addr]
    simp [headn, hdel, evicted]
  constructor
  case thread => exact th
  case slots =>
    have perm : (ps.erase c ++ c :: s.freeEntries).Perm (ps ++ s.freeEntries) := by
      apply List.perm_middle.trans
      exact (List.perm_cons_erase mem).symm.append_right s.freeEntries
    exact perm.trans wf.slots
  case bound =>
    intro u d hu
    change (s.addrMap.erase t).find u = some (some d) at hu
    rw [UnorderedMap.find_erase] at hu
    split at hu
    case isTrue => cases hu
    case isFalse ne =>
      obtain ⟨dmem, daddr⟩ := wf.bound hu
      have dc : d ≠ c := by rintro rfl; exact ne (daddr.symm.trans addr)
      exact ⟨(List.mem_erase_of_ne dc).mpr dmem, daddr⟩
  case freq => intro d dmem; exact wf.freq (List.mem_of_mem_erase dmem)
  case tailFreq => exact wf.tailFreq

/-- `evict` of a tag that is not bound dereferences null. -/
lemma evict_unbound {t} (h : ∀ c, s.addrMap.find t ≠ some (some c)) : s.evict t = none := by
  simp [evict, lookup_unbound h]

/-- The frequency of a tag that is bound is that of its line. -/
lemma Wf.getFreq_bound {t c} (wf : s.Wf ps) (h : s.addrMap.find t = some (some c)) :
    s.getFreq t = some (s.line c).freq := by
  obtain ⟨mem, _⟩ := wf.bound h
  have headn := (wf.not_sentinel (List.mem_append_left _ mem)).1
  simp [CacheSet.getFreq, h, headn]

/-- The loop of `flush` frees the lines from the front on and unbinds their tags. -/
private lemma Wf.flushFrom_spec {fuel} (wf : s.Wf ps) (enough : ps.length < fuel) :
    ∃ l m, s.flushFrom fuel ((ps ++ [Ptr.tail]).head (by simp)) =
        some { s with links := l, addrMap := m, freeEntries := ps.reverse ++ s.freeEntries } ∧
      l.Thread [.head, .tail] ∧
      ∀ t, m.find t = if ∃ p ∈ ps, (s.line p).addr = t then none else s.addrMap.find t := by
  induction ps generalizing s fuel with
  | nil =>
    obtain ⟨k, rfl⟩ := Nat.exists_eq_add_of_lt enough
    exact ⟨s.links, s.addrMap, by simp [flushFrom], wf.thread, by simp⟩
  | cons p ps ih =>
    cases fuel with
    | zero => simp at enough
    | succ fuel =>
      have tailn := (wf.not_sentinel (List.mem_append_left _ List.mem_cons_self)).2
      have th : s.links.Thread ([.head] ++ p :: (ps ++ [.tail])) := wf.thread
      have next : s.links.next p = some ((ps ++ [Ptr.tail]).head (by simp)) :=
        th.tail.next_head (by simp)
      have prev : s.links.prev ((ps ++ [Ptr.tail]).head (by simp)) = some p := by
        cases ps with
        | nil => exact (List.isChain_cons_cons.mp th.tail.chain).1.2
        | cons q ps => exact (List.isChain_cons_cons.mp th.tail.chain).1.2
      set s' : CacheSet := { s with
        addrMap := s.addrMap.erase (s.line p).addr
        freeEntries := p :: s.freeEntries }
      obtain ⟨l, hdel, thl⟩ := deleteNode_spec (s := s') wf.thread List.mem_cons_self
      rw [List.erase_cons_head] at thl
      have wf' : ({ s' with links := l } : CacheSet).Wf ps := by
        constructor
        case thread => exact thl
        case slots => exact List.perm_middle.trans wf.slots
        case bound =>
          intro t d hd
          change (s.addrMap.erase (s.line p).addr).find t = some (some d) at hd
          rw [UnorderedMap.find_erase] at hd
          split at hd
          case isTrue => cases hd
          case isFalse ne =>
            obtain ⟨dmem, daddr⟩ := wf.bound hd
            rcases List.mem_cons.mp dmem with rfl | dmem
            · exact absurd daddr.symm ne
            · exact ⟨dmem, daddr⟩
        case freq => intro d dmem; exact wf.freq (List.mem_cons_of_mem _ dmem)
        case tailFreq => exact wf.tailFreq
      obtain ⟨l', m, hrun, thl', hm⟩ := ih wf' (by simpa using enough)
      refine ⟨l', m, ?_, thl', ?_⟩
      · simp only [flushFrom, List.cons_append, List.head_cons, next, prev, Option.bind_eq_bind,
          Option.bind_some]
        change (if p = .tail then some s else (s'.deleteNode p).bind _) = _
        rw [if_neg tailn, hdel, Option.bind_some, hrun]
        simp [s']
      · intro t
        rw [hm t]
        change (if _ then none else (s.addrMap.erase (s.line p).addr).find t) = _
        by_cases e : (s.line p).addr = t
        · simp [e]
        · simp [e, Ne.symm e]
          rfl

/-- The set after a flush of the list `ps`. -/
def flushed (s : CacheSet) (ps : List Ptr) (l : Links Ptr) (m : UnorderedMap Nat (Option Ptr)) :
    CacheSet :=
  { s with links := l, addrMap := m, freeEntries := ps.reverse ++ s.freeEntries }

/-- `flush` frees every line and unbinds every tag. -/
lemma Wf.flush (wf : s.Wf ps) :
    ∃ l m, s.flush = some (s.flushed ps l m) ∧ (s.flushed ps l m).Wf [] ∧
      ∀ t c, m.find t ≠ some (some c) := by
  have enough : ps.length < s.associativity + 1 := by
    have := wf.length
    omega
  obtain ⟨l, m, hrun, th, hm⟩ := wf.flushFrom_spec enough
  have unbound : ∀ t c, m.find t ≠ some (some c) := by
    intro t c h
    rw [hm] at h
    split at h
    case isTrue => cases h
    case isFalse ne =>
      obtain ⟨mem, addr⟩ := wf.bound h
      exact ne ⟨c, mem, addr⟩
  refine ⟨l, m, by simp [CacheSet.flush, wf.first, hrun, flushed], ?_, unbound⟩
  constructor
  case thread => exact th
  case slots =>
    have perm : (ps.reverse ++ s.freeEntries).Perm (ps ++ s.freeEntries) :=
      ps.reverse_perm.append_right _
    exact perm.trans wf.slots
  case bound => intro t c h; exact absurd h (unbound t c)
  case freq => intro c h; cases h
  case tailFreq => exact wf.tailFreq

end
end CacheSet
end PromotionCache.Tlb
