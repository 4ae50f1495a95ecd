import PromotionCache.Scripts.Budget

/-!
# The selection loop

What `write_promotions` of `get_promotions_mt.py` does with the candidates of a time, pop by pop (`Popping`), for
both policies. The loops end, nothing is written twice, and if the limit allows it everything is written.
-/

namespace PromotionCache.Scripts.Mt
open Lib

/-- From `start` these candidates have been popped, in this order; exhausted threads may have been deleted. -/
inductive Popping (promotionLimit : Int) (start : Selection) : List Candidate → Selection → Prop where
  | nil : Popping promotionLimit start [] start
  | drop {ps s tid} :
    Popping promotionLimit start ps s →
    s.queue tid = [] →
    Popping promotionLimit start ps { s with candidates := s.candidates.erase tid }
  | pop {ps s tid tup queue} :
    Popping promotionLimit start ps s →
    s.donePromoting = false →
    s.candidates.lookup tid = some (tup :: queue) →
    Popping promotionLimit start (ps ++ [tup])
      (promote promotionLimit { s with candidates := s.candidates.insert tid queue } tup.addr)

section
variable {limit offset : Int} {s t start : Selection} {tid : Nat} {tids : List Nat} {ps : List Candidate}

/-- A turn pops the head of the queue, or nothing. -/
lemma Popping.turn (popping : Popping limit start ps s) (going : s.donePromoting = false) (tid : Nat) :
    ∃ qs, Popping limit start (ps ++ qs) (turn limit s tid) := by
  cases look : s.candidates.lookup tid with
  | none =>
    refine ⟨[], ?_⟩
    rw [List.append_nil]
    simpa only [Mt.turn, look] using popping
  | some q =>
    cases q with
    | nil =>
      refine ⟨[], ?_⟩
      rw [List.append_nil]
      simpa only [Mt.turn, look] using popping.drop (queue_of_lookup look)
    | cons tup q =>
      rw [turn_head look]
      exact ⟨[tup], popping.pop going look⟩

/-- A round pops candidates. -/
lemma Popping.roundRobin (popping : Popping limit start ps s) (going : s.donePromoting = false)
    (tids : List Nat) : ∃ qs, Popping limit start (ps ++ qs) (roundRobin limit s tids) := by
  induction tids generalizing s ps with
  | nil => exact ⟨[], by rw [List.append_nil]; exact popping⟩
  | cons tid tids ih =>
    obtain ⟨qs, popping'⟩ := popping.turn going tid
    rw [roundRobin_cons going]
    cases stop : (Mt.turn limit s tid).donePromoting with
    | true => exact ⟨qs, popping'⟩
    | false =>
      obtain ⟨rs, popping''⟩ := ih popping' stop
      rw [if_neg Bool.false_ne_true]
      exact ⟨qs ++ rs, by rw [← List.append_assoc]; exact popping''⟩

/-- A step by frequency pops candidates. -/
lemma Popping.highestFrequency (popping : Popping limit start ps s) (going : s.donePromoting = false)
    (h : highestFrequency limit s tids = some t) : ∃ qs, Popping limit start (ps ++ qs) t := by
  simp only [Mt.highestFrequency, Option.bind_eq_bind, Option.bind_eq_some_iff] at h
  obtain ⟨⟨tid, _⟩, _, h⟩ := h
  cases look : s.candidates.lookup tid with
  | none =>
    simp only [look] at h
    cases h
  | some q =>
    cases q with
    | nil =>
      simp only [look] at h
      cases h
    | cons tup q =>
      simp only [look] at h
      have popped := popping.pop going look
      refine ⟨[tup], ?_⟩
      split at h
      case isTrue =>
        obtain rfl := Option.some.inj h
        exact popped
      case isFalse =>
        split at h
        case isTrue empty =>
          obtain rfl := Option.some.inj h
          refine popped.drop ?_
          rw [queue_promote, queue_insert, if_pos rfl]
          exact List.isEmpty_iff.mp empty
        case isFalse =>
          obtain rfl := Option.some.inj h
          exact popped

/-- What has been popped and what is left are the candidates of every thread. -/
lemma Popping.queue (popping : Popping limit start ps s) :
    ∃ pre : Nat → List Candidate, (∀ k, start.queue k = pre k ++ s.queue k) ∧ ∀ x, x ∈ ps ↔ ∃ k, x ∈ pre k := by
  induction popping with
  | nil => exact ⟨fun _ => [], fun _ => rfl, fun x => by simp⟩
  | @drop ps s tid _ empty ih =>
    obtain ⟨pre, parts, mem⟩ := ih
    refine ⟨pre, ?_, mem⟩
    intro k
    rw [parts, queue_erase]
    split
    case isTrue e => rw [e, empty]
    case isFalse => rfl
  | @pop ps s tid tup q _ _ look ih =>
    obtain ⟨pre, parts, mem⟩ := ih
    refine ⟨Function.update pre tid (pre tid ++ [tup]), ?_, ?_⟩
    · intro k
      rw [parts, queue_promote, queue_insert]
      split
      case isTrue e =>
        rw [e, Function.update_self, queue_of_lookup look, List.append_assoc]
        rfl
      case isFalse ne => rw [Function.update_of_ne ne]
    · intro x
      rw [List.mem_append, List.mem_singleton, mem]
      constructor
      · rintro (⟨k, old⟩ | rfl)
        · refine ⟨k, ?_⟩
          rcases eq_or_ne k tid with rfl | ne
          · rw [Function.update_self]
            exact List.mem_append_left _ old
          · rw [Function.update_of_ne ne]
            exact old
        · refine ⟨tid, ?_⟩
          rw [Function.update_self]
          exact List.mem_append_right _ (List.mem_singleton_self _)
      · rintro ⟨k, now⟩
        rcases eq_or_ne k tid with rfl | ne
        · rw [Function.update_self, List.mem_append, List.mem_singleton] at now
          exact now.imp_left fun old => ⟨k, old⟩
        · rw [Function.update_of_ne ne] at now
          exact .inl ⟨k, now⟩

/-- An address has been popped if it is missing in some queue. -/
lemma Popping.popped (popping : Popping limit start ps s) {addr : Nat} :
    (∃ tid pre, start.queue tid = pre ++ s.queue tid ∧ addr ∈ pre.map Candidate.addr) ↔
      addr ∈ ps.map Candidate.addr := by
  obtain ⟨pre, parts, mem⟩ := popping.queue
  constructor
  · rintro ⟨tid, pre', parts', mem'⟩
    obtain rfl : pre' = pre tid := List.append_cancel_right (parts'.symm.trans (parts tid))
    obtain ⟨x, hx, rfl⟩ := List.mem_map.mp mem'
    exact List.mem_map_of_mem ((mem x).mpr ⟨tid, hx⟩)
  · intro mem'
    obtain ⟨x, hx, rfl⟩ := List.mem_map.mp mem'
    obtain ⟨tid, hx⟩ := (mem x).mp hx
    exact ⟨tid, pre tid, parts tid, List.mem_map_of_mem hx⟩

/-- What is fresh among addresses and then among more. -/
lemma fresh_append {unique addrs addrs' : List Nat} :
    fresh unique (addrs ++ addrs') = fresh unique addrs ++ fresh (unique ++ fresh unique addrs) addrs' := by
  induction addrs generalizing unique with
  | nil => simp [fresh]
  | cons addr addrs ih =>
    rw [List.cons_append, fresh, fresh]
    split
    case isTrue => exact ih
    case isFalse =>
      rw [ih, List.cons_append, List.append_assoc]
      rfl

/-- The pops promote the addresses that are new, and end with the one that reaches the limit. -/
structure Promoted (limit : Int) (unique popped : List Nat) (s : Selection) : Prop where
  promoted : s.toPromote = fresh unique popped
  known : s.uniqueCandidates = unique ++ fresh unique popped
  within : s.uniqueCandidates.length ≤ target limit
  done : s.donePromoting = true ↔ target limit ≤ s.uniqueCandidates.length

/-- What has been popped is promoted, up to the limit. -/
lemma Popping.promoted {c : Queues} {unique : List Nat} (short : unique.length < target limit)
    (popping : Popping limit ⟨c, unique, [], false⟩ ps s) : Promoted limit unique (ps.map Candidate.addr) s := by
  induction popping with
  | nil =>
    refine ⟨rfl, (List.append_nil _).symm, short.le, ?_⟩
    exact iff_of_false Bool.false_ne_true (Nat.not_le_of_lt short)
  | drop _ _ ih => exact ⟨ih.promoted, ih.known, ih.within, ih.done⟩
  | @pop ps s tid tup q _ going look ih =>
    have room : s.uniqueCandidates.length < target limit :=
      Nat.lt_of_not_le fun full => by rw [ih.done.mpr full] at going; cases going
    have new : fresh unique ((ps ++ [tup]).map Candidate.addr) = fresh unique (ps.map Candidate.addr) ++
        if tup.addr ∈ s.uniqueCandidates then [] else [tup.addr] := by
      rw [List.map_append, fresh_append, ← ih.known]
      rfl
    have length : (s.uniqueCandidates ++ [tup.addr]).length = s.uniqueCandidates.length + 1 :=
      List.length_append
    unfold promote
    dsimp only
    split at new
    case isTrue again =>
      rw [List.append_nil] at new
      rw [if_pos again]
      refine ⟨?_, ?_, ih.within, ih.done⟩
      · rw [new]
        exact ih.promoted
      · rw [new]
        exact ih.known
    case isFalse first =>
      rw [if_neg first]
      refine ⟨?_, ?_, ?_, ?_⟩
      · rw [new, ih.promoted]
      · rw [new, ih.known, List.append_assoc]
      · exact length ▸ room
      · show (s.donePromoting || decide (limit ≤ (s.uniqueCandidates ++ [tup.addr]).length)) = true ↔ _
        rw [going, Bool.false_or, decide_eq_true_eq]
        exact limit_le_iff (length ▸ Nat.succ_pos _)

/-- When the loop for a time is over, some candidates have been popped, all of them unless the limit is reached. -/
lemma select_popping {POLICY : Int} {c : Queues} {unique : List Nat}
    (h : select POLICY limit c unique = some s) :
    (∃ ps, Popping limit ⟨c, unique, [], false⟩ ps s) ∧ (s.donePromoting = false → ∀ k, s.queue k = []) := by
  obtain ⟨heads, ended⟩ := whileLoop_heads h
  refine ⟨?_, ?_⟩
  · clear h ended
    induction heads with
    | start => exact ⟨[], .nil⟩
    | round _ more step ih =>
      obtain ⟨ps, popping⟩ := ih
      have going := (selecting_iff.mp more).1
      unfold selectStep at step
      split at step
      case isTrue =>
        obtain rfl := Option.some.inj step
        obtain ⟨qs, popping⟩ := popping.roundRobin going _
        exact ⟨_, popping⟩
      case isFalse =>
        split at step
        case isTrue =>
          obtain ⟨qs, popping⟩ := popping.highestFrequency going step
          exact ⟨_, popping⟩
        case isFalse =>
          obtain rfl := Option.some.inj step
          exact ⟨ps, popping⟩
  · exact fun going k => queue_of_ended going ended k

/-- The loop for a time ends, for lists that are not empty. -/
lemma exists_select (POLICY limit : Int) {c : Queues} (unique : List Nat)
    (stocked : Stocked ⟨c, unique, [], false⟩) : ∃ s, select POLICY limit c unique = some s := by
  by_cases policy : POLICY = 0
  · obtain ⟨s, h, _⟩ := select_rounds limit c unique
    exact ⟨s, policy ▸ h⟩
  · obtain ⟨s, _, h, _⟩ := select_byFrequency limit policy c unique stocked
    exact ⟨s, h⟩

end

/-- The loop over the times, which keeps what the loop for each time ended with. -/
def selections (POLICY promotionLimit : Int) (candidates : Candidates) (uniqueCandidates : List Nat) :
    List Nat → Option (List (Nat × Selection))
  | [] => some []
  | time :: times => do
    let s ← select POLICY promotionLimit ((candidates.lookup time).getD ∅) uniqueCandidates
    if s.donePromoting then some [(time, s)]
    else do
      let rest ← selections POLICY promotionLimit candidates s.uniqueCandidates times
      some ((time, s) :: rest)

/-- No list is empty. -/
def Filled (c : Candidates) : Prop := ∀ queues ∈ c.entries, ∀ queue ∈ queues.2.entries, queue.2 ≠ []

instance (c : Candidates) : Decidable (Filled c) :=
  inferInstanceAs (Decidable (∀ queues ∈ c.entries, ∀ queue ∈ queues.2.entries, queue.2 ≠ []))

/-- The address stands in the list of some thread. -/
def ListedAt (c : Candidates) (time addr : Nat) : Prop :=
  ∃ tid, addr ∈ (queue c time tid).map Candidate.addr

/-- The address is popped from the list of some thread. -/
def PoppedAt (c : Candidates) (sels : List (Nat × Selection)) (time addr : Nat) : Prop :=
  ∃ s, (time, s) ∈ sels ∧ ∃ tid pre, queue c time tid = pre ++ s.queue tid ∧ addr ∈ pre.map Candidate.addr

/-- The addresses in all lists. -/
def addresses (c : Candidates) : List Nat :=
  c.entries.flatMap fun queues => queues.2.entries.flatMap fun queue => queue.2.map Candidate.addr

/-- The file holds each address once, at the time at which it is popped first, and as many as it may. -/
structure Selected (promotionLimit offset : Int) (c : Candidates) (sels : List (Nat × Selection))
    (file : List (Nat × Int)) : Prop where
  once : (file.map Prod.snd).Nodup
  first : ∀ time x, (time, x) ∈ file → ∃ addr : Nat, x = addr + offset ∧
    PoppedAt c sels time addr ∧ ∀ earlier < time, ¬ PoppedAt c sels earlier addr
  length : 1 ≤ (addresses c).toFinset.card →
    (file.length : Int) = min (max promotionLimit 1) (addresses c).toFinset.card
  all : (file.length : Int) < promotionLimit → ∀ time addr : Nat,
    (time, (addr : Int) + offset) ∈ file ↔
      ListedAt c time addr ∧ ∀ earlier < time, ¬ ListedAt c earlier addr

/-- What the loop over the times pops, in this order, and the promotions that come of it. -/
structure Pops (limit : Int) (c : Candidates) (known times : List Nat) (sels : List (Nat × Selection))
    (popped : List (Nat × Nat)) : Prop where
  mem : ∀ time addr, (time, addr) ∈ popped ↔ PoppedAt c sels time addr
  ascending : popped.Pairwise fun x y => x.1 ≤ y.1
  only : ∀ x ∈ popped, x.1 ∈ times
  promoted : (sels.flatMap fun x => x.2.toPromote.map fun addr => (x.1, addr)) = firstListed known popped
  within : known.length + (firstListed known popped).length ≤ target limit
  all : known.length + (firstListed known popped).length < target limit →
    ∀ time ∈ times, ∀ addr, ListedAt c time addr → PoppedAt c sels time addr

section
variable {POLICY limit offset : Int} {c : Candidates} {known times : List Nat} {sels : List (Nat × Selection)}

/-- The file has the promotions of all times. -/
lemma writeFrom_selections : writeFrom POLICY limit offset c known times =
    (selections POLICY limit c known times).map fun sels =>
      sels.flatMap fun x => linesOf offset x.1 x.2.toPromote := by
  induction times generalizing known with
  | nil => rfl
  | cons time times ih =>
    rw [writeFrom, selections]
    cases select POLICY limit ((c.lookup time).getD ∅) known with
    | none => rfl
    | some s =>
      simp only [Option.bind_eq_bind, Option.bind_some]
      cases s.donePromoting with
      | true => simp [linesOf]
      | false =>
        rw [if_neg Bool.false_ne_true, if_neg Bool.false_ne_true, ih]
        cases selections POLICY limit c s.uniqueCandidates times with
        | none => rfl
        | some rest => rfl

/-- The lines of the file are those of the promotions. -/
lemma lines_perm : (sels.flatMap fun x => linesOf offset x.1 x.2.toPromote).Perm
    ((sels.flatMap fun x => x.2.toPromote.map fun addr => (x.1, addr)).map (lineOf offset)) := by
  induction sels with
  | nil => exact .refl _
  | cons x sels ih =>
    rw [List.flatMap_cons, List.flatMap_cons, List.map_append]
    exact linesOf_perm.append ih

/-- The addresses of the candidates are those that are listed. -/
lemma mem_addresses {addr : Nat} : addr ∈ addresses c ↔ ∃ time, ListedAt c time addr := by
  unfold addresses ListedAt
  simp only [List.mem_flatMap]
  constructor
  · rintro ⟨⟨time, queues⟩, outer, ⟨tid, q⟩, inner, mem⟩
    refine ⟨time, tid, ?_⟩
    rw [queue, AList.mem_lookup_iff.mpr outer, Option.getD_some, AList.mem_lookup_iff.mpr inner]
    exact mem
  · rintro ⟨time, tid, mem⟩
    unfold queue at mem
    cases outer : c.lookup time with
    | none =>
      rw [outer, Option.getD_none, AList.lookup_empty] at mem
      cases mem
    | some queues =>
      rw [outer, Option.getD_some] at mem
      cases inner : queues.lookup tid with
      | none =>
        rw [inner] at mem
        cases mem
      | some q =>
        rw [inner] at mem
        exact ⟨⟨time, queues⟩, AList.mem_lookup_iff.mp outer, ⟨tid, q⟩, AList.mem_lookup_iff.mp inner, mem⟩

/-- What is popped has been listed. -/
lemma PoppedAt.listed {time addr : Nat} (h : PoppedAt c sels time addr) : ListedAt c time addr := by
  obtain ⟨s, _, tid, pre, parts, mem⟩ := h
  refine ⟨tid, ?_⟩
  rw [parts, List.map_append]
  exact List.mem_append_left _ mem

/-- What is popped at the first time, and at the others. -/
lemma poppedAt_cons {time addr time' : Nat} {s : Selection} :
    PoppedAt c ((time', s) :: sels) time addr ↔
      (time = time' ∧ ∃ tid pre, queue c time' tid = pre ++ s.queue tid ∧ addr ∈ pre.map Candidate.addr) ∨
        PoppedAt c sels time addr := by
  constructor
  · rintro ⟨s', mem, popped⟩
    rcases List.mem_cons.mp mem with e | mem
    · obtain ⟨rfl, rfl⟩ := Prod.mk.inj e
      exact .inl ⟨rfl, popped⟩
    · exact .inr ⟨s', mem, popped⟩
  · rintro (⟨rfl, popped⟩ | ⟨s', mem, popped⟩)
    · exact ⟨s, List.mem_cons_self, popped⟩
    · exact ⟨s', List.mem_cons_of_mem _ mem, popped⟩

/-- Nothing is popped after the last time, or once the limit is reached. -/
lemma Pops.nil (within : known.length ≤ target limit) (ended : known.length < target limit → times = []) :
    Pops limit c known times [] [] := by
  refine ⟨?_, .nil, nofun, rfl, within, ?_⟩
  · intro time addr
    exact iff_of_false List.not_mem_nil fun ⟨_, mem, _⟩ => List.not_mem_nil mem
  · intro room time mem
    rw [ended room] at mem
    cases mem

/-- The pops of one time come before those of the later ones. -/
lemma Pops.cons {time : Nat} {s : Selection} {ps : List Candidate} {popped : List (Nat × Nat)}
    (short : known.length < target limit)
    (popping : Popping limit ⟨(c.lookup time).getD ∅, known, [], false⟩ ps s)
    (ended : s.donePromoting = false → ∀ k, s.queue k = []) (after : ∀ later ∈ times, time < later)
    (pops : Pops limit c s.uniqueCandidates times sels popped) :
    Pops limit c known (time :: times) ((time, s) :: sels)
      ((ps.map Candidate.addr).map (fun addr => (time, addr)) ++ popped) := by
  have now := popping.promoted short
  have length : s.uniqueCandidates.length = known.length + (fresh known (ps.map Candidate.addr)).length := by
    rw [now.known, List.length_append]
  have here : ∀ x ∈ (ps.map Candidate.addr).map (fun addr => (time, addr)), x.1 = time := by
    intro x mem
    obtain ⟨addr, _, rfl⟩ := List.mem_map.mp mem
    rfl
  have total : known.length + (firstListed known
      ((ps.map Candidate.addr).map (fun addr => (time, addr)) ++ popped)).length =
        s.uniqueCandidates.length + (firstListed s.uniqueCandidates popped).length := by
    rw [firstListed_append, ← now.known, List.length_append, List.length_map, length, Nat.add_assoc]
  refine ⟨?_, ?_, ?_, ?_, total ▸ pops.within, ?_⟩
  · intro time' addr
    rw [List.mem_append, poppedAt_cons, pops.mem, List.mem_map]
    refine or_congr_left ?_
    constructor
    · rintro ⟨_, mem, e⟩
      obtain ⟨rfl, rfl⟩ := Prod.mk.inj e
      exact ⟨rfl, popping.popped.mpr mem⟩
    · rintro ⟨rfl, popped⟩
      exact ⟨addr, popping.popped.mp popped, rfl⟩
  · refine List.pairwise_append.mpr ⟨?_, pops.ascending, ?_⟩
    · refine List.pairwise_of_forall_mem_list ?_
      intro x hx y hy
      rw [here x hx, here y hy]
    · intro x hx y hy
      rw [here x hx]
      exact (after _ (pops.only y hy)).le
  · intro x mem
    rcases List.mem_append.mp mem with now | later
    · rw [here x now]
      exact List.mem_cons_self
    · exact List.mem_cons_of_mem _ (pops.only x later)
  · rw [List.flatMap_cons, pops.promoted, firstListed_append, ← now.known, now.promoted]
  · rw [total]
    intro room time' mem addr listed
    rw [poppedAt_cons]
    rcases List.mem_cons.mp mem with rfl | mem
    · obtain ⟨tid, listed⟩ := listed
      have going : s.donePromoting = false := by
        rw [← Bool.not_eq_true, now.done]
        omega
      refine .inl ⟨rfl, tid, _, ?_, listed⟩
      rw [ended going tid, List.append_nil]
    · exact .inr (pops.all room time' mem addr listed)

/-- The loop over the times ends, for lists that are not empty. -/
lemma exists_selections (POLICY : Int)
    (stocked : ∀ time unique, Stocked ⟨(c.lookup time).getD ∅, unique, [], false⟩)
    (short : known.length < target limit) (ascending : times.Pairwise (· < ·)) :
    ∃ sels popped, selections POLICY limit c known times = some sels ∧ Pops limit c known times sels popped := by
  induction times generalizing known with
  | nil => exact ⟨[], [], rfl, .nil short.le fun _ => rfl⟩
  | cons time times ih =>
    obtain ⟨after, ascending⟩ := List.pairwise_cons.mp ascending
    obtain ⟨s, hs⟩ := exists_select POLICY limit known (stocked time known)
    obtain ⟨⟨ps, popping⟩, ended⟩ := select_popping hs
    have now := popping.promoted short
    rw [selections, hs]
    simp only [Option.bind_eq_bind, Option.bind_some]
    cases stop : s.donePromoting with
    | true =>
      have full := now.done.mp stop
      have none : Pops limit c s.uniqueCandidates times [] [] :=
        .nil now.within fun room => absurd room (Nat.not_lt_of_le full)
      exact ⟨_, _, rfl, .cons short popping ended after none⟩
    | false =>
      have room : s.uniqueCandidates.length < target limit := by
        rw [← Nat.not_le, ← now.done, stop]
        exact Bool.false_ne_true
      obtain ⟨sels, popped, hsels, pops⟩ := ih room ascending
      rw [hsels]
      exact ⟨_, _, rfl, .cons short popping ended after pops⟩

/-- With lists that are not empty, no queue is empty. -/
lemma Filled.stocked (filled : Filled c) (time : Nat) (unique : List Nat) :
    Stocked ⟨(c.lookup time).getD ∅, unique, [], false⟩ := by
  intro tid mem empty
  cases outer : c.lookup time with
  | none =>
    rw [outer] at mem
    cases mem
  | some queues =>
    rw [outer] at mem empty
    obtain ⟨q, look⟩ := Option.isSome_iff_exists.mp (AList.lookup_isSome.mpr mem)
    obtain rfl : q = [] := (queue_of_lookup look).symm.trans empty
    exact filled _ (AList.mem_lookup_iff.mp outer) _ (AList.mem_lookup_iff.mp look) rfl

/-- A line of the file is one of the pairs. -/
lemma mem_lines {file : List (Nat × Int)} {pairs : List (Nat × Nat)} {time addr : Nat}
    (perm : file.Perm (pairs.map (lineOf offset))) :
    (time, (addr : Int) + offset) ∈ file ↔ (time, addr) ∈ pairs := by
  rw [perm.mem_iff, List.mem_map]
  constructor
  · rintro ⟨⟨time', addr'⟩, mem, e⟩
    obtain ⟨rfl, e'⟩ := Prod.mk.inj e
    obtain rfl : addr' = addr := by omega
    exact mem
  · exact fun mem => ⟨_, mem, rfl⟩

/-- The times go up. -/
lemma times_lt (c : Candidates) : (Mt.times c).Pairwise (· < ·) := mergeSort_keys_lt c

/-- What is listed has a time. -/
lemma ListedAt.mem_times {time addr : Nat} (h : ListedAt c time addr) : time ∈ Mt.times c := by
  obtain ⟨tid, mem⟩ := h
  refine (List.mergeSort_perm _ _).mem_iff.mpr ?_
  by_contra out
  rw [queue, AList.lookup_eq_none.mpr out, Option.getD_none, AList.lookup_empty] at mem
  cases mem

/-- As many addresses are promoted as there are, up to the limit. -/
lemma Pops.length {popped : List (Nat × Nat)} (pops : Pops limit c [] (Mt.times c) sels popped) :
    (firstListed [] popped).length = min (target limit) (addresses c).toFinset.card := by
  have mem : ∀ addr, addr ∈ (firstListed [] popped).map Prod.snd ↔ ∃ time, PoppedAt c sels time addr := by
    intro addr
    rw [firstListed_addrs, mem_fresh, and_iff_left List.not_mem_nil, List.mem_map]
    constructor
    · rintro ⟨⟨time, _⟩, mem, rfl⟩
      exact ⟨time, (pops.mem time _).mp mem⟩
    · rintro ⟨time, popped⟩
      exact ⟨(time, addr), (pops.mem time addr).mpr popped, rfl⟩
  have card : ((firstListed [] popped).map Prod.snd).toFinset.card = (firstListed [] popped).length := by
    rw [List.toFinset_card_of_nodup nodup_firstListed, List.length_map]
  have some : ((firstListed [] popped).map Prod.snd).toFinset.card ≤ (addresses c).toFinset.card := by
    refine Finset.card_le_card ?_
    intro addr
    rw [List.mem_toFinset, List.mem_toFinset, mem, mem_addresses]
    exact fun ⟨time, popped⟩ => ⟨time, popped.listed⟩
  have within := pops.within
  rw [List.length_nil, Nat.zero_add] at within
  by_cases room : (firstListed [] popped).length < target limit
  · have all : (addresses c).toFinset.card ≤ ((firstListed [] popped).map Prod.snd).toFinset.card := by
      refine Finset.card_le_card ?_
      intro addr
      rw [List.mem_toFinset, List.mem_toFinset, mem, mem_addresses]
      rintro ⟨time, listed⟩
      exact ⟨time, pops.all (by rwa [List.length_nil, Nat.zero_add]) time listed.mem_times addr listed⟩
    omega
  · omega

/-- For lists that are not empty, the script writes each address once and when it is popped first, as many as it may,
    and if it may write all, then each at the first time at which it is listed. -/
theorem writePromotions_selected (POLICY limit offset : Int) (c : Candidates) (filled : Filled c) :
    ∃ sels file, selections POLICY limit c [] (Mt.times c) = some sels ∧
      writePromotions POLICY limit offset c = some file ∧ Selected limit offset c sels file := by
  have short : ([] : List Nat).length < target limit := by
    unfold target
    exact Nat.lt_of_lt_of_le Nat.zero_lt_one (Nat.le_max_left _ _)
  obtain ⟨sels, popped, hsels, pops⟩ := exists_selections POLICY filled.stocked short (times_lt c)
  have hfile : writePromotions POLICY limit offset c =
      some (sels.flatMap fun x => linesOf offset x.1 x.2.toPromote) := by
    rw [writePromotions, writeFrom_selections, hsels]
    rfl
  have perm := @lines_perm offset sels
  rw [pops.promoted] at perm
  have least : ∀ time addr, (time, addr) ∈ firstListed [] popped ↔
      PoppedAt c sels time addr ∧ ∀ earlier < time, ¬ PoppedAt c sels earlier addr := by
    intro time addr
    rw [mem_firstListed pops.ascending, pops.mem, and_iff_right List.not_mem_nil]
    refine and_congr_right fun _ => forall_congr' fun earlier => ?_
    rw [pops.mem, ← Nat.not_lt]
    exact ⟨fun h lt popped => h popped lt, fun h popped lt => h lt popped⟩
  have length := perm.length_eq
  rw [List.length_map] at length
  refine ⟨sels, _, hsels, hfile, ?_, ?_, ?_, ?_⟩
  · refine @nodup_lines offset popped _ (firstListed [] popped).length ?_
    rw [List.take_length]
    exact perm
  · intro time x mem
    obtain ⟨⟨time', addr⟩, written, e⟩ := List.mem_map.mp (perm.mem_iff.mp mem)
    obtain ⟨rfl, rfl⟩ := Prod.mk.inj e
    exact ⟨addr, rfl, (least _ _).mp written⟩
  · intro some
    rw [length, pops.length]
    unfold target
    omega
  · intro room time addr
    rw [length] at room
    have every : ∀ time, PoppedAt c sels time addr ↔ ListedAt c time addr := by
      intro time
      refine ⟨PoppedAt.listed, fun listed => pops.all ?_ time listed.mem_times addr listed⟩
      rw [List.length_nil, Nat.zero_add]
      unfold target
      omega
    rw [mem_lines perm, least]
    simp only [every]

/-- Two threads with a candidate in common. -/
def inCommon : Candidates :=
  let queues : Queues := AList.singleton 0 [⟨10, 5⟩, ⟨11, 2⟩]
  AList.singleton 0 (queues.insert 1 [⟨10, 3⟩])

/-- Two threads with a candidate in common. -/
theorem writePromotions_selected_inCommon :
    ∃ sels file, selections 1 9 inCommon [] (Mt.times inCommon) = some sels ∧
      writePromotions 1 9 0 inCommon = some file ∧ Selected 9 0 inCommon sels file :=
  writePromotions_selected 1 9 0 inCommon (by decide)

end

end PromotionCache.Scripts.Mt
