import PromotionCache.Scripts.PromotionsMt
import PromotionCache.Scripts.GetPromotions
import PromotionCache.Lib.Queues
import Mathlib.Data.Finset.Max

/-!
# The policy of the promotions

Both policies take the head of some queue of candidates, again and again, until the limit is reached: by
rounds over the threads, or each time one with the highest frequency. What is promoted at a time depends
on the order only if the limit is reached there with new regions left over. The script always goes
by rounds (`select_rounds`); `policy_iff` says when its file is one by frequency nevertheless.
-/

namespace PromotionCache.Scripts.Mt
open Lib

/-- The candidates of a thread at a time. -/
def queue (c : Candidates) (time tid : Nat) : List Candidate :=
  (((c.lookup time).getD ∅).lookup tid).getD []

/-- The head of this queue has the highest frequency. -/
def Highest (queues : Nat → List Candidate) (tid : Nat) : Prop :=
  ∀ tid' x y, (queues tid).head? = some x → (queues tid').head? = some y → y.cacheFreq ≤ x.cacheFreq

/-- The threads that have candidates at a time, in ascending order. -/
def tidsAt (c : Candidates) (time : Nat) : List Nat :=
  ((c.lookup time).getD ∅).keys.mergeSort (· ≤ ·)

/-- The regions of a time in rounds over the threads. -/
def inRounds (c : Candidates) (time : Nat) : List Nat :=
  let tids := tidsAt c time
  (rounds tids (tids.map fun tid => (queue c time tid).length).sum (queue c time)).map Candidate.addr

/-- An order of the regions of a time in which each time one of the highest frequency is next. -/
def ByFrequency (c : Candidates) (time : Nat) (addrs : List Nat) : Prop :=
  ∃ order, Drains Highest (queue c time) order ∧ addrs = order.map Candidate.addr

/-- The lines of the promotion file for a time. -/
def linesOf (offset : Int) (time : Nat) (toPromote : List Nat) : List (Nat × Int) :=
  (toPromote.mergeSort (· ≤ ·)).map fun addr : Nat => (time, (addr : Int) + offset)

/-- The promotion file, if at each time the regions come in an order that the policy allows. -/
inductive WrittenBy (promotionLimit offset : Int) (policy : Nat → List Nat → Prop) :
    List Nat → List Nat → List (Nat × Int) → Prop where
  | nil {unique} : WrittenBy promotionLimit offset policy unique [] []
  | stop {unique unique' toPromote time times addrs} :
    policy time addrs →
    promoteFrom promotionLimit unique [] addrs = (unique', toPromote, true) →
    WrittenBy promotionLimit offset policy unique (time :: times) (linesOf offset time toPromote)
  | next {unique unique' toPromote time times addrs rest} :
    policy time addrs →
    promoteFrom promotionLimit unique [] addrs = (unique', toPromote, false) →
    WrittenBy promotionLimit offset policy unique' times rest →
    WrittenBy promotionLimit offset policy unique (time :: times)
      (linesOf offset time toPromote ++ rest)

/-- The file by rounds over the threads. -/
def RoundRobinFile (promotionLimit offset : Int) (c : Candidates) : List (Nat × Int) → Prop :=
  WrittenBy promotionLimit offset (fun time addrs => addrs = inRounds c time) [] (times c)

/-- A file by frequency; candidates of the same frequency come in any order. -/
def HighestFrequencyFile (promotionLimit offset : Int) (c : Candidates) : List (Nat × Int) → Prop :=
  WrittenBy promotionLimit offset (ByFrequency c) [] (times c)

/-- The file is one by the policy that was asked for. -/
def ByPolicy (promotionLimit offset : Int) (c : Candidates) (policy : Int) (file : List (Nat × Int)) :
    Prop :=
  (policy = 1 → HighestFrequencyFile promotionLimit offset c file) ∧
    (policy = 0 → RoundRobinFile promotionLimit offset c file)

/-- The regions that are new at their first place. -/
def fresh (unique : List Nat) : List Nat → List Nat
  | [] => []
  | addr :: addrs =>
    if addr ∈ unique then fresh unique addrs else addr :: fresh (unique ++ [addr]) addrs

/-- The number of regions after which the script stops; it promotes one before it looks. -/
def target (promotionLimit : Int) : Nat := max 1 promotionLimit.toNat

section
variable {limit offset : Int} {unique unique' addrs addrs' : List Nat}

/-- The fresh addresses are those that are not promoted yet. -/
lemma mem_fresh {a : Nat} : a ∈ fresh unique addrs ↔ a ∈ addrs ∧ a ∉ unique := by
  induction addrs generalizing unique with
  | nil => simp [fresh]
  | cons addr addrs ih =>
    rw [fresh]
    split
    case isTrue known =>
      rw [ih, List.mem_cons]
      constructor
      · exact fun h => ⟨.inr h.1, h.2⟩
      · rintro ⟨rfl | listed, new⟩
        · exact absurd known new
        · exact ⟨listed, new⟩
    case isFalse new =>
      rw [List.mem_cons, ih, List.mem_cons, List.mem_append, List.mem_singleton]
      by_cases same : a = addr
      · simp [same, new]
      · simp [same]

/-- No address is fresh twice. -/
lemma nodup_fresh : (fresh unique addrs).Nodup := by
  induction addrs generalizing unique with
  | nil => exact List.nodup_nil
  | cons addr addrs ih =>
    rw [fresh]
    split
    case isTrue => exact ih
    case isFalse =>
      refine List.nodup_cons.mpr ⟨?_, ih⟩
      intro again
      exact (mem_fresh.mp again).2 (List.mem_append_right _ (List.mem_singleton_self _))

/-- What is new depends on which regions are known. -/
lemma fresh_congr (same : ∀ a, a ∈ unique ↔ a ∈ unique') : fresh unique addrs = fresh unique' addrs := by
  induction addrs generalizing unique unique' with
  | nil => rfl
  | cons addr addrs ih =>
    have same' : ∀ a, a ∈ unique ++ [addr] ↔ a ∈ unique' ++ [addr] := by
      intro a
      rw [List.mem_append, List.mem_append, same]
    rw [fresh, fresh, ih same, ih same']
    simp only [same]

/-- The new regions of two orders of the same candidates. -/
lemma fresh_perm (same : ∀ a, a ∈ addrs ↔ a ∈ addrs') :
    (fresh unique addrs).Perm (fresh unique addrs') := by
  apply (List.perm_ext_iff_of_nodup nodup_fresh nodup_fresh).mpr
  intro a
  rw [mem_fresh, mem_fresh, same]

/-- A limit below 1 stops where 1 does. -/
lemma limit_le_iff {n : Nat} (pos : 1 ≤ n) : limit ≤ n ↔ target limit ≤ n := by
  unfold target
  omega

/-- Below its limit the loop over the candidates takes the new regions up to the limit. -/
lemma promoteFrom_eq (short : unique.length < target limit) (toPromote : List Nat) :
    promoteFrom limit unique toPromote addrs =
      (unique ++ (fresh unique addrs).take (target limit - unique.length),
        toPromote ++ (fresh unique addrs).take (target limit - unique.length),
        decide (target limit ≤ unique.length + (fresh unique addrs).length)) := by
  induction addrs generalizing unique toPromote with
  | nil =>
    have below : ¬ target limit ≤ unique.length := Nat.not_le_of_lt short
    simp [promoteFrom, fresh, below]
  | cons addr addrs ih =>
    rw [promoteFrom, fresh]
    split
    case isTrue => exact ih short toPromote
    case isFalse new =>
      have len : (unique ++ [addr]).length = unique.length + 1 := List.length_append
      have take : ∀ xs : List Nat, (addr :: xs).take (target limit - unique.length) =
          addr :: xs.take (target limit - (unique.length + 1)) := by
        intro xs
        obtain ⟨k, hk⟩ : ∃ k, target limit - unique.length = k + 1 :=
          ⟨target limit - unique.length - 1, by omega⟩
        rw [hk, List.take_succ_cons, ← Nat.sub_sub, hk, Nat.add_sub_cancel]
      dsimp only
      rw [take, len]
      split
      case isTrue full =>
        have full := (limit_le_iff (Nat.le_add_left 1 _)).mp full
        have none : target limit - (unique.length + 1) = 0 := Nat.sub_eq_zero_of_le full
        have reached : target limit ≤ unique.length + ((fresh (unique ++ [addr]) addrs).length + 1) := by
          omega
        rw [none, List.take_zero, List.length_cons, decide_eq_true reached]
      case isFalse room =>
        have room := mt (limit_le_iff (Nat.le_add_left 1 _)).mpr room
        rw [ih (by rw [len]; omega), len, List.length_cons, List.append_assoc, List.append_assoc,
          Nat.add_assoc, Nat.add_comm 1]
        rfl

end

/-- The candidates of a thread that are left. -/
def Selection.queue (s : Selection) (tid : Nat) : List Candidate := (s.candidates.lookup tid).getD []

/-- What is left of a thread, counting the list and its end. -/
def Selection.left (s : Selection) (tid : Nat) : Nat :=
  ((s.candidates.lookup tid).map fun queue => queue.length + 1).getD 0

/-- What the loop over the candidates of `get_promotions.py` would have done with the candidates so far,
    if these are what is still to come. -/
def Selection.to (limit : Int) (s : Selection) (addrs : List Nat) : List Nat × List Nat × Bool :=
  if s.donePromoting then (s.uniqueCandidates, s.toPromote, true)
  else promoteFrom limit s.uniqueCandidates s.toPromote addrs

/-- One iteration of `for tid in tids`. -/
def turn (promotionLimit : Int) (s : Selection) (tid : Nat) : Selection :=
  match s.candidates.lookup tid with
  | some (tup :: queue) =>
    promote promotionLimit { s with candidates := s.candidates.insert tid queue } tup.addr
  | some [] => { s with candidates := s.candidates.erase tid }
  | none => s

section
variable {limit offset : Int} {s t : Selection} {tid addr : Nat} {tids addrs rest : List Nat}

/-- The first address is promoted, and then the others. -/
lemma promote_to (going : s.donePromoting = false) :
    s.to limit (addr :: addrs) = (promote limit s addr).to limit addrs := by
  unfold Selection.to promote
  rw [going, if_neg Bool.false_ne_true, promoteFrom]
  split
  case isTrue => rw [going, if_neg Bool.false_ne_true]
  case isFalse =>
    simp only [Bool.false_or, decide_eq_true_eq]

/-- A promotion takes no candidate away. -/
@[simp] lemma promote_candidates : (promote limit s addr).candidates = s.candidates := by
  unfold promote
  split <;> rfl

/-- The queues after one of them has been replaced. -/
@[simp] lemma queue_insert {q : List Candidate} {k : Nat} :
    ({ s with candidates := s.candidates.insert tid q } : Selection).queue k =
      if k = tid then q else s.queue k := by
  unfold Selection.queue
  split
  case isTrue e => rw [e, AList.lookup_insert]; rfl
  case isFalse ne => rw [AList.lookup_insert_ne ne]

/-- What is left after one of the queues has been replaced. -/
@[simp] lemma left_insert {q : List Candidate} {k : Nat} :
    ({ s with candidates := s.candidates.insert tid q } : Selection).left k =
      if k = tid then q.length + 1 else s.left k := by
  unfold Selection.left
  split
  case isTrue e => rw [e, AList.lookup_insert]; rfl
  case isFalse ne => rw [AList.lookup_insert_ne ne]

/-- The queues after a thread has been erased. -/
@[simp] lemma queue_erase {k : Nat} :
    ({ s with candidates := s.candidates.erase tid } : Selection).queue k =
      if k = tid then [] else s.queue k := by
  unfold Selection.queue
  split
  case isTrue e => rw [e, AList.lookup_erase]; rfl
  case isFalse ne => rw [AList.lookup_erase_ne ne]

/-- What is left after a thread has been erased. -/
@[simp] lemma left_erase {k : Nat} :
    ({ s with candidates := s.candidates.erase tid } : Selection).left k =
      if k = tid then 0 else s.left k := by
  unfold Selection.left
  split
  case isTrue e => rw [e, AList.lookup_erase]; rfl
  case isFalse ne => rw [AList.lookup_erase_ne ne]

/-- The queue of a thread is its list. -/
lemma queue_of_lookup {q : List Candidate} (look : s.candidates.lookup tid = some q) : s.queue tid = q := by
  rw [Selection.queue, look]
  rfl

/-- A list counts one turn more than it has candidates. -/
lemma left_of_lookup {q : List Candidate} (look : s.candidates.lookup tid = some q) : s.left tid = q.length + 1 := by
  rw [Selection.left, look]
  rfl

/-- A thread that has been deleted has nothing left. -/
lemma of_lookup_none (look : s.candidates.lookup tid = none) : s.queue tid = [] ∧ s.left tid = 0 := by
  rw [Selection.queue, Selection.left, look]
  exact ⟨rfl, rfl⟩

/-- A promotion leaves the queues alone. -/
@[simp] lemma queue_promote {k : Nat} : (promote limit s addr).queue k = s.queue k := by
  rw [Selection.queue, promote_candidates, Selection.queue]

/-- A promotion leaves alone what is left. -/
@[simp] lemma left_promote {k : Nat} : (promote limit s addr).left k = s.left k := by
  rw [Selection.left, promote_candidates, Selection.left]

/-- A turn takes the first candidate and promotes it. -/
lemma turn_head {tup : Candidate} {q : List Candidate} (look : s.candidates.lookup tid = some (tup :: q)) :
    turn limit s tid = promote limit { s with candidates := s.candidates.insert tid q } tup.addr := by
  simp only [turn, look]

/-- A turn takes at most the first of a queue. -/
lemma queue_turn (k : Nat) :
    (turn limit s tid).queue k = if k = tid then (s.queue k).tail else s.queue k := by
  cases look : s.candidates.lookup tid with
  | none =>
    simp only [turn, look]
    split
    case isTrue e =>
      rw [e, (of_lookup_none look).1]
      rfl
    case isFalse => rfl
  | some q =>
    cases q with
    | nil =>
      simp only [turn, look]
      rw [queue_erase]
      split
      case isTrue e => rw [e, queue_of_lookup look]; rfl
      case isFalse => rfl
    | cons tup q =>
      rw [turn_head look, queue_promote, queue_insert]
      split
      case isTrue e => rw [e, queue_of_lookup look]; rfl
      case isFalse => rfl

/-- A turn takes something away from its thread, and from no other. -/
lemma left_turn (k : Nat) : (turn limit s tid).left k = if k = tid then s.left k - 1 else s.left k := by
  cases look : s.candidates.lookup tid with
  | none =>
    simp only [turn, look]
    split
    case isTrue e => rw [e, (of_lookup_none look).2]
    case isFalse => rfl
  | some q =>
    cases q with
    | nil =>
      simp only [turn, look]
      rw [left_erase]
      split
      case isTrue e => rw [e, left_of_lookup look]; rfl
      case isFalse => rfl
    | cons tup q =>
      rw [turn_head look, left_promote, left_insert]
      split
      case isTrue e => rw [e, left_of_lookup look]; rfl
      case isFalse => rfl

/-- A turn does what the loop of `get_promotions.py` does with the head of the queue. -/
lemma turn_to (going : s.donePromoting = false) (tid : Nat) (rest : List Nat) :
    s.to limit ((s.queue tid).head?.toList.map Candidate.addr ++ rest) = (turn limit s tid).to limit rest := by
  cases look : s.candidates.lookup tid with
  | none =>
    rw [(of_lookup_none look).1]
    simp only [turn, look]
    rfl
  | some q =>
    rw [queue_of_lookup look]
    cases q with
    | nil =>
      simp only [turn, look]
      rfl
    | cons tup q =>
      rw [turn_head look]
      exact promote_to (s := { s with candidates := s.candidates.insert tid q }) going

/-- The iterations of the loop over the threads; it stops at the limit. -/
lemma roundRobin_cons (going : s.donePromoting = false) :
    roundRobin limit s (tid :: tids) =
      if (turn limit s tid).donePromoting then turn limit s tid
      else roundRobin limit (turn limit s tid) tids := by
  rw [roundRobin]
  unfold turn
  cases s.candidates.lookup tid with
  | none => simp [going]
  | some q =>
    cases q with
    | nil => simp [going]
    | cons tup q => rfl

/-- A pass over the threads takes the head of every queue, until the limit is reached. -/
lemma roundRobin_spec (limit : Int) (nodup : tids.Nodup) (going : s.donePromoting = false) :
    (∀ rest, s.to limit ((tids.filterMap fun tid => (s.queue tid).head?).map Candidate.addr ++ rest) =
        (roundRobin limit s tids).to limit rest) ∧
      ((roundRobin limit s tids).donePromoting = false → ∀ k,
        (roundRobin limit s tids).queue k = (if k ∈ tids then (s.queue k).tail else s.queue k) ∧
          (roundRobin limit s tids).left k = if k ∈ tids then s.left k - 1 else s.left k) := by
  induction tids generalizing s with
  | nil => exact ⟨fun rest => rfl, fun _ k => ⟨rfl, rfl⟩⟩
  | cons tid tids ih =>
    obtain ⟨out, nodup⟩ := List.nodup_cons.mp nodup
    -- the turn of `tid` leaves the heads of the others
    have heads : ((tid :: tids).filterMap fun k => (s.queue k).head?) =
        (s.queue tid).head?.toList ++ tids.filterMap fun k => ((turn limit s tid).queue k).head? := by
      have same : (tids.filterMap fun k => ((turn limit s tid).queue k).head?) =
          tids.filterMap fun k => (s.queue k).head? := by
        apply List.filterMap_congr
        intro k mem
        rw [queue_turn, if_neg (ne_of_mem_of_not_mem mem out)]
      rw [same, List.filterMap_cons]
      cases (s.queue tid).head? <;> rfl
    rw [heads, roundRobin_cons going]
    cases stop : (turn limit s tid).donePromoting with
    | true =>
      rw [if_pos rfl]
      refine ⟨?_, fun more => by rw [stop] at more; cases more⟩
      intro rest
      rw [List.map_append, List.append_assoc, turn_to going, Selection.to, Selection.to, if_pos stop, if_pos stop]
    | false =>
      rw [if_neg Bool.false_ne_true]
      obtain ⟨comes, kept⟩ := ih nodup stop
      refine ⟨?_, ?_⟩
      · intro rest
        rw [List.map_append, List.append_assoc, turn_to going]
        exact comes rest
      · intro more k
        obtain ⟨queue, left⟩ := kept more k
        rw [queue, left, queue_turn, left_turn]
        rcases eq_or_ne k tid with rfl | ne
        · simp [out]
        · simp [ne]

/-- A thread without a list has no candidates left. -/
lemma queue_of_left (none : s.left tid = 0) : s.queue tid = [] ∧ tid ∉ s.candidates := by
  unfold Selection.left at none
  cases look : s.candidates.lookup tid with
  | none =>
    refine ⟨by rw [Selection.queue, look]; rfl, ?_⟩
    exact AList.lookup_eq_none.mp look
  | some q =>
    rw [look] at none
    cases none

/-- Only the threads that the loop goes over have lists. -/
lemma left_outside (c : Queues) (unique : List Nat) (out : tid ∉ c.keys.mergeSort (· ≤ ·)) :
    (⟨c, unique, [], false⟩ : Selection).left tid = 0 := by
  have none : c.lookup tid = none :=
    AList.lookup_eq_none.mpr fun mem => out ((List.mergeSort_perm _ _).mem_iff.mpr mem)
  exact (of_lookup_none none).2

/-- A thread that is there has something left. -/
lemma left_pos (mem : tid ∈ s.candidates.keys) : 0 < s.left tid := by
  obtain ⟨q, look⟩ := Option.isSome_iff_exists.mp (AList.lookup_isSome.mpr mem)
  rw [Selection.left, look]
  exact Nat.succ_pos _

/-- When the loop goes on, the limit is not reached and some thread has a list. -/
lemma selecting_iff :
    selecting s = true ↔ s.donePromoting = false ∧ ∃ tid, tid ∈ s.candidates.keys := by
  rw [selecting, Bool.and_eq_true, Bool.not_eq_true', decide_eq_true_eq, List.length_pos_iff_exists_mem]

/-- When the loop has ended below the limit, no candidates are left. -/
lemma queue_of_ended (going : s.donePromoting = false) (ended : selecting s = false) (k : Nat) : s.queue k = [] := by
  by_contra some
  have mem : k ∈ s.candidates.keys := by
    by_contra out
    exact some (of_lookup_none (AList.lookup_eq_none.mpr out)).1
  rw [selecting_iff.mpr ⟨going, k, mem⟩] at ended
  cases ended

/-- The order in which the rounds take the candidates of some threads. -/
def roundsOf (tids : List Nat) (n : Nat) (s : Selection) : List Nat :=
  (rounds tids n s.queue).map Candidate.addr

/-- The invariant of the loop: with what is still to come it will have done `result`. -/
def Selecting (limit : Int) (tids : List Nat) (result : List Nat × List Nat × Bool) (s : Selection) : Prop :=
  (s.donePromoting = true ∧ (s.uniqueCandidates, s.toPromote, true) = result) ∨
    (s.donePromoting = false ∧ (∀ k, k ∉ tids → s.left k = 0) ∧
      ∃ n, (∀ k, (s.queue k).length ≤ n) ∧ s.to limit (roundsOf tids n s) = result)

/-- A round keeps the invariant. -/
lemma Selecting.round {result} (nodup : tids.Nodup) (inv : Selecting limit tids result s)
    (more : selecting s = true) :
    Selecting limit tids result (roundRobin limit s tids) ∧
      ((roundRobin limit s tids).donePromoting = false →
        (tids.map (roundRobin limit s tids).left).sum < (tids.map s.left).sum) := by
  obtain ⟨going, key, mem⟩ := selecting_iff.mp more
  obtain ⟨stop, _⟩ | ⟨_, only, n, le, e⟩ := inv
  · rw [going] at stop
    cases stop
  obtain ⟨comes, kept⟩ := roundRobin_spec limit nodup going
  have first : roundsOf tids n s =
      ((tids.filterMap fun tid => (s.queue tid).head?).map Candidate.addr) ++
        (rounds tids (n - 1) fun k => (s.queue k).tail).map Candidate.addr := by
    rw [roundsOf, rounds_first fun k _ => le k, List.map_append]
  rw [first, comes] at e
  cases stop : (roundRobin limit s tids).donePromoting with
  | true =>
    refine ⟨.inl ⟨stop, ?_⟩, nofun⟩
    rw [Selection.to, if_pos stop] at e
    exact e
  | false =>
    have kept := kept stop
    have queues : (roundRobin limit s tids).queue = fun k => (s.queue k).tail := by
      funext k
      rw [(kept k).1]
      split
      case isTrue => rfl
      case isFalse out => rw [(queue_of_left (only k out)).1]; rfl
    have lefts : ∀ k, (roundRobin limit s tids).left k = s.left k - 1 := by
      intro k
      rw [(kept k).2]
      split
      case isTrue => rfl
      case isFalse out => rw [only k out]
    refine ⟨.inr ⟨stop, ?_, n - 1, ?_, ?_⟩, fun _ => ?_⟩
    · intro k out
      rw [lefts, only k out]
    · intro k
      rw [queues, List.length_tail]
      exact Nat.sub_le_sub_right (le k) 1
    · rw [roundsOf, queues]
      exact e
    · have here : key ∈ tids := by
        by_contra out
        exact (queue_of_left (only key out)).2 mem
      have pos := left_pos mem
      apply List.sum_lt_sum
      · intro k _
        rw [lefts]
        exact Nat.sub_le _ 1
      · refine ⟨key, here, ?_⟩
        rw [lefts]
        omega

/-- What the script does with the candidates of a time, with `POLICY` as it is: it goes by rounds. -/
lemma select_rounds (limit : Int) (c : Queues) (unique : List Nat) :
    ∃ t, select POLICY limit c unique = some t ∧
      (t.uniqueCandidates, t.toPromote, t.donePromoting) =
        promoteFrom limit unique []
          ((rounds (c.keys.mergeSort (· ≤ ·)) ((c.keys.mergeSort (· ≤ ·)).map fun tid =>
            ((c.lookup tid).getD []).length).sum fun tid => (c.lookup tid).getD []).map
              Candidate.addr) := by
  set tids := c.keys.mergeSort (· ≤ ·) with htids
  set start : Selection := ⟨c, unique, [], false⟩ with hstart
  have perm : tids.Perm c.keys := List.mergeSort_perm _ _
  have nodup : tids.Nodup := perm.nodup_iff.mpr c.keys_nodup
  set n := (tids.map fun tid => (start.queue tid).length).sum with hn
  have only : ∀ k, k ∉ tids → start.left k = 0 := fun k => left_outside c unique
  have le : ∀ k, (start.queue k).length ≤ n := by
    intro k
    by_cases mem : k ∈ tids
    · exact List.single_le_sum (fun _ _ => Nat.zero_le _) _ (List.mem_map_of_mem mem)
    · rw [(queue_of_left (only k mem)).1]
      exact Nat.zero_le _
  have base : Selecting limit tids (start.to limit (roundsOf tids n start)) start :=
    .inr ⟨rfl, only, n, le, rfl⟩
  have run : ∃ t, whileLoop selecting (selectStep POLICY limit tids) (left tids start + 2) start = some t ∧
      Selecting limit tids (start.to limit (roundsOf tids n start)) t ∧ selecting t = false := by
    apply whileLoop_enough _ (fun s => if s.donePromoting then 0 else (tids.map s.left).sum + 1) base
    · intro s inv more
      obtain ⟨inv', less⟩ := inv.round nodup more
      refine ⟨roundRobin limit s tids, rfl, inv', ?_⟩
      rw [(selecting_iff.mp more).1, if_neg Bool.false_ne_true]
      cases stop : (roundRobin limit s tids).donePromoting with
      | true => exact Nat.succ_pos _
      | false => exact Nat.succ_lt_succ (less stop)
    · exact Nat.lt_succ_self _
  obtain ⟨t, ht, inv, ended⟩ := run
  refine ⟨t, ht, ?_⟩
  show _ = start.to limit (roundsOf tids n start)
  obtain ⟨stop, e⟩ | ⟨going, only', m, _, e⟩ := inv
  · rw [stop]
    exact e
  · rw [← e, Selection.to, going, if_neg Bool.false_ne_true]
    have none := queue_of_ended going ended
    rw [roundsOf, rounds_nil fun k _ => none k]
    rfl

/-- Some queue of the highest frequency may be next, as long as there are candidates. -/
lemma exists_highest {queues : Nat → List Candidate} (only : ∀ k, k ∉ tids → queues k = [])
    (some : ∃ k, queues k ≠ []) : ∃ k, queues k ≠ [] ∧ Highest queues k := by
  obtain ⟨k₀, ne₀⟩ := some
  set candidates := tids.toFinset.filter fun k => queues k ≠ [] with hc
  have mem : ∀ k, k ∈ candidates ↔ queues k ≠ [] := by
    intro k
    rw [hc, Finset.mem_filter, List.mem_toFinset, and_iff_right_iff_imp]
    intro ne
    by_contra out
    exact ne (only k out)
  obtain ⟨k, hk, max⟩ := candidates.exists_max_image
    (fun k => ((queues k).head?.map Candidate.cacheFreq).getD 0) ⟨k₀, (mem k₀).mpr ne₀⟩
  refine ⟨k, (mem k).mp hk, ?_⟩
  intro k' x y hx hy
  have ne : queues k' ≠ [] := by
    rintro e
    rw [e] at hy
    cases hy
  have le := max k' ((mem k').mpr ne)
  rw [hx, hy] at le
  exact le

/-- The candidates of finitely many threads have an order by frequency. -/
lemma exists_byFrequency {queues : Nat → List Candidate} (only : ∀ k, k ∉ tids → queues k = []) :
    ∃ order, Drains Highest queues order :=
  exists_drains only fun _ only some => exists_highest only some

/-- The heads of the queues. -/
lemma mem_tups {x : Candidate} : (tid, x) ∈ tups s tids ↔ tid ∈ tids ∧ (s.queue tid).head? = some x := by
  have each : tups s tids = tids.filterMap fun k => (s.queue k).head?.map fun tup => (k, tup) := by
    unfold tups
    apply List.filterMap_congr
    intro k _
    unfold Selection.queue
    cases s.candidates.lookup k with
    | none => rfl
    | some q => cases q <;> rfl
  simp only [each, List.mem_filterMap, Option.map_eq_some_iff, Prod.mk.injEq]
  constructor
  · rintro ⟨k, mem, y, head, rfl, rfl⟩
    exact ⟨mem, head⟩
  · intro ⟨mem, head⟩
    exact ⟨tid, mem, x, head, rfl, rfl⟩

/-- Every thread that has a list has candidates left. -/
def Stocked (s : Selection) : Prop := ∀ tid, tid ∈ s.candidates.keys → s.queue tid ≠ []

/-- The first of the heads, sorted by frequency, is one of the highest frequency. -/
lemma exists_first (stocked : Stocked s) (only : ∀ k, k ∉ tids → s.left k = 0)
    (busy : ∃ tid, tid ∈ s.candidates.keys) :
    ∃ tid tup, ((tups s tids).mergeSort fun x y => y.2.cacheFreq ≤ x.2.cacheFreq).head? = some (tid, tup) ∧
      tid ∈ tids ∧ (s.queue tid).head? = some tup ∧ Highest s.queue tid := by
  set sorted := (tups s tids).mergeSort fun x y => y.2.cacheFreq ≤ x.2.cacheFreq
  have perm : sorted.Perm (tups s tids) := List.mergeSort_perm _ _
  have ordered : sorted.Pairwise fun x y => y.2.cacheFreq ≤ x.2.cacheFreq := by
    have pw : sorted.Pairwise fun x y => decide (y.2.cacheFreq ≤ x.2.cacheFreq) = true := by
      apply List.pairwise_mergeSort
      · intro a b c
        simp only [decide_eq_true_eq]
        omega
      · intro a b
        simp only [Bool.or_eq_true, decide_eq_true_eq]
        omega
    exact pw.imp of_decide_eq_true
  -- a head of any thread is in the list
  have listed : ∀ {k x}, (s.queue k).head? = some x → (k, x) ∈ sorted := by
    intro k x head
    refine perm.mem_iff.mpr (mem_tups.mpr ⟨?_, head⟩)
    by_contra out
    rw [(queue_of_left (only k out)).1] at head
    cases head
  cases first : sorted with
  | nil =>
    obtain ⟨key, mem⟩ := busy
    obtain ⟨x, q, e⟩ := List.exists_cons_of_ne_nil (stocked key mem)
    have absurd := @listed key x (by rw [e]; rfl)
    rw [first] at absurd
    cases absurd
  | cons y more =>
    obtain ⟨tid, tup⟩ := y
    rw [first] at listed ordered
    obtain ⟨mem, head⟩ := mem_tups.mp (perm.mem_iff.mp (by rw [first]; exact List.mem_cons_self))
    refine ⟨tid, tup, rfl, mem, head, ?_⟩
    intro tid' x y hx hy
    obtain rfl : x = tup := Option.some.inj (hx.symm.trans head)
    rcases List.mem_cons.mp (listed hy) with e | later
    · rw [(Prod.mk.inj e).2]
    · exact (List.pairwise_cons.mp ordered).1 _ later

/-- A queue with a head is a list with that head. -/
lemma lookup_of_head {tup : Candidate} (head : (s.queue tid).head? = some tup) :
    ∃ q, s.candidates.lookup tid = some (tup :: q) := by
  cases look : s.candidates.lookup tid with
  | none =>
    rw [(of_lookup_none look).1] at head
    cases head
  | some l =>
    rw [queue_of_lookup look] at head
    obtain ⟨q, rfl⟩ := List.head?_eq_some_iff.mp head
    exact ⟨q, rfl⟩

/-- The branch of the other policies makes a turn of the thread of that head, and deletes the thread if it has no
    more. -/
lemma highestFrequency_first {tup : Candidate} {q : List Candidate}
    (first : ((tups s tids).mergeSort fun x y => y.2.cacheFreq ≤ x.2.cacheFreq).head? = some (tid, tup))
    (look : s.candidates.lookup tid = some (tup :: q)) :
    highestFrequency limit s tids = some (if (turn limit s tid).donePromoting = false ∧ q = [] then
      { turn limit s tid with candidates := (turn limit s tid).candidates.erase tid } else turn limit s tid) := by
  rw [turn_head look]
  simp only [highestFrequency, first, look, Option.bind_eq_bind, Option.bind_some]
  cases (promote limit { s with candidates := s.candidates.insert tid q } tup.addr).donePromoting with
  | true => rfl
  | false => cases q <;> rfl

/-- Every thread that is left after a turn has candidates, except the one whose turn it was. -/
lemma Stocked.turn (stocked : Stocked s) {k : Nat} (ne : k ≠ tid) (mem : k ∈ (turn limit s tid).candidates.keys) :
    (Mt.turn limit s tid).queue k ≠ [] := by
  rw [queue_turn, if_neg ne]
  apply stocked
  have pos := left_pos mem
  rw [left_turn, if_neg ne] at pos
  by_contra out
  rw [(of_lookup_none (AList.lookup_eq_none.mpr out)).2] at pos
  cases pos

/-- One candidate by frequency. -/
lemma highestFrequency_spec (limit : Int) (going : s.donePromoting = false) (stocked : Stocked s)
    (only : ∀ k, k ∉ tids → s.left k = 0) (busy : ∃ tid, tid ∈ s.candidates.keys) :
    ∃ tid tup q t, highestFrequency limit s tids = some t ∧ s.queue tid = tup :: q ∧
      Highest s.queue tid ∧ (∀ rest, s.to limit (tup.addr :: rest) = t.to limit rest) ∧
      t.queue = Function.update s.queue tid q ∧
      (t.donePromoting = false → Stocked t ∧ (∀ k, k ∉ tids → t.left k = 0) ∧
        (tids.map t.left).sum < (tids.map s.left).sum) := by
  obtain ⟨tid, tup, first, mem, head, highest⟩ := exists_first stocked only busy
  obtain ⟨q, look⟩ := lookup_of_head head
  have queue := queue_of_lookup look
  have run := @highestFrequency_first limit s tid tids tup q first look
  have comes : ∀ rest, s.to limit (tup.addr :: rest) = (turn limit s tid).to limit rest := by
    intro rest
    rw [← turn_to going, head]
    rfl
  have queues : (turn limit s tid).queue = Function.update s.queue tid q := by
    funext k
    rw [queue_turn, Function.update_apply]
    split
    case isTrue e => rw [e, queue]; rfl
    case isFalse => rfl
  -- what is left gets less, whether the thread is deleted or not
  have less : ∀ t : Selection, (∀ k, t.left k ≤ (turn limit s tid).left k) →
      (∀ k, k ∉ tids → t.left k = 0) ∧ (tids.map t.left).sum < (tids.map s.left).sum := by
    intro t le
    have le' : ∀ k, t.left k ≤ s.left k ∧ (k = tid → t.left k < s.left k) := by
      intro k
      have le := le k
      rw [left_turn] at le
      split at le
      case isTrue e =>
        have length := left_of_lookup look
        rw [← e] at length
        exact ⟨by omega, fun _ => by omega⟩
      case isFalse ne => exact ⟨le, fun e => absurd e ne⟩
    refine ⟨fun k out => Nat.le_zero.mp (only k out ▸ (le' k).1), List.sum_lt_sum _ _ ?_ ⟨tid, mem, (le' tid).2 rfl⟩⟩
    exact fun k _ => (le' k).1
  by_cases exhausted : (turn limit s tid).donePromoting = false ∧ q = []
  · rw [if_pos exhausted] at run
    obtain ⟨_, rfl⟩ := exhausted
    refine ⟨tid, tup, [], _, run, queue, highest, comes, ?_, fun _ => ⟨?_, less _ ?_⟩⟩
    · funext k
      rw [queue_erase, queues, Function.update_apply]
      split <;> rfl
    · intro k mem
      rw [AList.keys_erase] at mem
      obtain ⟨ne, mem⟩ := (List.Nodup.mem_erase_iff (AList.keys_nodup _)).mp mem
      rw [queue_erase, if_neg ne]
      exact stocked.turn ne mem
    · intro k
      rw [left_erase]
      split
      · exact Nat.zero_le _
      · exact le_rfl
  · rw [if_neg exhausted] at run
    refine ⟨tid, tup, q, _, run, queue, highest, comes, queues, fun going' => ⟨?_, less _ fun _ => le_rfl⟩⟩
    intro k mem
    rcases eq_or_ne k tid with rfl | ne
    · rw [queues, Function.update_self]
      exact fun none => exhausted ⟨going', none⟩
    · exact stocked.turn ne mem

/-- The invariant of the loop by frequency: every order of what is left continues to an order of all
    candidates, from which the loop of `get_promotions.py` has got as far. -/
def Following (limit : Int) (tids : List Nat) (start s : Selection) : Prop :=
  (∀ order, Drains Highest s.queue order → ∃ order', Drains Highest start.queue order' ∧
    start.to limit (order'.map Candidate.addr) = s.to limit (order.map Candidate.addr)) ∧
  (∃ order, Drains Highest s.queue order) ∧
    (s.donePromoting = false → Stocked s ∧ ∀ k, k ∉ tids → s.left k = 0)

/-- A candidate by frequency keeps the invariant. -/
lemma Following.next {start} (inv : Following limit tids start s) (more : selecting s = true) :
    ∃ t, highestFrequency limit s tids = some t ∧ Following limit tids start t ∧
      (t.donePromoting = false → (tids.map t.left).sum < (tids.map s.left).sum) := by
  obtain ⟨going, busy⟩ := selecting_iff.mp more
  obtain ⟨continues, _, state⟩ := inv
  obtain ⟨stocked, only⟩ := state going
  obtain ⟨tid, tup, q, t, run, head, highest, comes, queues, state⟩ :=
    highestFrequency_spec limit going stocked only busy
  have only' : ∀ k, k ∉ tids → t.queue k = [] := by
    intro k out
    have empty := (queue_of_left (only k out)).1
    rw [queues, Function.update_apply]
    split
    case isTrue e =>
      rw [← e, empty] at head
      cases head
    case isFalse => exact empty
  refine ⟨t, run, ⟨?_, exists_byFrequency only', ?_⟩, fun going' => (state going').2.2⟩
  · intro order drains
    rw [queues] at drains
    obtain ⟨order', drains', e⟩ := continues (tup :: order) (.take head highest drains)
    exact ⟨order', drains', e.trans (comes _)⟩
  · exact fun going' => ⟨(state going').1, (state going').2.1⟩

/-- What the script would do with the candidates of a time for another `POLICY`. -/
lemma select_byFrequency {policy : Int} (limit : Int) (other : policy ≠ 0) (c : Queues) (unique : List Nat)
    (stocked : Stocked ⟨c, unique, [], false⟩) :
    ∃ t order, select policy limit c unique = some t ∧
      Drains Highest (fun tid => (c.lookup tid).getD []) order ∧
      (t.uniqueCandidates, t.toPromote, t.donePromoting) =
        promoteFrom limit unique [] (order.map Candidate.addr) := by
  set tids := c.keys.mergeSort (· ≤ ·) with htids
  set start : Selection := ⟨c, unique, [], false⟩ with hstart
  have only : ∀ k, k ∉ tids → start.left k = 0 := fun k => left_outside c unique
  have base : Following limit tids start start :=
    ⟨fun order drains => ⟨order, drains, rfl⟩,
      exists_byFrequency fun k out => (queue_of_left (only k out)).1, fun _ => ⟨stocked, only⟩⟩
  have run : ∃ t, whileLoop selecting (selectStep policy limit tids) (left tids start + 2) start = some t ∧
      Following limit tids start t ∧ selecting t = false := by
    apply whileLoop_enough _ (fun s => if s.donePromoting then 0 else (tids.map s.left).sum + 1) base
    · intro s inv more
      obtain ⟨t, ht, inv', less⟩ := inv.next more
      obtain ⟨going, key, mem⟩ := selecting_iff.mp more
      refine ⟨t, ?_, inv', ?_⟩
      · rw [selectStep, if_neg other, if_pos (List.length_pos_of_mem mem), ht]
      · rw [going, if_neg Bool.false_ne_true]
        cases stop : t.donePromoting with
        | true => exact Nat.succ_pos _
        | false => exact Nat.succ_lt_succ (less stop)
    · exact Nat.lt_succ_self _
  obtain ⟨t, ht, ⟨continues, ⟨order, drains⟩, _⟩, ended⟩ := run
  obtain ⟨order', drains', e⟩ := continues order drains
  refine ⟨t, order', ht, drains', ?_⟩
  show _ = start.to limit (order'.map Candidate.addr)
  rw [e]
  cases stop : t.donePromoting with
  | true => rw [Selection.to, if_pos stop]
  | false =>
    have none := queue_of_ended stop ended
    have nothing : order = [] := by
      apply List.eq_nil_iff_forall_not_mem.mpr
      intro x mem
      obtain ⟨k, mem⟩ := drains.mem.mp mem
      rw [none k] at mem
      cases mem
    rw [nothing, Selection.to, stop, if_neg Bool.false_ne_true]
    rfl

end

section
variable {limit offset : Int} {c : Candidates} {unique : List Nat} {file : List (Nat × Int)}

/-- The script writes a file by rounds over the threads. -/
lemma writeFrom_rounds (limit offset : Int) (c : Candidates) (unique times : List Nat) :
    ∃ file, writeFrom POLICY limit offset c unique times = some file ∧
      WrittenBy limit offset (fun time addrs => addrs = inRounds c time) unique times file := by
  induction times generalizing unique with
  | nil => exact ⟨[], rfl, .nil⟩
  | cons time times ih =>
    obtain ⟨t, ht, e⟩ := select_rounds limit ((c.lookup time).getD ∅) unique
    have e : promoteFrom limit unique [] (inRounds c time) =
        (t.uniqueCandidates, t.toPromote, t.donePromoting) := e.symm
    simp only [writeFrom, ht, Option.bind_eq_bind, Option.bind_some]
    cases stop : t.donePromoting with
    | true =>
      rw [stop] at e
      exact ⟨_, rfl, .stop rfl e⟩
    | false =>
      rw [stop] at e
      obtain ⟨rest, hrest, written⟩ := ih t.uniqueCandidates
      exact ⟨_, by rw [if_neg Bool.false_ne_true, hrest]; rfl, .next rfl e written⟩

/-- With another `POLICY` it would write a file by frequency. -/
lemma writeFrom_byFrequency {policy : Int} (other : policy ≠ 0) (c : Candidates)
    (stocked : ∀ time unique, Stocked ⟨(c.lookup time).getD ∅, unique, [], false⟩) (unique times : List Nat) :
    ∃ file, writeFrom policy limit offset c unique times = some file ∧
      WrittenBy limit offset (ByFrequency c) unique times file := by
  induction times generalizing unique with
  | nil => exact ⟨[], rfl, .nil⟩
  | cons time times ih =>
    obtain ⟨t, order, ht, drains, e⟩ := select_byFrequency limit other
      ((c.lookup time).getD ∅) unique (stocked time unique)
    have by' : ByFrequency c time (order.map Candidate.addr) := ⟨order, drains, rfl⟩
    simp only [writeFrom, ht, Option.bind_eq_bind, Option.bind_some]
    cases stop : t.donePromoting with
    | true =>
      rw [stop] at e
      exact ⟨_, rfl, .stop by' e.symm⟩
    | false =>
      rw [stop] at e
      obtain ⟨rest, hrest, written⟩ := ih t.uniqueCandidates
      exact ⟨_, by rw [if_neg Bool.false_ne_true, hrest]; rfl, .next by' e.symm written⟩

/-- The script makes a list when there is a candidate for it. -/
lemma readFile_stocked {mode : Mode} {app : String} {lines : List (List Char)}
    (h : readFile mode app lines = some c) (time : Nat) (unique : List Nat) :
    Stocked ⟨(c.lookup time).getD ∅, unique, [], false⟩ := by
  simp only [readFile, Option.bind_eq_bind, Option.bind_eq_some_iff, Option.some.injEq] at h
  obtain ⟨r, hrun, rfl⟩ := h
  suffices inv : ∀ time tid, tid ∈ ((r.candidates.lookup time).getD ∅).keys →
      queue r.candidates time tid ≠ [] from fun tid mem => inv time tid mem
  have rule := @run_inv _ _ (processLine mode app) ⟨false, ∅, 0, none, ∅⟩ fun r =>
    ∀ time tid, tid ∈ ((r.candidates.lookup time).getD ∅).keys → queue r.candidates time tid ≠ []
  refine rule ?_ ?_ hrun
  · intro time tid mem
    rw [AList.lookup_empty] at mem
    cases mem
  · intro r line r' inv st
    simp only [processLine, Option.bind_eq_bind, Option.bind_eq_some_iff] at st
    obtain ⟨u, hu, st⟩ := st
    have same : u.candidates = r.candidates := by
      split at hu
      · obtain ⟨tid, _, e⟩ := Option.bind_eq_some_iff.mp hu
        rw [← Option.some.inj e]
        rfl
      · rw [← Option.some.inj hu]
    have kept : ∀ time tid, tid ∈ ((u.candidates.lookup time).getD ∅).keys →
        queue u.candidates time tid ≠ [] := by
      rw [same]
      exact inv
    split at st
    · rw [← Option.some.inj st]
      exact kept
    · split at st
      · rw [← Option.some.inj st]
        exact kept
      · simp only [Option.bind_eq_some_iff] at st
        obtain ⟨fields, _, freq, _, tid, _, st⟩ := st
        rw [← Option.some.inj st]
        intro time k mem
        simp only [Reader.append, queue] at mem ⊢
        rcases eq_or_ne time u.time with rfl | ne
        · rw [AList.lookup_insert, Option.getD_some] at mem ⊢
          rcases eq_or_ne k tid with rfl | other
          · rw [AList.lookup_insert, Option.getD_some]
            simp
          · rw [AList.lookup_insert_ne other]
            exact kept u.time k (((AList.mem_insert _).mp mem).resolve_left other)
        · rw [AList.lookup_insert_ne ne] at mem ⊢
          exact kept time k mem

/-- If `POLICY` were not 0, the script would write a file by frequency. -/
theorem writePromotions_other {mode : Mode} {app : String} {lines : List (List Char)} {policy : Int}
    (h : readFile mode app lines = some c) (other : policy ≠ 0) :
    ∃ file, writePromotions policy limit offset c = some file ∧
      HighestFrequencyFile limit offset c file :=
  writeFrom_byFrequency other c (readFile_stocked h) [] (times c)

/-- The lines of a time depend on which regions are promoted. -/
lemma linesOf_eq_iff {time : Nat} {ps qs : List Nat} :
    linesOf offset time ps = linesOf offset time qs ↔ ps.Perm qs := by
  have injective : Function.Injective fun addr : Nat => (time, (addr : Int) + offset) := by
    intro a b e
    have e := (Prod.mk.inj e).2
    omega
  unfold linesOf
  rw [(List.map_injective_iff.mpr injective).eq_iff]
  constructor
  · intro e
    have left := List.mergeSort_perm ps (· ≤ ·)
    have right := List.mergeSort_perm qs (· ≤ ·)
    rw [e] at left
    exact left.symm.trans right
  · intro perm
    have sorted := fun l : List Nat => List.pairwise_mergeSort' (· ≤ ·) l
    apply List.Perm.eq_of_pairwise (fun a b _ _ => Nat.le_antisymm) (sorted ps) (sorted qs)
    exact (List.mergeSort_perm _ _).trans (perm.trans (List.mergeSort_perm _ _).symm)

/-- All threads that have candidates take part in the rounds. -/
lemma mem_inRounds {time a : Nat} :
    a ∈ inRounds c time ↔ ∃ tid, ∃ x ∈ queue c time tid, x.addr = a := by
  have inner : ∀ tid x, x ∈ queue c time tid → tid ∈ tidsAt c time := by
    intro tid x mem
    refine (List.mergeSort_perm _ _).mem_iff.mpr ?_
    by_contra out
    rw [queue, AList.lookup_eq_none.mpr out] at mem
    cases mem
  unfold inRounds
  simp only [List.mem_map, mem_rounds]
  constructor
  · rintro ⟨x, ⟨tid, _, mem⟩, rfl⟩
    exact ⟨tid, x, List.mem_of_mem_take mem, rfl⟩
  · rintro ⟨tid, x, mem, rfl⟩
    refine ⟨x, ⟨tid, inner tid x mem, ?_⟩, rfl⟩
    have le : (queue c time tid).length ≤
        ((tidsAt c time).map fun tid => (queue c time tid).length).sum :=
      List.single_le_sum (fun _ _ => Nat.zero_le _) _
        (List.mem_map_of_mem (f := fun tid => (queue c time tid).length) (inner tid x mem))
    rw [List.take_of_length_le le]
    exact mem

/-- By frequency come the same regions. -/
lemma ByFrequency.mem {time : Nat} {addrs : List Nat} (h : ByFrequency c time addrs) (a : Nat) :
    a ∈ inRounds c time ↔ a ∈ addrs := by
  obtain ⟨order, drains, rfl⟩ := h
  rw [mem_inRounds, List.mem_map]
  constructor
  · rintro ⟨tid, x, mem, rfl⟩
    exact ⟨x, drains.mem.mpr ⟨tid, mem⟩, rfl⟩
  · rintro ⟨x, mem, rfl⟩
    obtain ⟨tid, mem⟩ := drains.mem.mp mem
    exact ⟨tid, x, mem, rfl⟩

/-- The candidates of a time can be sorted by their frequency. -/
lemma exists_byFrequencyAt (c : Candidates) (time : Nat) : ∃ addrs, ByFrequency c time addrs := by
  have only : ∀ tid, tid ∉ tidsAt c time → queue c time tid = [] := by
    intro tid out
    have none : tid ∉ ((c.lookup time).getD ∅).keys := fun mem =>
      out ((List.mergeSort_perm _ _).mem_iff.mpr mem)
    rw [queue, AList.lookup_eq_none.mpr none]
    rfl
  obtain ⟨order, drains⟩ := exists_byFrequency only
  exact ⟨_, order, drains, rfl⟩

/-- When the regions `seen` are promoted and the limit allows `n` more, fewer than there are new ones, the
    `n` that the rounds take first are also the first in some order by frequency. -/
def SameCut (limit : Int) (c : Candidates) (seen : List Nat) (time : Nat) : Prop :=
  ∀ n, target limit = seen.toFinset.card + n → 0 < n → n < (fresh seen (inRounds c time)).length →
    ∃ addrs, ByFrequency c time addrs ∧
      ((fresh seen (inRounds c time)).take n).Perm ((fresh seen addrs).take n)

/-- Whenever the limit is reached within the candidates of a time, both policies take the same regions of
    that time. -/
def CutAgrees (limit : Int) (c : Candidates) : Prop :=
  ∀ pre time post, times c = pre ++ time :: post → SameCut limit c (pre.flatMap (inRounds c)) time

/-- Where the lists are cut depends on the addresses that are promoted, not on their order. -/
lemma SameCut.congr {seen seen' : List Nat} {time : Nat} (same : ∀ a, a ∈ seen ↔ a ∈ seen') :
    SameCut limit c seen time ↔ SameCut limit c seen' time := by
  have card : seen.toFinset = seen'.toFinset := by
    ext a
    rw [List.mem_toFinset, List.mem_toFinset, same]
  unfold SameCut
  simp only [card, fresh_congr same]

/-- The regions that are known after those of an order. -/
lemma mem_append_fresh {addrs : List Nat} {a : Nat} :
    a ∈ unique ++ fresh unique addrs ↔ a ∈ unique ++ addrs := by
  rw [List.mem_append, List.mem_append, mem_fresh]
  by_cases known : a ∈ unique <;> simp [known]

/-- No address is promoted twice. -/
lemma nodup_append_fresh {addrs : List Nat} (nodup : unique.Nodup) : (unique ++ fresh unique addrs).Nodup := by
  rw [List.nodup_append']
  refine ⟨nodup, nodup_fresh, ?_⟩
  intro a known new
  exact (mem_fresh.mp new).2 known

/-- The splits of a list of times, at the first of them or later. -/
lemma forall_split {P : List Nat → Nat → Prop} {time : Nat} {times : List Nat} :
    (∀ pre t post, time :: times = pre ++ t :: post → P pre t) ↔
      P [] time ∧ ∀ pre t post, times = pre ++ t :: post → P (time :: pre) t := by
  constructor
  · intro all
    refine ⟨all [] time times rfl, ?_⟩
    intro pre t post e
    exact all (time :: pre) t post (by rw [e]; rfl)
  · rintro ⟨first, later⟩ pre t post e
    cases pre with
    | nil =>
      obtain ⟨rfl, _⟩ := List.cons.inj e
      exact first
    | cons x pre =>
      obtain ⟨rfl, rest⟩ := List.cons.inj e
      exact later pre t post rest

section
variable {unique' : List Nat} {time : Nat} {addrs : List Nat}

/-- What both policies know and may still take at a time. -/
lemma promoteFrom_same (nodup : unique.Nodup) (nodup' : unique'.Nodup)
    (same : ∀ a, a ∈ unique ↔ a ∈ unique') (short : unique.length < target limit) :
    promoteFrom limit unique' [] addrs =
      (unique' ++ (fresh unique addrs).take (target limit - unique.length),
        (fresh unique addrs).take (target limit - unique.length),
        decide (target limit ≤ unique.length + (fresh unique addrs).length)) := by
  have len : unique'.length = unique.length :=
    ((List.perm_ext_iff_of_nodup nodup nodup').mpr same).length_eq.symm
  rw [promoteFrom_eq (by rw [len]; exact short), len, fresh_congr fun a => (same a).symm,
    List.nil_append]

/-- Where the limit is reached, the file ends with the lines of that time. -/
lemma written_stop_iff {times : List Nat} {F : List Nat} (nodup : unique.Nodup) (nodup' : unique'.Nodup)
    (same : ∀ a, a ∈ unique ↔ a ∈ unique') (short : unique.length < target limit)
    (hF : F = fresh unique (inRounds c time)) (full : target limit ≤ unique.length + F.length) :
    WrittenBy limit offset (ByFrequency c) unique' (time :: times)
        (linesOf offset time (F.take (target limit - unique.length))) ↔
      SameCut limit c unique time := by
  have card : unique.toFinset.card = unique.length := List.toFinset_card_of_nodup nodup
  have perm : ∀ addrs, ByFrequency c time addrs → F.Perm (fresh unique addrs) := by
    intro addrs by'
    rw [hF]
    exact fresh_perm by'.mem
  constructor
  · intro written n hn pos less
    have rest : target limit - unique.length = n := by omega
    rw [rest] at written
    generalize hfile : linesOf offset time (F.take n) = file at written
    cases written with
    | @stop _ unique₁ toPromote _ _ addrs by' prom =>
      rw [promoteFrom_same nodup nodup' same short, rest] at prom
      obtain ⟨_, e⟩ := Prod.mk.inj prom
      obtain ⟨rfl, _⟩ := Prod.mk.inj e
      refine ⟨addrs, by', ?_⟩
      rw [← hF]
      exact linesOf_eq_iff.mp hfile
    | @next _ unique₁ toPromote _ _ addrs _ by' prom _ =>
      rw [promoteFrom_same nodup nodup' same short, ← (perm addrs by').length_eq,
        decide_eq_true full] at prom
      cases (Prod.mk.inj (Prod.mk.inj prom).2).2
  · intro cut
    obtain ⟨addrs, by', taken⟩ : ∃ addrs, ByFrequency c time addrs ∧
        (F.take (target limit - unique.length)).Perm
          ((fresh unique addrs).take (target limit - unique.length)) := by
      by_cases less : target limit - unique.length < F.length
      · rw [hF]
        rw [hF] at less
        exact cut _ (by omega) (by omega) less
      · obtain ⟨addrs, by'⟩ := exists_byFrequencyAt c time
        have len := (perm addrs by').length_eq
        refine ⟨addrs, by', ?_⟩
        rw [List.take_of_length_le (Nat.le_of_not_lt less),
          List.take_of_length_le (len ▸ Nat.le_of_not_lt less)]
        exact perm addrs by'
    rw [linesOf_eq_iff.mpr taken]
    apply WrittenBy.stop by'
    rw [promoteFrom_same nodup nodup' same short, ← (perm addrs by').length_eq, decide_eq_true full]

/-- Where the limit is not reached, both policies promote all new regions of the time. -/
lemma written_next_iff {times F : List Nat} {file : List (Nat × Int)} (nodup : unique.Nodup)
    (nodup' : unique'.Nodup) (same : ∀ a, a ∈ unique ↔ a ∈ unique')
    (hF : F = fresh unique (inRounds c time)) (room : unique.length + F.length < target limit) :
    WrittenBy limit offset (ByFrequency c) unique' (time :: times) (linesOf offset time F ++ file) ↔
      ∃ addrs, ByFrequency c time addrs ∧
        WrittenBy limit offset (ByFrequency c) (unique' ++ fresh unique addrs) times file := by
  have short : unique.length < target limit := by omega
  have perm : ∀ addrs, ByFrequency c time addrs → F.Perm (fresh unique addrs) := by
    intro addrs by'
    rw [hF]
    exact fresh_perm by'.mem
  have all : ∀ addrs, ByFrequency c time addrs → promoteFrom limit unique' [] addrs =
      (unique' ++ fresh unique addrs, fresh unique addrs, false) := by
    intro addrs by'
    have len := (perm addrs by').length_eq
    rw [promoteFrom_same nodup nodup' same short, List.take_of_length_le (by omega),
      decide_eq_false (by omega)]
  constructor
  · intro written
    generalize hfile : linesOf offset time F ++ file = file' at written
    cases written with
    | @stop _ unique₁ toPromote _ _ addrs by' prom =>
      rw [all addrs by'] at prom
      cases (Prod.mk.inj (Prod.mk.inj prom).2).2
    | @next _ unique₁ toPromote _ _ addrs rest by' prom written =>
      rw [all addrs by'] at prom
      obtain ⟨rfl, e⟩ := Prod.mk.inj prom
      obtain ⟨rfl, _⟩ := Prod.mk.inj e
      rw [linesOf_eq_iff.mpr (perm addrs by'), List.append_cancel_left_eq] at hfile
      rw [hfile]
      exact ⟨addrs, by', written⟩
  · rintro ⟨addrs, by', written⟩
    rw [linesOf_eq_iff.mpr (perm addrs by')]
    exact .next by' (all addrs by') written

/-- The file by rounds is one by frequency if and only if the cut is the same, by induction on the times. -/
lemma written_iff {times : List Nat} (nodup : unique.Nodup) (nodup' : unique'.Nodup)
    (same : ∀ a, a ∈ unique ↔ a ∈ unique') (short : unique.length < target limit)
    (h : WrittenBy limit offset (fun time addrs => addrs = inRounds c time) unique times file) :
    WrittenBy limit offset (ByFrequency c) unique' times file ↔
      ∀ pre time post, times = pre ++ time :: post →
        SameCut limit c (unique ++ pre.flatMap (inRounds c)) time := by
  induction h generalizing unique' with
  | nil =>
    refine iff_of_true .nil ?_
    intro pre time post e
    simp at e
  | @stop unique unique₁ toPromote time times addrs by' prom =>
    subst by'
    set F := fresh unique (inRounds c time) with hF
    rw [promoteFrom_eq short, List.nil_append, ← hF] at prom
    obtain ⟨_, e⟩ := Prod.mk.inj prom
    obtain ⟨rfl, reached⟩ := Prod.mk.inj e
    have full := of_decide_eq_true reached
    rw [written_stop_iff nodup nodup' same short hF full,
      forall_split (P := fun pre t => SameCut limit c (unique ++ pre.flatMap (inRounds c)) t),
      List.flatMap_nil, List.append_nil, and_iff_left_of_imp]
    -- later times do not count any more
    intro _ pre t _ _ n hn pos
    have sub : (unique ++ F).toFinset ⊆ (unique ++ (time :: pre).flatMap (inRounds c)).toFinset := by
      intro a mem
      rw [List.mem_toFinset, mem_append_fresh] at mem
      rw [List.mem_toFinset, List.flatMap_cons, ← List.append_assoc]
      exact List.mem_append_left _ mem
    have card := Finset.card_le_card sub
    rw [List.toFinset_card_of_nodup (nodup_append_fresh nodup), List.length_append, ← hF] at card
    omega
  | @next unique unique₁ toPromote time times addrs rest by' prom written ih =>
    subst by'
    set F := fresh unique (inRounds c time) with hF
    rw [promoteFrom_eq short, List.nil_append, ← hF] at prom
    obtain ⟨e₁, e⟩ := Prod.mk.inj prom
    obtain ⟨e₂, e⟩ := Prod.mk.inj e
    have room : unique.length + F.length < target limit := Nat.lt_of_not_le (of_decide_eq_false e)
    rw [List.take_of_length_le (by omega)] at e₁ e₂
    subst e₁ e₂
    have known : ∀ addrs, ByFrequency c time addrs →
        ∀ a, a ∈ unique ++ F ↔ a ∈ unique' ++ fresh unique addrs := by
      intro addrs by' a
      rw [List.mem_append, List.mem_append, same, hF, mem_fresh, mem_fresh, by'.mem]
    have nodups : ∀ addrs, (unique' ++ fresh unique addrs).Nodup := by
      intro addrs
      rw [fresh_congr same]
      exact nodup_append_fresh nodup'
    have rest_iff : ∀ addrs, ByFrequency c time addrs →
        (WrittenBy limit offset (ByFrequency c) (unique' ++ fresh unique addrs) times rest ↔
          ∀ pre t post, times = pre ++ t :: post →
            SameCut limit c (unique ++ F ++ pre.flatMap (inRounds c)) t) := by
      intro addrs by'
      exact ih (nodup_append_fresh nodup) (nodups addrs) (known addrs by')
        (by rw [List.length_append]; exact room)
    have later : ∀ pre t, SameCut limit c (unique ++ F ++ pre.flatMap (inRounds c)) t ↔
        SameCut limit c (unique ++ (time :: pre).flatMap (inRounds c)) t := by
      intro pre t
      apply SameCut.congr
      intro a
      rw [List.flatMap_cons, ← List.append_assoc, List.mem_append, mem_append_fresh, ← List.mem_append]
    have first : SameCut limit c (unique ++ [].flatMap (inRounds c)) time := by
      intro n hn pos less
      rw [List.flatMap_nil, List.append_nil, List.toFinset_card_of_nodup nodup] at hn
      rw [List.flatMap_nil, List.append_nil, ← hF] at less
      omega
    rw [written_next_iff nodup nodup' same hF room,
      forall_split (P := fun pre t => SameCut limit c (unique ++ pre.flatMap (inRounds c)) t),
      and_iff_right first]
    simp only [← later]
    constructor
    · rintro ⟨addrs, by', written⟩
      exact (rest_iff addrs by').mp written
    · intro all
      obtain ⟨addrs, by'⟩ := exists_byFrequencyAt c time
      exact ⟨addrs, by', (rest_iff addrs by').mpr all⟩

end

/-- If the limit allows all regions of the log, nothing is cut. -/
lemma cutAgrees_of_room (room : ((times c).flatMap (inRounds c)).toFinset.card ≤ target limit) :
    CutAgrees limit c := by
  intro pre time post e n hn _ less
  have sub : (pre.flatMap (inRounds c) ++ fresh (pre.flatMap (inRounds c)) (inRounds c time)).toFinset ⊆
      ((times c).flatMap (inRounds c)).toFinset := by
    intro a mem
    rw [List.mem_toFinset, mem_append_fresh] at mem
    rw [List.mem_toFinset, e, List.flatMap_append, List.flatMap_cons, ← List.append_assoc]
    exact List.mem_append_left _ mem
  have card := Finset.card_le_card sub
  rw [List.toFinset_append, Finset.card_union_of_disjoint, List.toFinset_card_of_nodup nodup_fresh] at card
  · omega
  · rw [Finset.disjoint_left]
    intro a known new
    exact (mem_fresh.mp (List.mem_toFinset.mp new)).2 (List.mem_toFinset.mp known)

/-- From a log that can be read the script writes a file. It is one by the policy of the command line if
    that is not 1, or if the limit cuts both policies in the same way. -/
theorem policy_iff (inv : Invocation) {lines : List (List Char)}
    (h : readFile inv.mode inv.app lines = some c) :
    ∃ file, main inv lines = some (inv.policyOf, file) ∧
      (ByPolicy inv.promotionLimit inv.offset c inv.policyOf file ↔
        (inv.policyOf = 1 → CutAgrees inv.promotionLimit c)) := by
  obtain ⟨file, hfile, written⟩ :=
    writeFrom_rounds inv.promotionLimit inv.offset c [] (times c)
  have pos : 0 < target inv.promotionLimit := Nat.lt_of_lt_of_le Nat.zero_lt_one (Nat.le_max_left _ _)
  have cut : HighestFrequencyFile inv.promotionLimit inv.offset c file ↔
      CutAgrees inv.promotionLimit c :=
    written_iff List.nodup_nil List.nodup_nil (fun _ => Iff.rfl) pos written
  refine ⟨file, ?_, ?_⟩
  · simp only [main, h, writePromotions, hfile, Option.bind_eq_bind, Option.bind_some]
  · unfold ByPolicy
    rw [cut]
    exact and_iff_left fun _ => written

/-- A candidate of a higher frequency than the heads of the other queues comes first. -/
lemma drains_highest {queues : Nat → List Candidate} {order q : List Candidate} {tid : Nat} {x : Candidate}
    (h : Drains Highest queues order) (head : queues tid = x :: q)
    (below : ∀ tid' y, tid' ≠ tid → (queues tid').head? = some y → y.cacheFreq < x.cacheFreq) :
    ∃ rest, order = x :: rest ∧ Drains Highest (Function.update queues tid q) rest := by
  cases h with
  | empty none =>
    rw [none tid] at head
    cases head
  | @take _ k y q' xs headK highest drains =>
    have le := highest tid y x (by rw [headK]; rfl) (by rw [head]; rfl)
    rcases eq_or_ne k tid with rfl | ne
    · rw [head] at headK
      obtain ⟨rfl, rfl⟩ := List.cons.inj headK
      exact ⟨xs, rfl, drains⟩
    · have lt := below k y ne (by rw [headK]; rfl)
      omega

/-- Thread 1 has the candidates of the higher frequencies. -/
def unequal : List (List Char) :=
  ["3: Memory Regions (Cache #0):".toList, "\tbase = 1, 1, 1, 5".toList, "\tbase = 2, 1, 1, 4".toList,
    "3: Memory Regions (Cache #1):".toList, "\tbase = 3, 1, 1, 9".toList, "\tbase = 4, 1, 1, 8".toList]

/-- Two promotions by frequency. -/
def byFrequency : Invocation := ⟨.cache, "canneal", 2, 0, some 1⟩

/-- A list that is in order is what sorting makes of its elements. -/
lemma mergeSort_eq {l l' : List Nat} (perm : l.Perm l') (sorted : l'.Pairwise (· ≤ ·)) :
    l.mergeSort (· ≤ ·) = l' := by
  apply List.Perm.eq_of_pairwise (fun a b _ _ => Nat.le_antisymm) (List.pairwise_mergeSort' (· ≤ ·) l) sorted
  exact (List.mergeSort_perm _ _).trans perm

/-- What the script reads in this log, and the order of its rounds. -/
lemma unequal_read : ∃ c, readFile .cache "canneal" unequal = some c ∧ times c = [0] ∧
    queue c 0 0 = [⟨1, 5⟩, ⟨2, 4⟩] ∧ queue c 0 1 = [⟨3, 9⟩, ⟨4, 8⟩] ∧
    (∀ tid, tid ≠ 0 → tid ≠ 1 → queue c 0 tid = []) ∧ inRounds c 0 = [1, 3, 2, 4] := by
  have read : (readFile .cache "canneal" unequal).map (fun c =>
      (c.keys, ((c.lookup 0).getD ∅).keys, queue c 0 0, queue c 0 1)) =
        some ([0], [1, 0], [⟨1, 5⟩, ⟨2, 4⟩], [⟨3, 9⟩, ⟨4, 8⟩]) := by decide +kernel
  obtain ⟨c, hc, e⟩ := Option.map_eq_some_iff.mp read
  simp only [Prod.mk.injEq] at e
  obtain ⟨keys, tids, first, second⟩ := e
  have hours : times c = [0] := by
    rw [times, keys]
    exact mergeSort_eq (List.Perm.refl _) (by decide)
  have order : tidsAt c 0 = [0, 1] := by
    rw [tidsAt, tids]
    exact mergeSort_eq (by decide) (by decide)
  refine ⟨c, hc, hours, first, second, ?_, ?_⟩
  · intro tid ne ne'
    have out : tid ∉ ((c.lookup 0).getD ∅).keys := by
      rw [tids]
      simp [ne, ne']
    rw [queue, AList.lookup_eq_none.mpr out]
    rfl
  · simp only [inRounds, order, List.map_cons, List.map_nil, first, second]
    simp [rounds, first, second]

/-- Regions 3 and 4 have the highest frequencies, but regions 1 and 3 are promoted. -/
theorem policy_ignored :
    ∃ c, readFile .cache "canneal" unequal = some c ∧
      main byFrequency unequal = some (1, [(0, 1), (0, 3)]) ∧ ¬ ByPolicy 2 0 c 1 [(0, 1), (0, 3)] := by
  obtain ⟨c, hc, hours, first, second, none, order⟩ := unequal_read
  have lines : ∀ toPromote : List Nat, toPromote.Pairwise (· ≤ ·) →
      linesOf 0 0 toPromote = toPromote.map fun addr : Nat => (0, (addr : Int) + 0) := by
    intro toPromote sorted
    rw [linesOf, mergeSort_eq (List.Perm.refl _) sorted]
  have run : main byFrequency unequal = some (1, [(0, 1), (0, 3)]) := by
    obtain ⟨file, hfile, written⟩ := writeFrom_rounds 2 0 c [] (times c)
    have file₀ : file = [(0, 1), (0, 3)] := by
      rw [hours] at written
      cases written with
      | @stop _ unique toPromote _ _ addrs by' prom =>
        rw [by', order] at prom
        obtain ⟨_, e⟩ := Prod.mk.inj prom
        obtain ⟨rfl, _⟩ := Prod.mk.inj e
        exact lines [1, 3] (by decide)
      | @next _ unique toPromote _ _ addrs rest by' prom _ =>
        rw [by', order] at prom
        cases (Prod.mk.inj (Prod.mk.inj prom).2).2
    subst file₀
    simp only [main, byFrequency, hc, writePromotions, hfile, Option.bind_eq_bind, Option.bind_some]
    rfl
  refine ⟨c, hc, run, ?_⟩
  intro ⟨highest, _⟩
  -- candidate 3 comes first, and candidate 4 after it
  have cut : ∀ addrs, ByFrequency c 0 addrs → ∃ rest, addrs = 3 :: 4 :: rest := by
    rintro addrs ⟨order, drains, rfl⟩
    obtain ⟨rest, rfl, later⟩ := drains_highest drains second (by
      intro tid y ne head
      rcases eq_or_ne tid 0 with rfl | ne'
      · rw [first] at head
        obtain rfl := Option.some.inj head
        decide
      · rw [none tid ne' ne] at head
        cases head)
    have head' : Function.update (queue c 0) 1 [⟨4, 8⟩] 1 = [⟨4, 8⟩] := Function.update_self ..
    obtain ⟨rest, rfl, _⟩ := drains_highest later head' (by
      intro tid y ne head
      rw [Function.update_of_ne ne] at head
      rcases eq_or_ne tid 0 with rfl | ne'
      · rw [first] at head
        obtain rfl := Option.some.inj head
        decide
      · rw [none tid ne' ne] at head
        cases head)
    exact ⟨rest.map Candidate.addr, rfl⟩
  have highest := highest rfl
  unfold HighestFrequencyFile at highest
  rw [hours] at highest
  generalize hfile : ([(0, 1), (0, 3)] : List (Nat × Int)) = file at highest
  have taken : ∀ {addrs unique toPromote b}, ByFrequency c 0 addrs →
      promoteFrom 2 [] [] addrs = (unique, toPromote, b) → toPromote = [3, 4] ∧ b = true := by
    intro addrs unique toPromote b by' prom
    obtain ⟨rest, rfl⟩ := cut addrs by'
    simp only [promoteFrom, List.not_mem_nil, if_false, List.nil_append, List.length_singleton,
      List.mem_singleton] at prom
    obtain ⟨_, e⟩ := Prod.mk.inj prom
    obtain ⟨rfl, rfl⟩ := Prod.mk.inj e
    exact ⟨rfl, rfl⟩
  cases highest with
  | @stop _ unique toPromote _ _ addrs by' prom =>
    rw [(taken by' prom).1, lines [3, 4] (by decide)] at hfile
    exact absurd hfile (by decide)
  | @next _ unique toPromote _ _ addrs rest by' prom _ =>
    cases (taken by' prom).2

/-- With room for all four regions it makes no difference. -/
theorem policy_iff_room :
    ∃ c file, readFile .cache "canneal" unequal = some c ∧
      main ⟨.cache, "canneal", 4, 0, some 1⟩ unequal = some (1, file) ∧
      ByPolicy 4 0 c 1 file := by
  obtain ⟨c, hc, hours, _, _, _, order⟩ := unequal_read
  obtain ⟨file, hfile, exact'⟩ := policy_iff ⟨.cache, "canneal", 4, 0, some 1⟩ hc
  refine ⟨c, file, hc, hfile, exact'.mpr fun _ => cutAgrees_of_room ?_⟩
  rw [hours, List.flatMap_singleton, order]
  decide

end
end PromotionCache.Scripts.Mt
