import PromotionCache.Scripts.Selection

/-!
# The order of the pops

By frequency, what is popped has the highest frequency of all candidates that are left, if the lists are sorted. By
rounds, every thread that has candidates left has had the same number of turns, but a turn that pops a region that is
already promoted gives its thread no huge page.
-/

namespace PromotionCache.Scripts.Mt
open Lib

/-- The variables when the loop for a time starts. -/
def startAt (c : Candidates) (time : Nat) (unique : List Nat) : Selection :=
  ⟨(c.lookup time).getD ∅, unique, [], false⟩

/-- Every list is in the order of the log. -/
def Sorted (c : Candidates) : Prop :=
  ∀ queues ∈ c.entries, ∀ queue ∈ queues.2.entries, queue.2.Pairwise fun x y => y.cacheFreq ≤ x.cacheFreq

instance (c : Candidates) : Decidable (Sorted c) :=
  inferInstanceAs (Decidable (∀ queues ∈ c.entries, ∀ queue ∈ queues.2.entries,
    queue.2.Pairwise fun x y => y.cacheFreq ≤ x.cacheFreq))

/-- Every step of the loop for a time pops a candidate, and none that is left has a higher frequency. -/
def PopsHighest (POLICY promotionLimit : Int) (c : Candidates) : Prop :=
  ∀ time unique s, Heads selecting (selectStep POLICY promotionLimit (tidsAt c time)) (startAt c time unique) s →
    selecting s = true →
      ∃ t tid tup queue, selectStep POLICY promotionLimit (tidsAt c time) s = some t ∧
        s.queue tid = tup :: queue ∧ t.queue = Function.update s.queue tid queue ∧
          ∀ tid' x, x ∈ s.queue tid' → x.cacheFreq ≤ tup.cacheFreq

/-- The lists that are left, as long as the limit is not reached. -/
structure Ordered (tids : List Nat) (s : Selection) : Prop where
  stocked : Stocked s
  only : ∀ tid, tid ∉ tids → s.left tid = 0
  sorted : ∀ tid, (s.queue tid).Pairwise fun x y => y.cacheFreq ≤ x.cacheFreq

section
variable {POLICY limit : Int} {c : Candidates} {s : Selection} {tids : List Nat}

/-- The queues at the start of a time are sorted. -/
lemma Sorted.queue (sorted : Sorted c) (time tid : Nat) (unique : List Nat) :
    ((startAt c time unique).queue tid).Pairwise fun x y => y.cacheFreq ≤ x.cacheFreq := by
  unfold startAt Selection.queue
  dsimp only
  cases outer : c.lookup time with
  | none => exact .nil
  | some queues =>
    rw [Option.getD_some]
    cases inner : queues.lookup tid with
    | none => exact .nil
    | some q => exact sorted _ (AList.mem_lookup_iff.mp outer) _ (AList.mem_lookup_iff.mp inner)

/-- Of sorted lists, the highest head is the highest candidate. -/
lemma Ordered.highest (ordered : Ordered tids s) {tid tid' : Nat} {tup x : Candidate} {q : List Candidate}
    (head : s.queue tid = tup :: q) (highest : Highest s.queue tid) (mem : x ∈ s.queue tid') :
    x.cacheFreq ≤ tup.cacheFreq := by
  have sorted := ordered.sorted tid'
  cases e : s.queue tid' with
  | nil =>
    rw [e] at mem
    cases mem
  | cons y ys =>
    rw [e] at mem sorted
    have first : y.cacheFreq ≤ tup.cacheFreq := highest tid' tup y (by rw [head]; rfl) (by rw [e]; rfl)
    rcases List.mem_cons.mp mem with rfl | later
    · exact first
    · exact ((List.pairwise_cons.mp sorted).1 x later).trans first

/-- A step by frequency. -/
lemma Ordered.step (limit : Int) (other : POLICY ≠ 0) (ordered : Ordered tids s) (more : selecting s = true) :
    ∃ t tid tup q, selectStep POLICY limit tids s = some t ∧ s.queue tid = tup :: q ∧ Highest s.queue tid ∧
      t.queue = Function.update s.queue tid q ∧ (t.donePromoting = false → Ordered tids t) := by
  obtain ⟨going, key, mem⟩ := selecting_iff.mp more
  obtain ⟨tid, tup, q, t, run, head, highest, _, queues, state⟩ :=
    highestFrequency_spec limit going ordered.stocked ordered.only ⟨key, mem⟩
  refine ⟨t, tid, tup, q, ?_, head, highest, queues, ?_⟩
  · rw [selectStep, if_neg other, if_pos (List.length_pos_of_mem mem), run]
  · intro going'
    obtain ⟨stocked, only, _⟩ := state going'
    refine ⟨stocked, only, ?_⟩
    intro k
    rw [queues, Function.update_apply]
    split
    case isTrue =>
      have sorted := ordered.sorted tid
      rw [head] at sorted
      exact (List.pairwise_cons.mp sorted).2
    case isFalse => exact ordered.sorted k

/-- With lists that are sorted and not empty, the other policies never fail and always pop the highest frequency. -/
theorem popsHighest (limit : Int) (other : POLICY ≠ 0) (filled : Filled c) (sorted : Sorted c) :
    PopsHighest POLICY limit c := by
  intro time unique s heads more
  have ordered : s.donePromoting = false → Ordered (tidsAt c time) s := by
    clear more
    induction heads with
    | start =>
      exact fun _ => ⟨filled.stocked time unique, fun k => left_outside _ unique,
        fun k => sorted.queue time k unique⟩
    | round _ more step ih =>
      obtain ⟨u, _, _, _, step', _, _, _, ordered⟩ := (ih (selecting_iff.mp more).1).step limit other more
      obtain rfl := Option.some.inj (step'.symm.trans step)
      exact ordered
  have ordered := ordered (selecting_iff.mp more).1
  obtain ⟨t, tid, tup, q, step, head, highest, queues, _⟩ := ordered.step limit other more
  exact ⟨t, tid, tup, q, step, head, queues, fun _ _ mem => ordered.highest head highest mem⟩

/-- Two threads with a candidate in common. -/
theorem popsHighest_inCommon : PopsHighest 1 9 inCommon := popsHighest 9 (by decide) (by decide) (by decide)

/-- A thread with an empty list. -/
def emptyList : Candidates :=
  let queues : Queues := AList.singleton 0 []
  AList.singleton 0 queues

/-- With an empty list alone there is no first of the heads. -/
theorem emptyList_fails : Sorted emptyList ∧ ¬ PopsHighest 1 9 emptyList := by
  refine ⟨by decide, ?_⟩
  intro pops
  obtain ⟨_, tid, _, _, _, head, _⟩ := pops 0 [] _ .start (by decide)
  have none : (startAt emptyList 0 []).queue tid = [] := by
    rcases eq_or_ne tid 0 with rfl | ne
    · rfl
    · rw [Selection.queue, AList.lookup_eq_none.mpr]
      · rfl
      · intro mem
        exact ne (List.mem_singleton.mp mem)
  rw [none] at head
  cases head

end

/-- The points that the loop by rounds comes to: the threads whose turn is still to come in the round, and how many
    huge pages each thread has got. Only the turns count for which `ok` holds. -/
inductive Turns (ok : Selection → Nat → Prop) (promotionLimit : Int) (tids : List Nat) (start : Selection) :
    Selection → List Nat → (Nat → Nat) → Prop where
  | start : Turns ok promotionLimit tids start start [] fun _ => 0
  | round {s n} :
    Turns ok promotionLimit tids start s [] n →
    selecting s = true →
    Turns ok promotionLimit tids start s tids n
  | turn {s tid rest n} :
    Turns ok promotionLimit tids start s (tid :: rest) n →
    s.donePromoting = false →
    ok s tid →
    Turns ok promotionLimit tids start (turn promotionLimit s tid) rest
      (Function.update n tid (n tid + ((turn promotionLimit s tid).toPromote.length - s.toPromote.length)))

/-- Two threads that both have candidates left have got the same number of huge pages, up to one. -/
def Fair (s : Selection) (n : Nat → Nat) : Prop := ∀ i j, s.queue i ≠ [] → s.queue j ≠ [] → n i ≤ n j + 1

/-- If the thread has more than one candidate, then the region of the first is not promoted yet. -/
def Unwasted (s : Selection) (tid : Nat) : Prop :=
  ∀ tup queue, s.queue tid = tup :: queue → queue ≠ [] → tup.addr ∉ s.uniqueCandidates

/-- Every thread with candidates has got as many huge pages as there have been rounds, less one if its turn is still
    to come. -/
structure Even (tids : List Nat) (s : Selection) (rest : List Nat) (n : Nat → Nat) : Prop where
  nodup : rest.Nodup
  only : ∀ k, k ∉ tids → s.queue k = []
  rounds : ∃ r, ∀ k, s.queue k ≠ [] → n k + (if k ∈ rest then 1 else 0) = r

section
variable {ok : Selection → Nat → Prop} {limit : Int} {c : Candidates} {s start : Selection} {tid : Nat}
  {tids rest unique : List Nat} {n : Nat → Nat}

/-- A turn is not wasted whose candidate is new. -/
lemma Unwasted.of_queue {tup : Candidate} {queue : List Candidate} (head : s.queue tid = tup :: queue)
    (new : tup.addr ∉ s.uniqueCandidates) : Unwasted s tid := by
  intro tup' queue' e _
  rw [head] at e
  rwa [← (List.cons.inj e).1]

/-- What is even is fair. -/
lemma Even.fair (even : Even tids s rest n) : Fair s n := by
  obtain ⟨r, rounds⟩ := even.rounds
  intro i j hi hj
  have left := rounds i hi
  have right := rounds j hj
  split at left <;> split at right <;> omega

/-- A new round is even. -/
lemma Even.round (even : Even tids s [] n) (nodup : tids.Nodup) : Even tids s tids n := by
  obtain ⟨r, rounds⟩ := even.rounds
  refine ⟨nodup, even.only, r + 1, ?_⟩
  intro k some
  have mem : k ∈ tids := by
    by_contra out
    exact some (even.only k out)
  rw [if_pos mem, ← rounds k some, if_neg List.not_mem_nil]

/-- A turn that is not wasted promotes a region. -/
lemma Unwasted.turn (limit : Int) (unwasted : Unwasted s tid) (some : (s.queue tid).tail ≠ []) :
    (Mt.turn limit s tid).toPromote.length = s.toPromote.length + 1 := by
  cases look : s.candidates.lookup tid with
  | none =>
    rw [Selection.queue, look] at some
    exact absurd rfl some
  | some q =>
    rw [queue_of_lookup look] at some
    cases q with
    | nil => exact absurd rfl some
    | cons tup q =>
      have new := unwasted tup q (queue_of_lookup look) some
      rw [turn_head look, promote, if_neg new, List.length_append, List.length_singleton]

/-- A turn that is not wasted keeps it so. -/
lemma Even.turn (even : Even tids s (tid :: rest) n) (unwasted : Unwasted s tid) :
    Even tids (Mt.turn limit s tid) rest
      (Function.update n tid (n tid + ((Mt.turn limit s tid).toPromote.length - s.toPromote.length))) := by
  obtain ⟨out, nodup⟩ := List.nodup_cons.mp even.nodup
  obtain ⟨r, rounds⟩ := even.rounds
  refine ⟨nodup, ?_, r, ?_⟩
  · intro k outside
    rw [queue_turn, even.only k outside]
    split <;> rfl
  · intro k left
    rw [queue_turn] at left
    rcases eq_or_ne k tid with rfl | ne
    · rw [if_pos rfl] at left
      have before : s.queue k ≠ [] := fun e => left (by rw [e]; rfl)
      have now := rounds k before
      have got := unwasted.turn limit left
      rw [if_pos List.mem_cons_self] at now
      rw [Function.update_self, if_neg out, got]
      omega
    · rw [if_neg ne] at left
      rw [Function.update_of_ne ne, ← rounds k left]
      simp only [List.mem_cons, ne, false_or]

/-- The rest of a round is made of turns, up to the one that reaches the limit. -/
lemma Turns.roundRobin (turns : Turns (fun _ _ => True) limit tids start s rest n)
    (going : s.donePromoting = false) :
    ∃ rest' n', Turns (fun _ _ => True) limit tids start (Mt.roundRobin limit s rest) rest' n' ∧
      ((Mt.roundRobin limit s rest).donePromoting = false → rest' = []) := by
  induction rest generalizing s n with
  | nil => exact ⟨[], n, turns, fun _ => rfl⟩
  | cons tid rest ih =>
    have next := turns.turn going trivial
    rw [roundRobin_cons going]
    cases stop : (Mt.turn limit s tid).donePromoting with
    | true =>
      rw [if_pos rfl]
      refine ⟨rest, _, next, ?_⟩
      rw [stop]
      exact nofun
    | false =>
      rw [if_neg Bool.false_ne_true]
      exact ih next stop

/-- The loop of the script comes to its end through these points. -/
theorem select_turns {queues : Queues} (h : select POLICY limit queues unique = some s) :
    ∃ rest n, Turns (fun _ _ => True) limit (queues.keys.mergeSort (· ≤ ·)) ⟨queues, unique, [], false⟩ s rest n := by
  have heads := (whileLoop_heads h).1
  suffices reached : ∃ rest n, Turns (fun _ _ => True) limit (queues.keys.mergeSort (· ≤ ·))
      ⟨queues, unique, [], false⟩ s rest n ∧ (s.donePromoting = false → rest = []) from
    reached.imp fun _ => Exists.imp fun _ => And.left
  clear h
  induction heads with
  | start => exact ⟨[], _, .start, fun _ => rfl⟩
  | round _ more step ih =>
    obtain ⟨rest, n, turns, ended⟩ := ih
    have going := (selecting_iff.mp more).1
    rw [ended going] at turns
    obtain rfl := Option.some.inj step
    exact (turns.round more).roundRobin going

/-- If no turn is wasted as long as its thread has more candidates, the huge pages are distributed evenly at every
    point of the loop. -/
theorem turns_fair (time : Nat) (turns : Turns Unwasted limit (tidsAt c time) (startAt c time unique) s rest n) :
    Fair s n := by
  have nodup : (tidsAt c time).Nodup := (List.mergeSort_perm _ _).nodup_iff.mpr (AList.keys_nodup _)
  have even : Even (tidsAt c time) s rest n := by
    induction turns with
    | start =>
      refine ⟨.nil, fun k out => (queue_of_left (left_outside _ unique out)).1, 0, ?_⟩
      intro k _
      rw [if_neg List.not_mem_nil]
    | round _ _ ih => exact ih.round nodup
    | turn _ _ unwasted ih => exact ih.turn unwasted
  exact even.fair

/-- Two threads with candidates of their own. -/
def apart : Candidates :=
  let queues : Queues := AList.singleton 0 [⟨10, 5⟩, ⟨11, 2⟩, ⟨14, 1⟩]
  AList.singleton 0 (queues.insert 1 [⟨12, 3⟩, ⟨13, 1⟩, ⟨15, 1⟩])

/-- Two threads with the same first candidate. -/
def alike : Candidates :=
  let queues : Queues := AList.singleton 0 [⟨10, 5⟩, ⟨11, 2⟩, ⟨12, 1⟩]
  AList.singleton 0 (queues.insert 1 [⟨10, 3⟩, ⟨13, 2⟩, ⟨14, 1⟩])

/-- Region 20 is promoted at an earlier time. After a whole round, and one more turn of thread 0, both threads have
    candidates left. -/
theorem turns_fair_apart :
    ∃ s n, s.queue 0 ≠ [] ∧ s.queue 1 ≠ [] ∧ n 0 = 2 ∧ n 1 = 1 ∧ Fair s n := by
  have order : tidsAt apart 0 = [0, 1] := mergeSort_eq (List.Perm.swap 0 1 []) (by decide)
  have head₁ : (startAt apart 0 [20]).queue 0 = [⟨10, 5⟩, ⟨11, 2⟩, ⟨14, 1⟩] := by decide
  have head₂ : (turn 9 (startAt apart 0 [20]) 0).queue 1 = [⟨12, 3⟩, ⟨13, 1⟩, ⟨15, 1⟩] := by decide
  have head₃ : (turn 9 (turn 9 (startAt apart 0 [20]) 0) 1).queue 0 = [⟨11, 2⟩, ⟨14, 1⟩] := by decide
  have first : Turns Unwasted 9 [0, 1] (startAt apart 0 [20]) (startAt apart 0 [20]) [0, 1] fun _ => 0 :=
    .round .start (by decide)
  have ended := (first.turn rfl (.of_queue head₁ (by decide))).turn (by decide) (.of_queue head₂ (by decide))
  have second := (ended.round (by decide)).turn (by decide) (.of_queue head₃ (by decide))
  rw [← order] at second
  exact ⟨_, _, by decide, by decide, by decide, by decide, turns_fair 0 second⟩

/-- The second thread loses its first turn to a region that the first thread has promoted. -/
theorem turns_unfair : ¬ ∀ s rest n,
    Turns (fun _ _ => True) 9 (tidsAt alike 0) (startAt alike 0 []) s rest n → Fair s n := by
  intro fair
  have order : tidsAt alike 0 = [0, 1] := mergeSort_eq (List.Perm.swap 0 1 []) (by decide)
  rw [order] at fair
  have first : Turns (fun _ _ => True) 9 [0, 1] (startAt alike 0 []) (startAt alike 0 []) [0, 1] fun _ => 0 :=
    .round .start (by decide)
  have ended := (first.turn rfl trivial).turn (by decide) trivial
  have second := (ended.round (by decide)).turn (by decide) trivial
  have le := fair _ _ _ second 0 1 (by decide) (by decide)
  exact absurd le (by decide)

end

end PromotionCache.Scripts.Mt
