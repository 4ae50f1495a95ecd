import PromotionCache.Lib.Run
import Mathlib.Algebra.BigOperators.Group.Finset.Basic
import Mathlib.Data.Fintype.Basic
import Mathlib.Logic.Function.Basic
import Mathlib.Logic.Relation

/-!
# Teams of threads over two worklists

A team that works in epochs. In an epoch the threads share out the entries of an input worklist, entry
`i` to the thread `i % n`, and run the body of the loop for each (`Kernel`); the body may append to an
output worklist, with a fetch-and-add on its index. Past the end of the input a thread swaps its two
pointers to the worklists and waits; between two barriers the thread 0 makes the output the input. `State`
is what such a program has, and `step` takes one load, store or atomic operation of a thread at a time.

`Epoch` is the same without the indices, the arrays and the barriers: lists, and the place of each thread
in the loop (`Job`). Its steps (`Epoch.Step`) are those of the bodies, the appends, and the turn to the
next epoch, once all entries are done.
-/

namespace PromotionCache.Lib.Team

/-- Where a step of the body leads: on in the body, to an append of `v` and then on in the body, or to the
    next entry. -/
inductive Next (V L : Type*) where
  | go (l : L)
  | push (v : V) (l : L)
  | finish

/-- The body of the loop for one entry. A thread that has loaded the entry `u` begins at `start u`, and
    `step c b hop m u l` is its step from `l` on the shared memory `m`; `b` says which worklist is the
    input, `hop` is the counter of the epochs, and `c` decides what the thread does not. A worklist may
    have a capacity, and the counter stays below `bound`. -/
structure Kernel (V M L C : Type*) where
  start : V → L
  step : C → Bool → ℕ → M → V → L → Option (M × Next V L)
  capacity : Option ℕ
  bound : ℕ

/-- Where a thread is. The loop over the worklist is at index `i`. -/
inductive Pc (V L : Type*) where
  /-- at `while (*in_index > 0)` -/
  | head
  /-- at `i < *in_index` -/
  | entry (i : ℕ)
  /-- at the load of the entry -/
  | fetch (i : ℕ)
  /-- in the body, for the entry `u` -/
  | body (i : ℕ) (u : V) (l : L)
  /-- at the fetch-and-add of an append -/
  | add (i : ℕ) (u v : V) (l : L)
  /-- at its write -/
  | write (i : ℕ) (u v : V) (l : L) (index : ℕ)
  /-- waits at the first barrier -/
  | barrier1
  /-- at the load of `*in_index = *out_index` -/
  | loadOut
  /-- at its store -/
  | storeIn (value : ℕ)
  /-- at `*out_index = 0` -/
  | clearOut
  /-- waits at the second barrier -/
  | barrier2
  /-- has returned -/
  | done
  deriving DecidableEq

/-- The local variables of a thread. `side` says which of the two arrays its input pointer points to; the
    output pointer points to the other one. -/
structure Thread (V L : Type*) where
  pc : Pc V L
  hop : ℕ
  side : Bool

/-- What the threads share, and their local variables. A slot of a worklist that was never written is
    `none`. `appended` is no variable of the program: it lists what the threads have written to the
    worklists, in the order of the writes. -/
structure State (V M L : Type*) (n : ℕ) where
  mem : M
  inIndex : ℕ
  outIndex : ℕ
  wl : Bool → ℕ → Option V
  threads : Fin n → Thread V L
  appended : List V

/-- A step of one thread, or the end of a barrier. -/
inductive Action (C : Type*) (n : ℕ) where
  | thread (tid : Fin n) (c : C)
  | release

variable {V M L C : Type*} {n : ℕ}

/-- Where a step of the body at the entry `i` leads. -/
def Pc.after (n i : ℕ) (u : V) : Next V L → Pc V L
  | .go l => .body i u l
  | .push v l => .add i u v l
  | .finish => .entry (i + n)

/-- The team as it starts, with `front` in the input worklist. -/
def State.start (mem : M) (front : List V) : State V M L n where
  mem
  inIndex := front.length
  outIndex := 0
  wl := Function.update (fun _ _ => none) false fun i => front[i]?
  threads := fun _ => { pc := .head, hop := 1, side := false }
  appended := []

/-- The local variables of a thread. -/
def State.setThread (s : State V M L n) (tid : Fin n) (th : Thread V L) : State V M L n :=
  { s with threads := Function.update s.threads tid th }

/-- A thread goes on elsewhere. -/
def State.goto (s : State V M L n) (tid : Fin n) (pc : Pc V L) : State V M L n :=
  s.setThread tid { s.threads tid with pc }

/-- A step of a thread. -/
def threadStep (K : Kernel V M L C) (s : State V M L n) (tid : Fin n) (c : C) :
    Option (State V M L n) :=
  let th := s.threads tid
  match th.pc with
  | .head => some (s.goto tid (if 0 < s.inIndex then .entry tid else .done))
  | .entry i =>
    if i < s.inIndex then some (s.goto tid (.fetch i))
    else if th.hop + 1 < K.bound then
      some (s.setThread tid { pc := .barrier1, hop := th.hop + 1, side := !th.side })
    else none
  | .fetch i => (s.wl th.side i).map fun u => s.goto tid (.body i u (K.start u))
  | .body i u l =>
    (K.step c th.side th.hop s.mem u l).map fun r => { s.goto tid (.after n i u r.2) with mem := r.1 }
  | .add i u v l =>
    some { s.goto tid (.write i u v l s.outIndex) with outIndex := s.outIndex + 1 }
  | .write i u v l index =>
    if ∀ c ∈ K.capacity, index < c then
      some
        { s.goto tid (.body i u l) with
          wl := Function.update s.wl (!th.side)
            (Function.update (s.wl (!th.side)) index (some v))
          appended := s.appended ++ [v] }
    else none
  | .loadOut => some (s.goto tid (.storeIn s.outIndex))
  | .storeIn value => some { s.goto tid .clearOut with inIndex := value }
  | .clearOut => some { s.goto tid .barrier2 with outIndex := 0 }
  | .barrier1 | .barrier2 | .done => none

/-- The entry whose body the thread is in. -/
def Pc.node : Pc V L → Option V
  | .body _ u _ | .add _ u _ _ | .write _ u _ _ _ => some u
  | _ => none

/-- The thread waits at the first barrier. -/
def Pc.atBarrier1 : Pc V L → Bool
  | .barrier1 => true
  | _ => false

/-- The thread waits at the second barrier. -/
def Pc.atBarrier2 : Pc V L → Bool
  | .barrier2 => true
  | _ => false

/-- Every thread has come to the first barrier. -/
def AllAtBarrier1 (s : State V M L n) : Prop := ∀ tid, (s.threads tid).pc.atBarrier1 = true

/-- Every thread has come to the second barrier. -/
def AllAtBarrier2 (s : State V M L n) : Prop := ∀ tid, (s.threads tid).pc.atBarrier2 = true

instance (s : State V M L n) : Decidable (AllAtBarrier1 s) := inferInstanceAs (Decidable (∀ _, _))

instance (s : State V M L n) : Decidable (AllAtBarrier2 s) := inferInstanceAs (Decidable (∀ _, _))

/-- The thread waits, or has returned. -/
def Pc.idle : Pc V L → Prop
  | .barrier1 | .barrier2 | .done => True
  | _ => False

/-- A thread that does not wait can take a step, and a barrier to which all threads have come ends. -/
def Enabled (s : State V M L n) : Action C n → Prop
  | .thread tid _ => ¬ (s.threads tid).pc.idle
  | .release => AllAtBarrier1 s ∨ AllAtBarrier2 s

/-- Past the first barrier only the thread 0 has something to do before the second one. -/
def afterBarrier1 (tid : Fin n) (th : Thread V L) : Thread V L :=
  { th with pc := if tid.val = 0 then .loadOut else .barrier2 }

/-- A step of the team. -/
def step (K : Kernel V M L C) (s : State V M L n) : Action C n → Option (State V M L n)
  | .thread tid c => threadStep K s tid c
  | .release =>
    if AllAtBarrier1 s then some { s with threads := fun tid => afterBarrier1 tid (s.threads tid) }
    else if AllAtBarrier2 s then
      some { s with threads := fun tid => { s.threads tid with pc := .head } }
    else none

/-- Every thread has returned. -/
def Returned (s : State V M L n) : Prop := ∀ tid, (s.threads tid).pc = .done

instance [DecidableEq V] [DecidableEq L] (s : State V M L n) : Decidable (Returned s) :=
  inferInstanceAs (Decidable (∀ _, _))

/-- Where a thread is in the loop over the entries: before the entry `i`, in the body for the entry `i`,
    which is `u`, or there and about to append `v`. -/
inductive Job (V L : Type*) where
  | todo (i : ℕ)
  | busy (i : ℕ) (u : V) (l : L)
  | owes (i : ℕ) (u v : V) (l : L)

/-- An epoch. `front` is the input, `pushed` what has been appended so far, and `past` what was appended
    in the epochs before. -/
structure Epoch (V M L : Type*) (n : ℕ) where
  mem : M
  level : ℕ
  side : Bool
  front : List V
  pushed : List V
  past : List V
  jobs : Fin n → Job V L

/-- Where a step of the body at the entry `i` leads. -/
def Job.after (n i : ℕ) (u : V) : Next V L → Job V L
  | .go l => .busy i u l
  | .push v l => .owes i u v l
  | .finish => .todo (i + n)

namespace Epoch

/-- The first epoch. -/
def start (mem : M) (front : List V) : Epoch V M L n where
  mem
  level := 0
  side := false
  front
  pushed := []
  past := []
  jobs := fun tid => .todo tid

/-- A thread goes on elsewhere. -/
def setJob (a : Epoch V M L n) (tid : Fin n) (job : Job V L) : Epoch V M L n :=
  { a with jobs := Function.update a.jobs tid job }

/-- All entries are done. -/
def Over (a : Epoch V M L n) : Prop := ∀ tid, ∃ i, a.jobs tid = .todo i ∧ a.front.length ≤ i

/-- The next epoch. -/
def next (a : Epoch V M L n) : Epoch V M L n where
  mem := a.mem
  level := a.level + 1
  side := !a.side
  front := a.pushed
  pushed := []
  past := a.past ++ a.pushed
  jobs := fun tid => .todo tid

/-- The steps of the epochs in which the bodies only step where `ok` holds. -/
inductive Step (K : Kernel V M L C) (ok : Bool → M → V → L → Prop) :
    Epoch V M L n → Epoch V M L n → Prop where
  | start {a tid i u} :
    a.jobs tid = .todo i →
    a.front[i]? = some u →
    Step K ok a (a.setJob tid (.busy i u (K.start u)))
  | body {a tid i u l c m next} :
    a.jobs tid = .busy i u l →
    ok a.side a.mem u l →
    K.step c a.side (a.level + 1) a.mem u l = some (m, next) →
    Step K ok a { a.setJob tid (.after n i u next) with mem := m }
  | push {a tid i u v l} :
    a.jobs tid = .owes i u v l →
    Step K ok a { a.setJob tid (.busy i u l) with pushed := a.pushed ++ [v] }
  | turn {a} :
    a.front ≠ [] →
    a.Over →
    Step K ok a a.next

end Epoch

/-- A sum over the threads when one of them goes on. -/
lemma sum_update {I A M : Type*} [Fintype I] [DecidableEq I] [AddCommMonoid M] (threads : I → A) (tid : I)
    (a : A) (f : A → M) :
    ∑ u, f (Function.update threads tid a u) + f (threads tid) = ∑ u, f (threads u) + f a := by
  have rest : ∑ u ∈ Finset.univ.erase tid, f (Function.update threads tid a u) =
      ∑ u ∈ Finset.univ.erase tid, f (threads u) := by
    refine Finset.sum_congr rfl fun u hu => ?_
    rw [Function.update_of_ne (Finset.ne_of_mem_erase hu)]
  rw [← Finset.add_sum_erase _ _ (Finset.mem_univ tid),
    ← Finset.add_sum_erase _ _ (Finset.mem_univ tid), rest, Function.update_self,
    add_right_comm, add_comm (f a), add_right_comm]

end PromotionCache.Lib.Team
