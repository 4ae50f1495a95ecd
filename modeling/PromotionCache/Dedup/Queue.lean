import Mathlib.Data.Fintype.Basic
import PromotionCache.Dedup.Ringbuffer
import PromotionCache.Lib.Run

/-!
# The queues between the stages

`dedup/queue.c`, with the threads on its two sides: a stage sends its items through a buffer of its own, which it
empties into the queue whenever it is full and at the end, and then terminates the queue; the next stage fetches
into a buffer of its own, until there is nothing more to come. `step` takes one thread from one lock of the mutex to
the next. Signals wake one of the threads that wait, and threads also wake up on their own.
-/

namespace PromotionCache.Dedup
open Lib

/-- `queue_t`: the two condition variables are the places of the threads. -/
structure Queue (α : Type*) where
  buf : Ringbuffer α
  nProducers : ℕ
  nTerminated : ℕ

/-- Where a thread is that sends. -/
inductive ProducerPc where
  /-- about to make the next item -/
  | produce
  /-- at `queue_enqueue` -/
  | enqueue
  /-- waits for `notFull` -/
  | notFull
  /-- has been woken in `queue_enqueue` -/
  | woken
  /-- at `queue_terminate` -/
  | terminate
  /-- has returned -/
  | done
deriving DecidableEq

/-- Where a thread is that receives. -/
inductive ConsumerPc where
  /-- at `ringbuffer_isEmpty(&recv_buf)` -/
  | consume
  /-- in `queue_dequeue`, with the mutex to lock -/
  | dequeue
  /-- waits for `notEmpty` -/
  | notEmpty
  /-- at `ringbuffer_remove(&recv_buf)` -/
  | take
  /-- has returned -/
  | done
deriving DecidableEq

/-- A thread that sends: the items it has yet to make, and `send_buf`. -/
structure Producer (α : Type*) where
  pc : ProducerPc
  todo : List α
  sendBuf : Ringbuffer α

/-- A thread that receives: `recv_buf`, and the items it has got. -/
structure Consumer (α : Type*) where
  pc : ConsumerPc
  recvBuf : Ringbuffer α
  got : List α

/-- A queue with its threads; `failed` tells that an `assert` has. -/
structure System (m n : ℕ) (α : Type*) where
  que : Queue α
  producers : Fin m → Producer α
  consumers : Fin n → Consumer α
  failed : Bool

/-- A thread goes on, and wakes another one if it signals; or a thread wakes up on its own. -/
inductive QueueAction (m n : ℕ) where
  | producer (p : Fin m) (wakes : Option (Fin n))
  | consumer (c : Fin n) (wakes : Option (Fin m))
  | wakeProducer (p : Fin m)
  | wakeConsumer (c : Fin n)

variable {α : Type*} {m n : ℕ}

/-- A thread goes on that was not waiting. -/
def QueueAction.own : QueueAction m n → Bool
  | .producer _ _ | .consumer _ _ => true
  | .wakeProducer _ | .wakeConsumer _ => false

/-- `queue_isTerminated` -/
def Queue.isTerminated (que : Queue α) : Bool := que.nTerminated == que.nProducers

/-- The loop that moves elements, at most `limit`, in `queue_dequeue` and `queue_enqueue`: how many it moved. -/
def transfer : ℕ → Ringbuffer α → Ringbuffer α → ℕ × Ringbuffer α × Ringbuffer α
  | 0, src, dst => (0, src, dst)
  | limit + 1, src, dst =>
    if src.isEmpty || dst.isFull then (0, src, dst)
    else
      match src.remove with
      | (none, src) => (0, src, dst)
      | (some temp, src) =>
        let (i, src, dst) := transfer limit src (dst.insert temp)
        (i + 1, src, dst)

namespace System

/-- A thread that sends goes on elsewhere. -/
def setProducer (s : System m n α) (p : Fin m) (x : Producer α) : System m n α :=
  { s with producers := Function.update s.producers p x }

/-- A thread that receives goes on elsewhere. -/
def setConsumer (s : System m n α) (c : Fin n) (x : Consumer α) : System m n α :=
  { s with consumers := Function.update s.consumers c x }

/-- The thread that sends and goes on. -/
@[simp] lemma setProducer_self (s : System m n α) (p : Fin m) (x : Producer α) :
    (s.setProducer p x).producers p = x := by
  unfold setProducer
  exact Function.update_self p _ s.producers

/-- The other threads that send stay where they are. -/
lemma setProducer_of_ne {p q : Fin m} (ne : q ≠ p) (s : System m n α) (x : Producer α) :
    (s.setProducer p x).producers q = s.producers q := by
  unfold setProducer
  exact Function.update_of_ne ne _ s.producers

/-- The thread that receives and goes on. -/
@[simp] lemma setConsumer_self (s : System m n α) (c : Fin n) (x : Consumer α) :
    (s.setConsumer c x).consumers c = x := by
  unfold setConsumer
  exact Function.update_self c _ s.consumers

/-- The other threads that receive stay where they are. -/
lemma setConsumer_of_ne {c d : Fin n} (ne : d ≠ c) (s : System m n α) (x : Consumer α) :
    (s.setConsumer c x).consumers d = s.consumers d := by
  unfold setConsumer
  exact Function.update_of_ne ne _ s.consumers

/-- `assert` -/
def assert (s : System m n α) (h : Bool) : System m n α := { s with failed := s.failed || !h }

/-- `pthread_cond_signal(&que->notEmpty)`, which wakes the thread `wakes` -/
def signalNotEmpty (s : System m n α) : Option (Fin n) → Option (System m n α)
  | some c =>
    if (s.consumers c).pc = .notEmpty then some (s.setConsumer c { s.consumers c with pc := .dequeue }) else none
  | none => if ∀ c, (s.consumers c).pc ≠ .notEmpty then some s else none

/-- `pthread_cond_signal(&que->notFull)`, which wakes the thread `wakes` -/
def signalNotFull (s : System m n α) : Option (Fin m) → Option (System m n α)
  | some p =>
    if (s.producers p).pc = .notFull then some (s.setProducer p { s.producers p with pc := .woken }) else none
  | none => if ∀ p, (s.producers p).pc ≠ .notFull then some s else none

/-- `pthread_cond_broadcast(&que->notEmpty)` -/
def broadcastNotEmpty (s : System m n α) : System m n α :=
  { s with
    consumers := fun c => if (s.consumers c).pc = .notEmpty then { s.consumers c with pc := .dequeue } else s.consumers c }

/-- An `assert` that holds changes nothing. -/
lemma assert_true {h : Bool} (eq : h = true) (s : System m n α) : s.assert h = s := by
  rw [assert, eq, Bool.not_true, Bool.or_false]

/-- A thread has moved items from its buffer into the queue. -/
def sent (s : System m n α) (p : Fin m) (sendBuf buf : Ringbuffer α) : System m n α :=
  { s with que := { s.que with buf } }.setProducer p { s.producers p with pc := .produce, sendBuf }

/-- A thread has moved items from the queue into its buffer. -/
def fetched (s : System m n α) (c : Fin n) (buf recvBuf : Ringbuffer α) : System m n α :=
  { s with que := { s.que with buf } }.setConsumer c { s.consumers c with pc := .take, recvBuf }

section
variable (perInsert perFetch : ℕ)

/-- `queue_enqueue` behind its first `assert`, and the check of what it returns -/
def enqueue (s : System m n α) (p : Fin m) (wakes : Option (Fin n)) : Option (System m n α) :=
  let x := s.producers p
  if s.que.buf.isFull then
    match wakes with
    | none => some (s.setProducer p { x with pc := .notFull })
    | some _ => none
  else
    let (i, sendBuf, buf) := transfer perInsert x.sendBuf s.que.buf
    let s := (s.sent p sendBuf buf).assert (i ≥ 1)
    if i > 0 then s.signalNotEmpty wakes else if wakes = none then some s else none

/-- `queue_dequeue` -/
def dequeue (s : System m n α) (c : Fin n) (wakes : Option (Fin m)) : Option (System m n α) :=
  let x := s.consumers c
  if s.que.buf.isEmpty then
    match wakes with
    | none => some (s.setConsumer c { x with pc := if s.que.isTerminated then .done else .notEmpty })
    | some _ => none
  else
    let (i, buf, recvBuf) := transfer perFetch s.que.buf x.recvBuf
    let s := s.fetched c buf recvBuf
    if i > 0 then s.signalNotFull wakes else if wakes = none then some s else none

/-- The next item is put into the buffer; at the end the buffer is emptied. -/
def produce (s : System m n α) (p : Fin m) : System m n α :=
  let x := s.producers p
  match x.todo with
  | [] => s.setProducer p { x with pc := if x.sendBuf.isEmpty then .terminate else .enqueue }
  | item :: todo =>
    let sendBuf := x.sendBuf.insert item
    let pc := if sendBuf.isFull then ProducerPc.enqueue else .produce
    (s.setProducer p { pc, todo, sendBuf }).assert (!x.sendBuf.isFull)

/-- A thread has counted itself as terminated. -/
def retired (s : System m n α) (p : Fin m) : System m n α :=
  let x := s.producers p
  { s with que := { s.que with nTerminated := s.que.nTerminated + 1 } }.setProducer p { x with pc := .done }

/-- `queue_terminate` -/
def terminate (s : System m n α) (p : Fin m) : System m n α :=
  let s := s.retired p
  let s := s.assert (s.que.nTerminated ≤ s.que.nProducers)
  if s.que.isTerminated then s.broadcastNotEmpty else s

/-- A thread looks whether there is something in its buffer. -/
def consume (s : System m n α) (c : Fin n) : System m n α :=
  let x := s.consumers c
  s.setConsumer c { x with pc := if x.recvBuf.isEmpty then .dequeue else .take }

/-- An item is taken out of the buffer. -/
def take (s : System m n α) (c : Fin n) : System m n α :=
  let x := s.consumers c
  match x.recvBuf.remove with
  | (none, _) => s.assert false
  | (some item, recvBuf) => s.setConsumer c { pc := .consume, recvBuf, got := x.got ++ [item] }

/-- A thread that sends goes on. -/
def producerStep (s : System m n α) (p : Fin m) (wakes : Option (Fin n)) : Option (System m n α) :=
  match (s.producers p).pc, wakes with
  | .produce, none => some (s.produce p)
  | .enqueue, wakes => (s.assert (!s.que.isTerminated)).enqueue perInsert p wakes
  | .woken, wakes => s.enqueue perInsert p wakes
  | .terminate, none => some (s.terminate p)
  | _, _ => none

/-- A thread that receives goes on. -/
def consumerStep (s : System m n α) (c : Fin n) (wakes : Option (Fin m)) : Option (System m n α) :=
  match (s.consumers c).pc, wakes with
  | .consume, none => some (s.consume c)
  | .dequeue, wakes => s.dequeue perFetch c wakes
  | .take, none => some (s.take c)
  | _, _ => none

/-- A step of the system. -/
def step (s : System m n α) : QueueAction m n → Option (System m n α)
  | .producer p wakes => s.producerStep perInsert p wakes
  | .consumer c wakes => s.consumerStep perFetch c wakes
  | .wakeProducer p =>
    if (s.producers p).pc = .notFull then some (s.setProducer p { s.producers p with pc := .woken }) else none
  | .wakeConsumer c =>
    if (s.consumers c).pc = .notEmpty then some (s.setConsumer c { s.consumers c with pc := .dequeue }) else none

/-- The system as it starts: `queue_init`, and the buffers of the threads. -/
def start (n size : ℕ) (items : Fin m → List α) : System m n α where
  que := ⟨.init size, m, 0⟩
  producers p := ⟨.produce, items p, .init perInsert⟩
  consumers _ := ⟨.consume, .init perFetch, []⟩
  failed := false

end

end System

end PromotionCache.Dedup
