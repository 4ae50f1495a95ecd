import Mathlib.Algebra.BigOperators.Fin
import Mathlib.Algebra.Order.BigOperators.Group.Finset
import PromotionCache.Dedup.Queue
import PromotionCache.Lib.Team

/-!
# What the queues deliver

No item is lost, none is delivered twice, and the items of a thread are delivered in the order in which it made
them (`Accounts`, with the history of the queue). No thread waits for ever: every step that is not a mere waking up
makes `System.work` smaller, and where nothing can go on, all threads have returned (`queue_delivers`).
-/

namespace PromotionCache.Dedup
open Lib

variable {α : Type*} {m n : ℕ}

section
variable {src dst : Ringbuffer α} {xs ys : List α}

/-- As many elements are moved as the limit, the source and the room allow. -/
lemma transfer_spec (limit : ℕ) (hx : src.Holds xs) (hy : dst.Holds ys) :
    ∃ k, k = min limit (min xs.length (dst.size - 1 - ys.length)) ∧ (transfer limit src dst).1 = k ∧
      (transfer limit src dst).2.1.Holds (xs.drop k) ∧ (transfer limit src dst).2.1.size = src.size ∧
      (transfer limit src dst).2.2.Holds (ys ++ xs.take k) ∧ (transfer limit src dst).2.2.size = dst.size := by
  induction limit generalizing src dst xs ys with
  | zero =>
    refine ⟨0, by omega, rfl, hx, rfl, ?_, rfl⟩
    rw [List.take_zero, List.append_nil]
    exact hy
  | succ limit ih =>
    rw [transfer]
    have room := hy.length_lt
    split
    case isTrue stop =>
      refine ⟨0, ?_, rfl, hx, rfl, ?_, rfl⟩
      · rcases (Bool.or_eq_true _ _).mp stop with empty | full
        · rw [hx.isEmpty.mp empty, List.length_nil]
          omega
        · have := hy.isFull.mp full
          omega
      · rw [List.take_zero, List.append_nil]
        exact hy
    case isFalse go =>
      rw [Bool.or_eq_true, not_or, hx.isEmpty, hy.isFull] at go
      obtain ⟨nonempty, notFull⟩ := go
      cases xs with
      | nil => exact absurd rfl nonempty
      | cons x xs =>
        obtain ⟨first, rest⟩ := hx.remove
        have more := hy.insert (by omega) x
        obtain ⟨k, count, moved, left, size, held, size'⟩ := ih rest more
        rw [Ringbuffer.size_insert] at count
        rw [Ringbuffer.size_remove] at size
        rw [Ringbuffer.size_insert] at size'
        have removed : src.remove = (some x, src.remove.2) := by rw [← first]
        rw [removed]
        refine ⟨k + 1, ?_, congrArg (· + 1) moved, left, size, ?_, size'⟩
        · rw [count, List.length_append, List.length_cons, List.length_cons, List.length_nil]
          omega
        · rw [List.take_succ_cons, List.append_cons]
          exact held

end

/-- The items that went into the queue, with the threads that sent them: those that are out again, with the thread
    that fetched them, and those that are in it. -/
structure History (m n : ℕ) (α : Type*) where
  delivered : List (Fin n × Fin m × α)
  queued : List (Fin m × α)

/-- The items of a thread that went into the queue. -/
def History.sentBy (g : History m n α) (p : Fin m) : List α :=
  ((g.delivered.map Prod.snd ++ g.queued).filter (·.1 = p)).map Prod.snd

/-- The items that a thread fetched. -/
def History.fetchedBy (g : History m n α) (c : Fin n) : List α :=
  (g.delivered.filter (·.1 = c)).map (·.2.2)

/-- A thread that sends, with `buf` in its buffer and `sent` sent, of the items `items`. -/
structure Producer.Ok (perInsert : ℕ) (items sent : List α) (x : Producer α) (buf : List α) : Prop where
  holds : x.sendBuf.Holds buf
  size : x.sendBuf.size = perInsert + 1
  kept : sent ++ buf ++ x.todo = items
  pc : match x.pc with
    | .produce => buf.length < perInsert
    | .enqueue | .notFull | .woken => buf ≠ []
    | .terminate | .done => buf = [] ∧ x.todo = []

/-- A thread that receives, with `buf` in its buffer and `fetched` fetched. -/
structure Consumer.Ok (perFetch : ℕ) (fetched : List α) (x : Consumer α) (buf : List α) : Prop where
  holds : x.recvBuf.Holds buf
  size : x.recvBuf.size = perFetch + 1
  kept : x.got ++ buf = fetched
  pc : match x.pc with
    | .consume => True
    | .take => buf ≠ []
    | .dequeue | .notEmpty | .done => buf = []

/-- The thread can go on. -/
def ConsumerPc.awake : ConsumerPc → Bool
  | .consume | .dequeue | .take => true
  | .notEmpty | .done => false

/-- The thread is about to move items into the queue. -/
def ProducerPc.sends : ProducerPc → Bool
  | .enqueue | .woken => true
  | _ => false

/-- What is left to do at a place, for a thread that sends to `n` threads. -/
def ProducerPc.work (n : ℕ) : ProducerPc → ℕ
  | .produce => n + 2
  | .terminate => n + 1
  | .enqueue | .woken => 1
  | .notFull | .done => 0

/-- What is left to do at a place, for a thread that receives. -/
def ConsumerPc.work : ConsumerPc → ℕ
  | .consume => 2
  | .dequeue => 1
  | .notEmpty | .take | .done => 0

/-- What is left to do for a thread that sends to `n` threads. -/
def Producer.work (n : ℕ) (x : Producer α) : ℕ :=
  (n + 8) * x.todo.length + (n + 7) * x.sendBuf.count + x.pc.work n

/-- What is left to do for a thread that receives. -/
def Consumer.work (x : Consumer α) : ℕ := 3 * x.recvBuf.count + x.pc.work

/-- What is left to do. -/
def System.work (s : System m n α) : ℕ :=
  ∑ p, (s.producers p).work n + 4 * s.que.buf.count + ∑ c, (s.consumers c).work

/-- What is left to do when one sending thread goes on. -/
lemma System.work_setProducer (s : System m n α) (p : Fin m) (x : Producer α) :
    (s.setProducer p x).work + (s.producers p).work n = s.work + x.work n := by
  have sum := Team.sum_update s.producers p x (Producer.work n)
  unfold System.work System.setProducer
  simp only
  omega

/-- What is left to do when one receiving thread goes on. -/
lemma System.work_setConsumer (s : System m n α) (c : Fin n) (x : Consumer α) :
    (s.setConsumer c x).work + (s.consumers c).work = s.work + x.work := by
  have sum := Team.sum_update s.consumers c x Consumer.work
  unfold System.work System.setConsumer
  simp only
  omega

/-- A thread moves `i` items into the queue. -/
lemma System.work_send (s : System m n α) (p : Fin m) {sendBuf buf : Ringbuffer α} {i : ℕ}
    (sends : (s.producers p).pc.sends = true) (positive : 0 < i)
    (left : sendBuf.count + i = (s.producers p).sendBuf.count) (more : buf.count = s.que.buf.count + i) :
    (s.sent p sendBuf buf).work + 2 ≤ s.work := by
  have sum := Team.sum_update s.producers p ⟨.produce, (s.producers p).todo, sendBuf⟩ (Producer.work n)
  have own : (s.producers p).pc.work n = 1 := by
    cases eq : (s.producers p).pc <;> rw [eq] at sends <;> first | rfl | cases sends
  have factor : (n + 7) * sendBuf.count + (n + 7) * i = (n + 7) * (s.producers p).sendBuf.count := by
    rw [← Nat.mul_add, left]
  have gain : (n + 7) * 1 + 4 * (i - 1) ≤ (n + 7) * i := by
    obtain ⟨j, rfl⟩ := Nat.exists_eq_succ_of_ne_zero (Nat.ne_of_gt positive)
    rw [Nat.succ_eq_add_one, Nat.add_sub_cancel, Nat.mul_add (n + 7) j]
    have := Nat.mul_le_mul_right j (by omega : 4 ≤ n + 7)
    omega
  have before : (s.producers p).work n =
      (n + 8) * (s.producers p).todo.length + (n + 7) * (s.producers p).sendBuf.count + 1 := by
    rw [Producer.work, own]
  have after : Producer.work n ⟨.produce, (s.producers p).todo, sendBuf⟩ =
      (n + 8) * (s.producers p).todo.length + (n + 7) * sendBuf.count + (n + 2) := rfl
  unfold System.work System.sent System.setProducer
  simp only
  omega

/-- A thread moves `i` items out of the queue. -/
lemma System.work_fetch (s : System m n α) (c : Fin n) {recvBuf buf : Ringbuffer α} {i : ℕ}
    (fetches : (s.consumers c).pc = .dequeue) (positive : 0 < i) (left : buf.count + i = s.que.buf.count)
    (more : recvBuf.count = (s.consumers c).recvBuf.count + i) :
    (s.fetched c buf recvBuf).work + 2 ≤ s.work := by
  have sum := Team.sum_update s.consumers c { s.consumers c with pc := .take, recvBuf } Consumer.work
  unfold System.work System.fetched System.setConsumer
  simp only [Consumer.work, ConsumerPc.work, fetches] at sum ⊢
  omega

/-- The system with the history `g` of its queue. -/
structure Accounts (perInsert perFetch size : ℕ) (items : Fin m → List α) (g : History m n α) (s : System m n α) :
    Prop where
  holds : s.que.buf.Holds (g.queued.map Prod.snd)
  size : s.que.buf.size = size + 1
  nProducers : s.que.nProducers = m
  nTerminated : s.que.nTerminated = ∑ p, if (s.producers p).pc = .done then 1 else 0
  producer : ∀ p, ∃ buf, (s.producers p).Ok perInsert (items p) (g.sentBy p) buf
  consumer : ∀ c, ∃ buf, (s.consumers c).Ok perFetch (g.fetchedBy c) buf
  /-- whoever has returned has seen the end -/
  ended : ∀ c, (s.consumers c).pc = .done → g.queued = [] ∧ ∀ p, (s.producers p).pc = .done
  /-- whoever waits for items may hope for some -/
  hopes : ∀ c, (s.consumers c).pc = .notEmpty → ∃ p, (s.producers p).pc ≠ .done
  /-- where there are items, someone comes for them -/
  fetches : g.queued ≠ [] → ∃ c, (s.consumers c).pc.awake = true
  /-- where there is room for items, not all who have some wait -/
  sends : g.queued = [] → (∃ p, (s.producers p).pc = .notFull) → ∃ p, (s.producers p).pc.sends = true
  failed : s.failed = false

variable {perInsert perFetch size : ℕ} {items : Fin m → List α} {g : History m n α} {s t : System m n α}
  {p q : Fin m} {c d : Fin n}

/-- A thread puts items into the queue. -/
def History.send (g : History m n α) (p : Fin m) (xs : List α) : History m n α :=
  { g with queued := g.queued ++ xs.map (p, ·) }

/-- A thread takes the first items out of the queue. -/
def History.fetch (g : History m n α) (c : Fin n) (k : ℕ) : History m n α :=
  ⟨g.delivered ++ (g.queued.take k).map (c, ·), g.queued.drop k⟩

/-- A thread that sends has sent more. -/
lemma sentBy_send (g : History m n α) (p : Fin m) (xs : List α) : (g.send p xs).sentBy p = g.sentBy p ++ xs := by
  have own : (xs.map (p, ·)).filter (·.1 = p) = xs.map (p, ·) :=
    List.filter_eq_self.mpr fun x mem => by
      obtain ⟨y, _, rfl⟩ := List.mem_map.mp mem
      exact decide_eq_true rfl
  unfold History.sentBy History.send
  rw [← List.append_assoc, List.filter_append, List.map_append, own, List.map_map]
  exact congrArg _ (List.map_id xs)

/-- No other thread has. -/
lemma sentBy_send_ne (g : History m n α) (ne : q ≠ p) (xs : List α) : (g.send p xs).sentBy q = g.sentBy q := by
  have other : (xs.map (p, ·)).filter (·.1 = q) = [] :=
    List.filter_eq_nil_iff.mpr fun x mem => by
      obtain ⟨y, _, rfl⟩ := List.mem_map.mp mem
      exact fun e => ne (of_decide_eq_true e).symm
  unfold History.sentBy History.send
  rw [← List.append_assoc, List.filter_append, other, List.append_nil]

/-- Fetching sends nothing. -/
lemma sentBy_fetch (g : History m n α) (c : Fin n) (k : ℕ) (p : Fin m) : (g.fetch c k).sentBy p = g.sentBy p := by
  have untagged : ((g.queued.take k).map (c, ·)).map Prod.snd = g.queued.take k := by
    rw [List.map_map]
    exact List.map_id _
  unfold History.sentBy History.fetch
  rw [List.map_append, untagged, List.append_assoc, List.take_append_drop]

/-- A thread that fetches has fetched the front of the queue. -/
lemma fetchedBy_fetch (g : History m n α) (c : Fin n) (k : ℕ) :
    (g.fetch c k).fetchedBy c = g.fetchedBy c ++ (g.queued.map Prod.snd).take k := by
  have own : ((g.queued.take k).map (c, ·)).filter (·.1 = c) = (g.queued.take k).map (c, ·) :=
    List.filter_eq_self.mpr fun x mem => by
      obtain ⟨y, _, rfl⟩ := List.mem_map.mp mem
      exact decide_eq_true rfl
  unfold History.fetchedBy History.fetch
  rw [List.filter_append, List.map_append, own, List.map_map, ← List.map_take]
  rfl

/-- No other thread has. -/
lemma fetchedBy_fetch_ne (g : History m n α) (ne : d ≠ c) (k : ℕ) : (g.fetch c k).fetchedBy d = g.fetchedBy d := by
  have other : ((g.queued.take k).map (c, ·)).filter (·.1 = d) = [] :=
    List.filter_eq_nil_iff.mpr fun x mem => by
      obtain ⟨y, _, rfl⟩ := List.mem_map.mp mem
      exact fun e => ne (of_decide_eq_true e).symm
  unfold History.fetchedBy History.fetch
  rw [List.filter_append, other, List.append_nil]

/-- The queue is terminated when all threads that send have returned. -/
lemma isTerminated_iff {que : Queue α} {producers : Fin m → Producer α} (nProducers : que.nProducers = m)
    (nTerminated : que.nTerminated = ∑ p, if (producers p).pc = .done then 1 else 0) :
    que.isTerminated = true ↔ ∀ p, (producers p).pc = .done := by
  have all : (Finset.univ.filter fun p => (producers p).pc = .done).card = m ↔ ∀ p, (producers p).pc = .done := by
    have full : (Finset.univ.filter fun p => (producers p).pc = .done).card = Finset.card (Finset.univ : Finset (Fin m)) ↔
        _ := Finset.card_filter_eq_iff
    rw [Finset.card_univ, Fintype.card_fin] at full
    exact full.trans ⟨fun all p => all p (Finset.mem_univ p), fun all p _ => all p⟩
  rw [Queue.isTerminated, beq_iff_eq, nTerminated, nProducers, ← all, Finset.sum_boole, Nat.cast_id]

/-- The queue is terminated when all threads that send have returned. -/
lemma Accounts.isTerminated_iff (h : Accounts perInsert perFetch size items g s) :
    s.que.isTerminated = true ↔ ∀ p, (s.producers p).pc = .done :=
  Dedup.isTerminated_iff h.nProducers h.nTerminated

/-- A thread that sends goes on without the queue. -/
lemma Accounts.setProducer (h : Accounts perInsert perFetch size items g s) {x : Producer α}
    (ok : ∃ buf, x.Ok perInsert (items p) (g.sentBy p) buf) (old : (s.producers p).pc ≠ .done) (new : x.pc ≠ .done)
    (sends : x.pc.sends = true ∨ (s.producers p).pc.sends = false ∧ x.pc ≠ .notFull ∨ g.queued ≠ []) :
    Accounts perInsert perFetch size items g (s.setProducer p x) where
  holds := h.holds
  size := h.size
  nProducers := h.nProducers
  nTerminated := by
    have sum := Team.sum_update s.producers p x fun y => if y.pc = .done then 1 else 0
    simp only [if_neg old, if_neg new, Nat.add_zero] at sum
    exact h.nTerminated.trans sum.symm
  producer q := by
    by_cases eq : q = p
    · subst eq
      rw [System.setProducer_self]
      exact ok
    · rw [System.setProducer_of_ne eq]
      exact h.producer q
  consumer := h.consumer
  ended c done := absurd ((h.ended c done).2 p) old
  hopes _ _ := ⟨p, (s.setProducer_self p x).symm ▸ new⟩
  fetches := h.fetches
  sends empty waiting := by
    rcases sends with own | ⟨before, after⟩ | nonempty
    · exact ⟨p, (s.setProducer_self p x).symm ▸ own⟩
    · obtain ⟨q, waits⟩ := waiting
      have ne : q ≠ p := fun eq => by
        subst eq
        rw [System.setProducer_self] at waits
        exact after waits
      rw [System.setProducer_of_ne ne] at waits
      obtain ⟨r, other⟩ := h.sends empty ⟨q, waits⟩
      have ne' : r ≠ p := fun eq => by
        subst eq
        rw [before] at other
        cases other
      exact ⟨r, by rwa [System.setProducer_of_ne ne']⟩
    · exact absurd empty nonempty
  failed := h.failed

/-- A thread that receives goes on without the queue. -/
lemma Accounts.setConsumer (h : Accounts perInsert perFetch size items g s) {x : Consumer α}
    (ok : ∃ buf, x.Ok perFetch (g.fetchedBy c) buf)
    (ended : x.pc = .done → g.queued = [] ∧ ∀ p, (s.producers p).pc = .done)
    (hopes : x.pc = .notEmpty → ∃ p, (s.producers p).pc ≠ .done) (fetches : g.queued ≠ [] → x.pc.awake = true) :
    Accounts perInsert perFetch size items g (s.setConsumer c x) where
  holds := h.holds
  size := h.size
  nProducers := h.nProducers
  nTerminated := h.nTerminated
  producer := h.producer
  consumer d := by
    by_cases eq : d = c
    · subst eq
      rw [System.setConsumer_self]
      exact ok
    · rw [System.setConsumer_of_ne eq]
      exact h.consumer d
  ended d done := by
    by_cases eq : d = c
    · subst eq
      rw [System.setConsumer_self] at done
      exact ended done
    · rw [System.setConsumer_of_ne eq] at done
      exact h.ended d done
  hopes d waits := by
    by_cases eq : d = c
    · subst eq
      rw [System.setConsumer_self] at waits
      exact hopes waits
    · rw [System.setConsumer_of_ne eq] at waits
      exact h.hopes d waits
  fetches nonempty := ⟨c, (s.setConsumer_self c x).symm ▸ fetches nonempty⟩
  sends := h.sends
  failed := h.failed

/-- A thread moves items into the queue, and someone comes for them. -/
lemma Accounts.send (h : Accounts perInsert perFetch size items g s) (positive : 0 < perInsert)
    (sends : (s.producers p).pc.sends = true) (notFull : ¬ s.que.buf.isFull = true) {i : ℕ}
    {sendBuf buf : Ringbuffer α} (moved : transfer perInsert (s.producers p).sendBuf s.que.buf = (i, sendBuf, buf)) :
    0 < i ∧ sendBuf.count + i = (s.producers p).sendBuf.count ∧ buf.count = s.que.buf.count + i ∧
      ((∃ c, (s.consumers c).pc.awake = true) →
        ∃ g, Accounts perInsert perFetch size items g (s.sent p sendBuf buf)) := by
  obtain ⟨xs, ok⟩ := h.producer p
  have nonempty : xs ≠ [] := by
    have pc := ok.pc
    cases eq : (s.producers p).pc <;> rw [eq] at pc sends <;> first | exact pc | cases sends
  have old : (s.producers p).pc ≠ .done := fun e => by
    rw [e] at sends
    cases sends
  have length := List.length_pos_iff.mpr nonempty
  have room := h.holds.length_lt
  rw [h.holds.isFull] at notFull
  obtain ⟨k, count, first, left, leftSize, held, heldSize⟩ := transfer_spec perInsert ok.holds h.holds
  rw [moved] at first left leftSize held heldSize
  obtain rfl : i = k := first
  simp only at left leftSize held heldSize
  have within : i ≤ xs.length := by omega
  have taken : (xs.take i).length = i := List.length_take_of_le within
  have queued : g.queued.map Prod.snd ++ xs.take i = (g.send p (xs.take i)).queued.map Prod.snd := by
    rw [History.send, List.map_append, List.map_map]
    exact congrArg _ (List.map_id _).symm
  refine ⟨by omega, ?_, ?_, fun awake => ⟨g.send p (xs.take i), ?_⟩⟩
  · rw [← left.length, ← ok.holds.length, List.length_drop]
    omega
  · rw [← held.length, ← h.holds.length, List.length_append, taken]
  exact {
    holds := queued ▸ held
    size := heldSize.trans h.size
    nProducers := h.nProducers
    nTerminated := by
      have sum := Team.sum_update s.producers p { s.producers p with pc := .produce, sendBuf }
        fun y => if y.pc = .done then 1 else 0
      simp only [if_neg old, Nat.add_zero, reduceCtorEq, if_false] at sum
      exact h.nTerminated.trans sum.symm
    producer := fun q => by
      by_cases eq : q = p
      · subst eq
        rw [System.sent, System.setProducer_self, sentBy_send]
        refine ⟨xs.drop i, left, leftSize.trans ok.size, ?_, ?_⟩
        · rw [List.append_assoc _ (xs.take i), List.take_append_drop]
          exact ok.kept
        · have full := ok.holds.length_lt
          have size := ok.size
          simp only [List.length_drop]
          omega
      · rw [System.sent, System.setProducer_of_ne eq, sentBy_send_ne _ eq]
        exact h.producer q
    consumer := h.consumer
    ended := fun c done => absurd ((h.ended c done).2 p) old
    hopes := fun _ _ => ⟨p, by rw [System.sent, System.setProducer_self]; exact nofun⟩
    fetches := fun _ => awake
    sends := fun empty => by
      have none : xs.take i = [] := List.map_eq_nil_iff.mp (List.append_eq_nil_iff.mp empty).2
      rw [none, List.length_nil] at taken
      omega
    failed := h.failed }

/-- A thread moves items out of the queue, and whoever has waited to send does not wait alone. -/
lemma Accounts.fetch (h : Accounts perInsert perFetch size items g s) (positive : 0 < perFetch)
    (fetches : (s.consumers c).pc = .dequeue) (nonempty : ¬ s.que.buf.isEmpty = true) {i : ℕ}
    {buf recvBuf : Ringbuffer α} (moved : transfer perFetch s.que.buf (s.consumers c).recvBuf = (i, buf, recvBuf)) :
    0 < i ∧ buf.count + i = s.que.buf.count ∧ recvBuf.count = (s.consumers c).recvBuf.count + i ∧
      (((∃ p, (s.producers p).pc = .notFull) → ∃ p, (s.producers p).pc.sends = true) →
        ∃ g, Accounts perInsert perFetch size items g (s.fetched c buf recvBuf)) := by
  obtain ⟨xs, ok⟩ := h.consumer c
  have empty : xs = [] := by
    have pc := ok.pc
    rwa [fetches] at pc
  subst empty
  rw [h.holds.isEmpty] at nonempty
  have length := List.length_pos_iff.mpr nonempty
  obtain ⟨k, count, first, left, leftSize, held, heldSize⟩ := transfer_spec perFetch h.holds ok.holds
  rw [moved] at first left leftSize held heldSize
  obtain rfl : i = k := first
  simp only at left leftSize held heldSize
  rw [ok.size, List.length_nil] at count
  have within : i ≤ (g.queued.map Prod.snd).length := by omega
  have taken : ((g.queued.map Prod.snd).take i).length = i := List.length_take_of_le within
  refine ⟨by omega, ?_, ?_, fun sends => ⟨g.fetch c i, ?_⟩⟩
  · rw [← left.length, ← h.holds.length, List.length_drop]
    omega
  · rw [← held.length, ← ok.holds.length, List.length_append, taken]
  exact {
    holds := by
      rw [← List.map_drop] at left
      exact left
    size := leftSize.trans h.size
    nProducers := h.nProducers
    nTerminated := h.nTerminated
    producer := fun p => by
      rw [sentBy_fetch]
      exact h.producer p
    consumer := fun d => by
      by_cases eq : d = c
      · subst eq
        rw [System.fetched, System.setConsumer_self, fetchedBy_fetch]
        refine ⟨_, held, heldSize.trans ok.size, ?_, ?_⟩
        · rw [List.nil_append, ← ok.kept, List.append_nil]
        · refine List.ne_nil_of_length_pos ?_
          rw [List.nil_append, taken]
          omega
      · rw [System.fetched, System.setConsumer_of_ne eq, fetchedBy_fetch_ne _ eq]
        exact h.consumer d
    ended := fun d done => by
      by_cases eq : d = c
      · subst eq
        rw [System.fetched, System.setConsumer_self] at done
        cases done
      · rw [System.fetched, System.setConsumer_of_ne eq] at done
        exact absurd (congrArg (List.map Prod.snd) (h.ended d done).1) nonempty
    hopes := fun d waits => by
      by_cases eq : d = c
      · subst eq
        rw [System.fetched, System.setConsumer_self] at waits
        cases waits
      · rw [System.fetched, System.setConsumer_of_ne eq] at waits
        exact h.hopes d waits
    fetches := fun _ => ⟨c, by rw [System.fetched, System.setConsumer_self]; rfl⟩
    sends := fun _ => sends
    failed := h.failed }

/-- Waking a thread that receives keeps the accounts. -/
lemma Accounts.wakeConsumer (h : Accounts perInsert perFetch size items g s) (waits : (s.consumers c).pc = .notEmpty) :
    Accounts perInsert perFetch size items g (s.setConsumer c { s.consumers c with pc := .dequeue }) := by
  obtain ⟨buf, ok⟩ := h.consumer c
  refine h.setConsumer ⟨buf, ok.holds, ok.size, ok.kept, ?_⟩ nofun nofun fun _ => rfl
  have pc := ok.pc
  rwa [waits] at pc

/-- So does waking a thread that sends. -/
lemma Accounts.wakeProducer (h : Accounts perInsert perFetch size items g s) (waits : (s.producers p).pc = .notFull) :
    Accounts perInsert perFetch size items g (s.setProducer p { s.producers p with pc := .woken }) := by
  obtain ⟨buf, ok⟩ := h.producer p
  refine h.setProducer ⟨buf, ok.holds, ok.size, ok.kept, ?_⟩ (fun e => ?_) nofun (.inl rfl)
  · have pc := ok.pc
    rwa [waits] at pc
  · rw [waits] at e
    cases e

/-- A thread terminates the queue, and wakes whoever waits if it is the last one. -/
lemma Accounts.retire (h : Accounts perInsert perFetch size items g s) (leaves : (s.producers p).pc = .terminate)
    {consumers : Fin n → Consumer α}
    (woken : ∀ c, consumers c = s.consumers c ∨
      (s.consumers c).pc = .notEmpty ∧ consumers c = ⟨.dequeue, (s.consumers c).recvBuf, (s.consumers c).got⟩)
    {producers : Fin m → Producer α}
    (retired : producers = Function.update s.producers p ⟨.done, (s.producers p).todo, (s.producers p).sendBuf⟩)
    (hopes : ∀ c, (consumers c).pc = .notEmpty → ∃ q, (producers q).pc ≠ .done) :
    Accounts perInsert perFetch size items g
      ⟨{ s.que with nTerminated := s.que.nTerminated + 1 }, producers, consumers, s.failed⟩ := by
  have self : producers p = ⟨.done, (s.producers p).todo, (s.producers p).sendBuf⟩ := by
    rw [retired, Function.update_self]
  have other {q : Fin m} (ne : q ≠ p) : producers q = s.producers q := by rw [retired, Function.update_of_ne ne]
  exact {
    holds := h.holds
    size := h.size
    nProducers := h.nProducers
    nTerminated := by
      have sum := Team.sum_update s.producers p ⟨.done, (s.producers p).todo, (s.producers p).sendBuf⟩
        fun y => if y.pc = .done then 1 else 0
      simp only [leaves, reduceCtorEq, if_false, if_true, Nat.add_zero] at sum
      rw [retired, sum, h.nTerminated]
    producer := fun q => by
      change ∃ buf, (producers q).Ok _ _ _ buf
      by_cases eq : q = p
      · subst eq
        obtain ⟨buf, ok⟩ := h.producer q
        have pc := ok.pc
        rw [leaves] at pc
        rw [self]
        exact ⟨buf, ok.holds, ok.size, ok.kept, pc⟩
      · rw [other eq]
        exact h.producer q
    consumer := fun c => by
      change ∃ buf, (consumers c).Ok _ _ buf
      obtain ⟨buf, ok⟩ := h.consumer c
      rcases woken c with same | ⟨waits, woken⟩
      · rw [same]
        exact ⟨buf, ok⟩
      · have pc := ok.pc
        rw [waits] at pc
        rw [woken]
        exact ⟨buf, ok.holds, ok.size, ok.kept, pc⟩
    ended := fun c done => by
      change (consumers c).pc = .done at done
      rcases woken c with same | ⟨_, woken⟩
      · rw [same] at done
        have old := (h.ended c done).2 p
        rw [leaves] at old
        cases old
      · rw [woken] at done
        cases done
    hopes := hopes
    fetches := fun nonempty => by
      obtain ⟨c, awake⟩ := h.fetches nonempty
      refine ⟨c, ?_⟩
      change (consumers c).pc.awake = true
      rcases woken c with same | ⟨waits, _⟩
      · rw [same]
        exact awake
      · rw [waits] at awake
        cases awake
    sends := fun empty ⟨q, waits⟩ => by
      change (producers q).pc = .notFull at waits
      have ne : q ≠ p := fun eq => by
        rw [eq, self] at waits
        cases waits
      rw [other ne] at waits
      obtain ⟨r, sends⟩ := h.sends empty ⟨q, waits⟩
      have ne' : r ≠ p := fun eq => by
        rw [eq, leaves] at sends
        cases sends
      refine ⟨r, ?_⟩
      change (producers r).pc.sends = true
      rw [other ne']
      exact sends
    failed := h.failed }

/-- A thread that receives is woken, whatever has been sent. -/
lemma signalNotEmpty_sent {sendBuf buf : Ringbuffer α} {wakes : Option (Fin n)}
    (signals : (s.sent p sendBuf buf).signalNotEmpty wakes = some t) :
    ∃ s₁, s.signalNotEmpty wakes = some s₁ ∧ s₁.sent p sendBuf buf = t := by
  cases wakes with
  | none =>
    obtain ⟨none, e⟩ := Option.ite_none_right_eq_some.mp signals
    exact ⟨s, if_pos none, Option.some.inj e⟩
  | some c =>
    obtain ⟨waits, e⟩ := Option.ite_none_right_eq_some.mp signals
    exact ⟨_, if_pos waits, Option.some.inj e⟩

/-- A thread that sends is woken, whatever has been fetched. -/
lemma signalNotFull_fetched {buf recvBuf : Ringbuffer α} {wakes : Option (Fin m)}
    (signals : (s.fetched c buf recvBuf).signalNotFull wakes = some t) :
    ∃ s₁, s.signalNotFull wakes = some s₁ ∧ s₁.fetched c buf recvBuf = t := by
  cases wakes with
  | none =>
    obtain ⟨none, e⟩ := Option.ite_none_right_eq_some.mp signals
    exact ⟨s, if_pos none, Option.some.inj e⟩
  | some p =>
    obtain ⟨waits, e⟩ := Option.ite_none_right_eq_some.mp signals
    exact ⟨_, if_pos waits, Option.some.inj e⟩

/-- After the signal for items someone comes for them. -/
lemma Accounts.signalNotEmpty (h : Accounts perInsert perFetch size items g s) (some_consumer : 0 < n)
    (active : (s.producers p).pc ≠ .done) {wakes : Option (Fin n)} (signals : s.signalNotEmpty wakes = some t) :
    Accounts perInsert perFetch size items g t ∧ t.producers = s.producers ∧ t.que = s.que ∧
      (∃ c, (t.consumers c).pc.awake = true) ∧ t.work ≤ s.work + 1 := by
  cases wakes with
  | none =>
    obtain ⟨none, e⟩ := Option.ite_none_right_eq_some.mp signals
    obtain rfl := Option.some.inj e
    have awake : (s.consumers ⟨0, some_consumer⟩).pc.awake = true := by
      cases eq : (s.consumers ⟨0, some_consumer⟩).pc with
      | notEmpty => exact absurd eq (none _)
      | done => exact absurd ((h.ended _ eq).2 p) active
      | consume | dequeue | take => rfl
    exact ⟨h, rfl, rfl, ⟨_, awake⟩, by omega⟩
  | some c =>
    obtain ⟨waits, e⟩ := Option.ite_none_right_eq_some.mp signals
    obtain rfl : s.setConsumer c ⟨.dequeue, (s.consumers c).recvBuf, (s.consumers c).got⟩ = t := Option.some.inj e
    refine ⟨h.wakeConsumer waits, rfl, rfl, ⟨c, by rw [System.setConsumer_self]; rfl⟩, ?_⟩
    have work := s.work_setConsumer c ⟨.dequeue, (s.consumers c).recvBuf, (s.consumers c).got⟩
    simp only [Consumer.work, ConsumerPc.work, waits] at work
    omega

/-- After the signal for room someone who has items does not wait. -/
lemma Accounts.signalNotFull (h : Accounts perInsert perFetch size items g s) {wakes : Option (Fin m)}
    (signals : s.signalNotFull wakes = some t) :
    Accounts perInsert perFetch size items g t ∧ t.consumers = s.consumers ∧ t.que = s.que ∧
      ((∃ p, (t.producers p).pc = .notFull) → ∃ p, (t.producers p).pc.sends = true) ∧ t.work ≤ s.work + 1 := by
  cases wakes with
  | none =>
    obtain ⟨none, e⟩ := Option.ite_none_right_eq_some.mp signals
    obtain rfl := Option.some.inj e
    exact ⟨h, rfl, rfl, fun ⟨p, waits⟩ => absurd waits (none p), by omega⟩
  | some p =>
    obtain ⟨waits, e⟩ := Option.ite_none_right_eq_some.mp signals
    obtain rfl : s.setProducer p ⟨.woken, (s.producers p).todo, (s.producers p).sendBuf⟩ = t := Option.some.inj e
    refine ⟨h.wakeProducer waits, rfl, rfl, fun _ => ⟨p, by rw [System.setProducer_self]; rfl⟩, ?_⟩
    have work := s.work_setProducer p ⟨.woken, (s.producers p).todo, (s.producers p).sendBuf⟩
    simp only [Producer.work, ProducerPc.work, waits] at work
    omega

/-- `queue_enqueue` -/
lemma Accounts.enqueue (h : Accounts perInsert perFetch size items g s) (positive : 0 < perInsert) (room : 0 < size)
    (some_consumer : 0 < n) (sends : (s.producers p).pc.sends = true) {wakes : Option (Fin n)}
    (step : s.enqueue perInsert p wakes = some t) :
    (∃ g, Accounts perInsert perFetch size items g t) ∧ t.work < s.work := by
  have old : (s.producers p).pc ≠ .done := fun e => by
    rw [e] at sends
    cases sends
  have own : (s.producers p).pc.work n = 1 := by
    cases eq : (s.producers p).pc <;> rw [eq] at sends <;> first | rfl | cases sends
  unfold System.enqueue at step
  split at step
  case isTrue full =>
    cases wakes with
    | some c => cases step
    | none =>
      obtain rfl : s.setProducer p ⟨.notFull, (s.producers p).todo, (s.producers p).sendBuf⟩ = t := Option.some.inj step
      obtain ⟨buf, ok⟩ := h.producer p
      have nonempty : g.queued ≠ [] := fun empty => by
        have := h.holds.isFull.mp full
        rw [empty, h.size] at this
        simp only [List.map_nil, List.length_nil] at this
        omega
      have pc : buf ≠ [] := by
        have pc := ok.pc
        cases eq : (s.producers p).pc <;> rw [eq] at pc sends <;> first | exact pc | cases sends
      refine ⟨⟨g, h.setProducer ⟨buf, ok.holds, ok.size, ok.kept, pc⟩ old nofun (.inr (.inr nonempty))⟩, ?_⟩
      have work := s.work_setProducer p ⟨.notFull, (s.producers p).todo, (s.producers p).sendBuf⟩
      simp only [Producer.work, own] at work
      simp only [ProducerPc.work] at work
      omega
  case isFalse notFull =>
    obtain ⟨⟨i, sendBuf, buf⟩, moved⟩ : ∃ r, transfer perInsert (s.producers p).sendBuf s.que.buf = r := ⟨_, rfl⟩
    obtain ⟨some_moved, left, more, _⟩ := h.send positive sends notFull moved
    simp only [moved] at step
    have checked : decide (i ≥ 1) = true := decide_eq_true some_moved
    rw [if_pos some_moved, System.assert_true checked] at step
    obtain ⟨s₁, signals, rfl⟩ := signalNotEmpty_sent step
    obtain ⟨h₁, producers, que, awake, work⟩ := h.signalNotEmpty some_consumer old signals
    rw [← que] at notFull more
    rw [← producers] at sends left
    rw [← producers, ← que] at moved
    obtain ⟨_, _, _, after⟩ := h₁.send positive sends notFull moved
    have less := s₁.work_send p sends some_moved left more
    exact ⟨after awake, by omega⟩

/-- `queue_dequeue` -/
lemma Accounts.dequeue (h : Accounts perInsert perFetch size items g s) (positive : 0 < perFetch)
    (fetches : (s.consumers c).pc = .dequeue) {wakes : Option (Fin m)} (step : s.dequeue perFetch c wakes = some t) :
    (∃ g, Accounts perInsert perFetch size items g t) ∧ t.work < s.work := by
  unfold System.dequeue at step
  split at step
  case isTrue empty =>
    cases wakes with
    | some p => cases step
    | none =>
      obtain rfl : s.setConsumer c ⟨if s.que.isTerminated then .done else .notEmpty, (s.consumers c).recvBuf,
        (s.consumers c).got⟩ = t := Option.some.inj step
      obtain ⟨buf, ok⟩ := h.consumer c
      have none : g.queued = [] := List.map_eq_nil_iff.mp (h.holds.isEmpty.mp empty)
      have pc := ok.pc
      rw [fetches] at pc
      have work := s.work_setConsumer c ⟨if s.que.isTerminated then .done else .notEmpty, (s.consumers c).recvBuf,
        (s.consumers c).got⟩
      cases terminated : s.que.isTerminated with
      | true =>
        rw [terminated, if_pos rfl] at work
        rw [if_pos rfl]
        simp only [Consumer.work, ConsumerPc.work, fetches] at work
        refine ⟨⟨g, h.setConsumer ⟨buf, ok.holds, ok.size, ok.kept, pc⟩ ?_ nofun (absurd none)⟩, by omega⟩
        exact fun _ => ⟨none, h.isTerminated_iff.mp terminated⟩
      | false =>
        rw [terminated, if_neg Bool.false_ne_true] at work
        rw [if_neg Bool.false_ne_true]
        simp only [Consumer.work, ConsumerPc.work, fetches] at work
        refine ⟨⟨g, h.setConsumer ⟨buf, ok.holds, ok.size, ok.kept, pc⟩ nofun ?_ (absurd none)⟩, by omega⟩
        intro _
        by_contra all
        rw [h.isTerminated_iff.mpr fun p => by_contra fun pc => all ⟨p, pc⟩] at terminated
        cases terminated
  case isFalse nonempty =>
    obtain ⟨⟨i, buf, recvBuf⟩, moved⟩ : ∃ r, transfer perFetch s.que.buf (s.consumers c).recvBuf = r := ⟨_, rfl⟩
    obtain ⟨some_moved, left, more, _⟩ := h.fetch positive fetches nonempty moved
    simp only [moved] at step
    rw [if_pos some_moved] at step
    obtain ⟨s₁, signals, rfl⟩ := signalNotFull_fetched step
    obtain ⟨h₁, consumers, que, sends, work⟩ := h.signalNotFull signals
    rw [← que] at nonempty left
    rw [← consumers] at fetches more
    rw [← consumers, ← que] at moved
    obtain ⟨_, _, _, after⟩ := h₁.fetch positive fetches nonempty moved
    have less := s₁.work_fetch c fetches some_moved left more
    exact ⟨after sends, by omega⟩

/-- The buffer is filled from the items that are yet to be made, or the end is in sight. -/
lemma Accounts.produce (h : Accounts perInsert perFetch size items g s)
    (pc : (s.producers p).pc = .produce) :
    Accounts perInsert perFetch size items g (s.produce p) ∧ (s.produce p).work < s.work := by
  obtain ⟨buf, ok⟩ := h.producer p
  have room := ok.pc
  rw [pc] at room
  have old : (s.producers p).pc ≠ .done := by
    rw [pc]
    exact nofun
  unfold System.produce
  cases todo : (s.producers p).todo with
  | nil =>
    have work := s.work_setProducer p ⟨if (s.producers p).sendBuf.isEmpty then .terminate else .enqueue, [],
      (s.producers p).sendBuf⟩
    simp only [Producer.work, pc, todo, ProducerPc.work] at work
    have kept := ok.kept
    rw [todo] at kept
    simp only [todo]
    cases empty : (s.producers p).sendBuf.isEmpty with
    | true =>
      rw [empty, if_pos rfl] at work
      rw [if_pos rfl]
      refine ⟨h.setProducer ⟨buf, ok.holds, ok.size, kept, ok.holds.isEmpty.mp empty, rfl⟩ old nofun ?_, ?_⟩
      · exact .inr (.inl ⟨by rw [pc]; rfl, nofun⟩)
      · simp only at work
        omega
    | false =>
      rw [empty, if_neg Bool.false_ne_true] at work
      rw [if_neg Bool.false_ne_true]
      refine ⟨h.setProducer ⟨buf, ok.holds, ok.size, kept, fun none => ?_⟩ old nofun (.inl rfl), ?_⟩
      · rw [ok.holds.isEmpty.mpr none] at empty
        cases empty
      · simp only at work
        omega
  | cons item todo' =>
    have notFull : (!(s.producers p).sendBuf.isFull) = true := by
      rw [Bool.not_eq_true', Bool.eq_false_iff]
      intro full
      have := ok.holds.isFull.mp full
      have := ok.size
      omega
    have more := ok.holds.insert (by have := ok.size; omega) item
    have kept : g.sentBy p ++ (buf ++ [item]) ++ todo' = items p := by
      rw [← ok.kept, todo, List.append_assoc, List.append_assoc, List.append_assoc, List.singleton_append]
    have size := (Ringbuffer.size_insert (s.producers p).sendBuf item).trans ok.size
    have count : ((s.producers p).sendBuf.insert item).count = (s.producers p).sendBuf.count + 1 := by
      rw [← more.length, ← ok.holds.length, List.length_append, List.length_singleton]
    have factor : (n + 7) * ((s.producers p).sendBuf.count + 1) = (n + 7) * (s.producers p).sendBuf.count + (n + 7) :=
      Nat.mul_succ _ _
    have factor' : (n + 8) * (todo'.length + 1) = (n + 8) * todo'.length + (n + 8) := Nat.mul_succ _ _
    simp only [todo]
    rw [System.assert_true notFull]
    cases full : ((s.producers p).sendBuf.insert item).isFull with
    | true =>
      rw [if_pos rfl]
      refine ⟨h.setProducer ⟨_, more, size, kept, List.append_ne_nil_of_right_ne_nil _ (List.cons_ne_nil _ _)⟩ old
        nofun (.inl rfl), ?_⟩
      have work := s.work_setProducer p ⟨.enqueue, todo', (s.producers p).sendBuf.insert item⟩
      simp only [Producer.work, pc, todo, ProducerPc.work, count, List.length_cons] at work
      omega
    | false =>
      rw [if_neg Bool.false_ne_true]
      refine ⟨h.setProducer ⟨_, more, size, kept, ?_⟩ old nofun (.inr (.inl ⟨by rw [pc]; rfl, nofun⟩)), ?_⟩
      · have bound := more.length_lt
        have notFull' := mt more.isFull.mpr (Bool.eq_false_iff.mp full)
        change (buf ++ [item]).length < perInsert
        omega
      · have work := s.work_setProducer p ⟨.produce, todo', (s.producers p).sendBuf.insert item⟩
        simp only [Producer.work, pc, todo, ProducerPc.work, count, List.length_cons] at work
        omega

/-- `queue_terminate` -/
lemma Accounts.terminate (h : Accounts perInsert perFetch size items g s) (pc : (s.producers p).pc = .terminate) :
    Accounts perInsert perFetch size items g (s.terminate p) ∧ (s.terminate p).work < s.work := by
  have sum := Team.sum_update s.producers p ⟨.done, (s.producers p).todo, (s.producers p).sendBuf⟩ (Producer.work n)
  have before : (s.producers p).work n = (n + 8) * (s.producers p).todo.length +
      (n + 7) * (s.producers p).sendBuf.count + (n + 1) := by rw [Producer.work, pc]; rfl
  have after : Producer.work n ⟨.done, (s.producers p).todo, (s.producers p).sendBuf⟩ =
      (n + 8) * (s.producers p).todo.length + (n + 7) * (s.producers p).sendBuf.count + 0 := rfl
  have counted : s.que.nTerminated + 1 = ∑ q, if (Function.update s.producers p
      ⟨.done, (s.producers p).todo, (s.producers p).sendBuf⟩ q).pc = .done then 1 else 0 := by
    have sum := Team.sum_update s.producers p ⟨.done, (s.producers p).todo, (s.producers p).sendBuf⟩
      fun y => if y.pc = .done then 1 else 0
    simp only [pc, reduceCtorEq, if_false, if_true, Nat.add_zero] at sum
    rw [sum, h.nTerminated]
  have bounded : decide ((s.retired p).que.nTerminated ≤ (s.retired p).que.nProducers) = true := by
    refine decide_eq_true ?_
    change s.que.nTerminated + 1 ≤ s.que.nProducers
    rw [counted, h.nProducers, Finset.sum_boole, Nat.cast_id]
    exact (Finset.card_filter_le _ _).trans_eq (by rw [Finset.card_univ, Fintype.card_fin])
  have all : (s.retired p).que.isTerminated = true ↔ _ := Dedup.isTerminated_iff h.nProducers counted
  have unfolded : s.terminate p =
      if (s.retired p).que.isTerminated then (s.retired p).broadcastNotEmpty else s.retired p := by
    unfold System.terminate
    simp only
    rw [System.assert_true bounded]
  rw [unfolded]
  split
  case isTrue last =>
    refine ⟨h.retire pc (fun c => ?_) rfl fun c waits => ?_, ?_⟩
    · by_cases waits : (s.consumers c).pc = .notEmpty
      · exact .inr ⟨waits, if_pos waits⟩
      · exact .inl (if_neg waits)
    · change ((s.retired p).broadcastNotEmpty.consumers c).pc = .notEmpty at waits
      by_cases waited : (s.consumers c).pc = .notEmpty
      · rw [show (s.retired p).broadcastNotEmpty.consumers c = ⟨.dequeue, _, _⟩ from if_pos waited] at waits
        cases waits
      · rw [show (s.retired p).broadcastNotEmpty.consumers c = s.consumers c from if_neg waited] at waits
        exact absurd waits waited
    · have each (c : Fin n) :
          (if (s.consumers c).pc = .notEmpty then ⟨.dequeue, (s.consumers c).recvBuf, (s.consumers c).got⟩
            else s.consumers c : Consumer α).work ≤ (s.consumers c).work + 1 := by
        split
        case isTrue waits => simp only [Consumer.work, ConsumerPc.work, waits, Nat.le_refl, Nat.add_zero]
        case isFalse => exact Nat.le_succ _
      have woken := Finset.sum_le_sum fun c (_ : c ∈ Finset.univ) => each c
      rw [Finset.sum_add_distrib, Finset.sum_const, Finset.card_univ, Fintype.card_fin, smul_eq_mul, Nat.mul_one]
        at woken
      unfold System.work System.broadcastNotEmpty System.retired System.setProducer
      simp only
      omega
  case isFalse more =>
    refine ⟨h.retire pc (fun c => .inl rfl) rfl fun c waits => ?_, ?_⟩
    · by_contra none
      exact more (all.mpr fun q => by_contra fun pc => none ⟨q, pc⟩)
    · unfold System.work System.retired System.setProducer
      simp only
      omega

/-- An item reaches the thread that fetched it. -/
lemma Accounts.take (h : Accounts perInsert perFetch size items g s) (pc : (s.consumers c).pc = .take) :
    Accounts perInsert perFetch size items g (s.take c) ∧ (s.take c).work < s.work := by
  obtain ⟨buf, ok⟩ := h.consumer c
  have nonempty := ok.pc
  rw [pc] at nonempty
  obtain ⟨item, rest, rfl⟩ := List.exists_cons_of_ne_nil nonempty
  obtain ⟨first, left⟩ := ok.holds.remove
  have removed : (s.consumers c).recvBuf.remove = (some item, (s.consumers c).recvBuf.remove.2) := by rw [← first]
  have count : (s.consumers c).recvBuf.remove.2.count + 1 = (s.consumers c).recvBuf.count := by
    rw [← left.length, ← ok.holds.length, List.length_cons]
  have kept : (s.consumers c).got ++ [item] ++ rest = g.fetchedBy c := by
    rw [List.append_assoc, List.singleton_append, ok.kept]
  have unfolded : s.take c =
      s.setConsumer c ⟨.consume, (s.consumers c).recvBuf.remove.2, (s.consumers c).got ++ [item]⟩ := by
    unfold System.take
    simp only
    rw [removed]
  rw [unfolded]
  refine ⟨h.setConsumer ⟨rest, left, ?_, kept, trivial⟩ nofun nofun fun _ => rfl, ?_⟩
  · exact (Ringbuffer.size_remove _).trans ok.size
  · have work := s.work_setConsumer c ⟨.consume, (s.consumers c).recvBuf.remove.2, (s.consumers c).got ++ [item]⟩
    simp only [Consumer.work, ConsumerPc.work, pc] at work
    omega

/-- A thread looks whether it has to fetch. -/
lemma Accounts.consume (h : Accounts perInsert perFetch size items g s) (pc : (s.consumers c).pc = .consume) :
    Accounts perInsert perFetch size items g (s.consume c) ∧ (s.consume c).work < s.work := by
  obtain ⟨buf, ok⟩ := h.consumer c
  unfold System.consume
  simp only
  cases empty : (s.consumers c).recvBuf.isEmpty with
  | true =>
    rw [if_pos rfl]
    refine ⟨h.setConsumer ⟨buf, ok.holds, ok.size, ok.kept, ok.holds.isEmpty.mp empty⟩ nofun nofun fun _ => rfl, ?_⟩
    have work := s.work_setConsumer c ⟨.dequeue, (s.consumers c).recvBuf, (s.consumers c).got⟩
    simp only [Consumer.work, ConsumerPc.work, pc] at work
    omega
  | false =>
    rw [if_neg Bool.false_ne_true]
    refine ⟨h.setConsumer ⟨buf, ok.holds, ok.size, ok.kept, fun none => ?_⟩ nofun nofun fun _ => rfl, ?_⟩
    · rw [ok.holds.isEmpty.mpr none] at empty
      cases empty
    · have work := s.work_setConsumer c ⟨.take, (s.consumers c).recvBuf, (s.consumers c).got⟩
      simp only [Consumer.work, ConsumerPc.work, pc] at work
      omega

/-- A step keeps the accounts, and there is less to do after it unless a thread woke up on its own. -/
lemma Accounts.step (h : Accounts perInsert perFetch size items g s) (insert : 0 < perInsert) (fetch : 0 < perFetch)
    (room : 0 < size) (some_consumer : 0 < n) {a : QueueAction m n} (step : s.step perInsert perFetch a = some t) :
    (∃ g, Accounts perInsert perFetch size items g t) ∧ t.work + 1 ≤ s.work + if a.own then 0 else 2 := by
  cases a with
  | producer p wakes =>
    change s.producerStep perInsert p wakes = some t at step
    suffices kept : (∃ g, Accounts perInsert perFetch size items g t) ∧ t.work < s.work from
      ⟨kept.1, kept.2⟩
    unfold System.producerStep at step
    split at step
    case h_1 pc =>
      obtain rfl := Option.some.inj step
      exact ⟨⟨g, (h.produce pc).1⟩, (h.produce pc).2⟩
    case h_2 pc =>
      have notTerminated : (!s.que.isTerminated) = true := by
        rw [Bool.not_eq_true', Bool.eq_false_iff]
        intro terminated
        have done := h.isTerminated_iff.mp terminated p
        rw [pc] at done
        cases done
      rw [System.assert_true notTerminated] at step
      exact h.enqueue insert room some_consumer (by rw [pc]; rfl) step
    case h_3 pc => exact h.enqueue insert room some_consumer (by rw [pc]; rfl) step
    case h_4 pc =>
      obtain rfl := Option.some.inj step
      exact ⟨⟨g, (h.terminate pc).1⟩, (h.terminate pc).2⟩
    case h_5 => cases step
  | consumer c wakes =>
    change s.consumerStep perFetch c wakes = some t at step
    suffices kept : (∃ g, Accounts perInsert perFetch size items g t) ∧ t.work < s.work from
      ⟨kept.1, kept.2⟩
    unfold System.consumerStep at step
    split at step
    case h_1 pc =>
      obtain rfl := Option.some.inj step
      exact ⟨⟨g, (h.consume pc).1⟩, (h.consume pc).2⟩
    case h_2 pc => exact h.dequeue fetch pc step
    case h_3 pc =>
      obtain rfl := Option.some.inj step
      exact ⟨⟨g, (h.take pc).1⟩, (h.take pc).2⟩
    case h_4 => cases step
  | wakeProducer p =>
    obtain ⟨waits, e⟩ := Option.ite_none_right_eq_some.mp step
    obtain rfl : s.setProducer p ⟨.woken, (s.producers p).todo, (s.producers p).sendBuf⟩ = t := Option.some.inj e
    refine ⟨⟨g, h.wakeProducer waits⟩, ?_⟩
    have work := s.work_setProducer p ⟨.woken, (s.producers p).todo, (s.producers p).sendBuf⟩
    simp only [Producer.work, ProducerPc.work, waits] at work
    simp only [QueueAction.own, Bool.false_eq_true, if_false]
    omega
  | wakeConsumer c =>
    obtain ⟨waits, e⟩ := Option.ite_none_right_eq_some.mp step
    obtain rfl : s.setConsumer c ⟨.dequeue, (s.consumers c).recvBuf, (s.consumers c).got⟩ = t := Option.some.inj e
    refine ⟨⟨g, h.wakeConsumer waits⟩, ?_⟩
    have work := s.work_setConsumer c ⟨.dequeue, (s.consumers c).recvBuf, (s.consumers c).got⟩
    simp only [Consumer.work, ConsumerPc.work, waits] at work
    simp only [QueueAction.own, Bool.false_eq_true, if_false]
    omega

/-- A signal wakes some thread, if there is one that waits. -/
lemma exists_signalNotEmpty (s : System m n α) : ∃ wakes t, s.signalNotEmpty wakes = some t := by
  by_cases waits : ∃ c, (s.consumers c).pc = .notEmpty
  · obtain ⟨c, waits⟩ := waits
    exact ⟨some c, _, if_pos waits⟩
  · exact ⟨none, s, if_pos fun c waits' => waits ⟨c, waits'⟩⟩

/-- So does the one to the threads that send. -/
lemma exists_signalNotFull (s : System m n α) : ∃ wakes t, s.signalNotFull wakes = some t := by
  by_cases waits : ∃ p, (s.producers p).pc = .notFull
  · obtain ⟨p, waits⟩ := waits
    exact ⟨some p, _, if_pos waits⟩
  · exact ⟨none, s, if_pos fun p waits' => waits ⟨p, waits'⟩⟩

/-- A thread that sends can go on. -/
lemma exists_enqueue (s : System m n α) (p : Fin m) : ∃ wakes t, s.enqueue perInsert p wakes = some t := by
  unfold System.enqueue
  split
  case isTrue => exact ⟨none, _, rfl⟩
  case isFalse =>
    simp only
    split
    case isTrue => exact exists_signalNotEmpty _
    case isFalse => exact ⟨none, _, if_pos rfl⟩

/-- A thread that receives can go on. -/
lemma exists_dequeue (s : System m n α) (c : Fin n) : ∃ wakes t, s.dequeue perFetch c wakes = some t := by
  unfold System.dequeue
  split
  case isTrue => exact ⟨none, _, rfl⟩
  case isFalse =>
    simp only
    split
    case isTrue => exact exists_signalNotFull _
    case isFalse => exact ⟨none, _, if_pos rfl⟩

/-- A thread that sends can go on unless it waits or has returned. -/
lemma producer_stuck (stuck : ∀ wakes, s.producerStep perInsert p wakes = none) :
    (s.producers p).pc = .notFull ∨ (s.producers p).pc = .done := by
  cases pc : (s.producers p).pc with
  | notFull => exact .inl rfl
  | done => exact .inr rfl
  | produce =>
    have some_step := stuck none
    unfold System.producerStep at some_step
    rw [pc] at some_step
    cases some_step
  | terminate =>
    have some_step := stuck none
    unfold System.producerStep at some_step
    rw [pc] at some_step
    cases some_step
  | enqueue =>
    obtain ⟨wakes, t, step⟩ := exists_enqueue (s.assert (!s.que.isTerminated)) p
    have none := stuck wakes
    unfold System.producerStep at none
    rw [pc] at none
    cases none.symm.trans step
  | woken =>
    obtain ⟨wakes, t, step⟩ := exists_enqueue s p
    have none := stuck wakes
    unfold System.producerStep at none
    rw [pc] at none
    cases none.symm.trans step

/-- A thread that receives can go on unless it waits or has returned. -/
lemma consumer_stuck (stuck : ∀ wakes, s.consumerStep perFetch c wakes = none) :
    (s.consumers c).pc = .notEmpty ∨ (s.consumers c).pc = .done := by
  cases pc : (s.consumers c).pc with
  | notEmpty => exact .inl rfl
  | done => exact .inr rfl
  | consume =>
    have some_step := stuck none
    unfold System.consumerStep at some_step
    rw [pc] at some_step
    cases some_step
  | take =>
    have some_step := stuck none
    unfold System.consumerStep at some_step
    rw [pc] at some_step
    cases some_step
  | dequeue =>
    obtain ⟨wakes, t, step⟩ := exists_dequeue s c
    have none := stuck wakes
    unfold System.consumerStep at none
    rw [pc] at none
    cases none.symm.trans step

/-- Where no thread can go on, all have returned. -/
lemma Accounts.finished (h : Accounts perInsert perFetch size items g s)
    (stuck : ∀ a, a.own = true → s.step perInsert perFetch a = none) :
    (∀ p, (s.producers p).pc = .done) ∧ ∀ c, (s.consumers c).pc = .done := by
  have producer (p : Fin m) := producer_stuck fun wakes => stuck (.producer p wakes) rfl
  have consumer (c : Fin n) := consumer_stuck fun wakes => stuck (.consumer c wakes) rfl
  have empty : g.queued = [] := by
    by_contra nonempty
    obtain ⟨c, awake⟩ := h.fetches nonempty
    rcases consumer c with pc | pc <;> rw [pc] at awake <;> cases awake
  have producers (p : Fin m) : (s.producers p).pc = .done := by
    rcases producer p with waits | done
    · obtain ⟨q, sends⟩ := h.sends empty ⟨p, waits⟩
      rcases producer q with pc | pc <;> rw [pc] at sends <;> cases sends
    · exact done
  refine ⟨producers, fun c => ?_⟩
  rcases consumer c with waits | done
  · obtain ⟨p, active⟩ := h.hopes c waits
    exact absurd (producers p) active
  · exact done

/-- A thread that has returned has sent all its items. -/
lemma Accounts.sentBy_of_done (h : Accounts perInsert perFetch size items g s) (done : (s.producers p).pc = .done) :
    g.sentBy p = items p := by
  obtain ⟨buf, ok⟩ := h.producer p
  have ends := ok.pc
  rw [done] at ends
  obtain ⟨none, all⟩ := ends
  rw [← ok.kept, none, all, List.append_nil, List.append_nil]

/-- The accounts at the start. -/
lemma accounts_start (perInsert perFetch n size : ℕ) (positive : 0 < perInsert) (items : Fin m → List α) :
    Accounts perInsert perFetch size items ⟨[], []⟩ (System.start perInsert perFetch n size items) where
  holds := Ringbuffer.holds_init size
  size := rfl
  nProducers := rfl
  nTerminated := (Finset.sum_eq_zero fun _ _ => if_neg nofun).symm
  producer p := ⟨[], Ringbuffer.holds_init perInsert, rfl, rfl, positive⟩
  consumer c := ⟨[], Ringbuffer.holds_init perFetch, rfl, rfl, trivial⟩
  ended _ := nofun
  hopes _ := nofun
  fetches nonempty := absurd rfl nonempty
  sends _ := fun ⟨_, waits⟩ => by cases waits
  failed := rfl

/-- How much there is to do. -/
lemma work_start (perInsert perFetch n size : ℕ) (items : Fin m → List α) :
    (System.start perInsert perFetch n size items).work = ∑ p, ((n + 8) * (items p).length + (n + 2)) + 2 * n := by
  have none (size : ℕ) : (Ringbuffer.init size : Ringbuffer α).count = 0 := (Ringbuffer.holds_init size).length.symm
  unfold System.work System.start
  simp only [Producer.work, Consumer.work, none, ProducerPc.work, ConsumerPc.work, Nat.mul_zero, Nat.add_zero,
    Nat.zero_add]
  rw [Finset.sum_const, Finset.card_univ, Fintype.card_fin, smul_eq_mul, Nat.mul_comm n 2]

/-- Every run keeps the accounts, and its length is bounded. -/
lemma accounts_run (insert : 0 < perInsert) (fetch : 0 < perFetch) (room : 0 < size) (some_consumer : 0 < n)
    {as : List (QueueAction m n)}
    (reached : run (System.step perInsert perFetch) (.start perInsert perFetch n size items) as = some s) :
    (∃ g, Accounts perInsert perFetch size items g s) ∧
      as.countP (·.own) + s.work ≤ (System.start perInsert perFetch n size items).work + as.countP (!·.own) := by
  induction as using List.reverseRecOn generalizing s with
  | nil =>
    obtain rfl := Option.some.inj reached
    exact ⟨⟨_, accounts_start perInsert perFetch n size insert items⟩, by simp⟩
  | append_singleton as a ih =>
    obtain ⟨s', before, step⟩ := run_snoc.mp reached
    obtain ⟨⟨g, accounts⟩, count⟩ := ih before
    obtain ⟨kept, less⟩ := accounts.step insert fetch room some_consumer step
    refine ⟨kept, ?_⟩
    rw [List.countP_append, List.countP_append, List.countP_singleton, List.countP_singleton]
    cases own : a.own with
    | true =>
      rw [own] at less
      simp only [if_true, Bool.not_true, Bool.false_eq_true, if_false] at less ⊢
      omega
    | false =>
      rw [own] at less
      simp only [Bool.false_eq_true, if_false, Bool.not_false, if_true] at less ⊢
      omega

/-- In every order of steps, wakings up included: no `assert` fails, and every thread that receives has got items of
    one history in which each thread that sends has sent its items in its order, and none twice. A thread that
    receives returns only when all threads that send have returned and everything has been fetched. -/
theorem queue_accounts (insert : 0 < perInsert) (fetch : 0 < perFetch) (room : 0 < size) (some_consumer : 0 < n)
    {as : List (QueueAction m n)}
    (reached : run (System.step perInsert perFetch) (.start perInsert perFetch n size items) as = some s) :
    s.failed = false ∧
      ∃ g : History m n α, (∀ c, (s.consumers c).got <+: g.fetchedBy c) ∧ (∀ p, g.sentBy p <+: items p) ∧
        ∀ c, (s.consumers c).pc = .done →
          (s.consumers c).got = g.fetchedBy c ∧ g.queued = [] ∧ ∀ p, (s.producers p).pc = .done ∧ g.sentBy p = items p := by
  obtain ⟨⟨g, h⟩, _⟩ := accounts_run insert fetch room some_consumer reached
  refine ⟨h.failed, g, fun c => ?_, fun p => ?_, fun c done => ?_⟩
  · obtain ⟨buf, ok⟩ := h.consumer c
    exact ⟨buf, ok.kept⟩
  · obtain ⟨buf, ok⟩ := h.producer p
    exact ⟨buf ++ (s.producers p).todo, by rw [← List.append_assoc, ok.kept]⟩
  · obtain ⟨empty, all⟩ := h.ended c done
    obtain ⟨buf, ok⟩ := h.consumer c
    have none := ok.pc
    rw [done] at none
    refine ⟨by rw [← ok.kept, none, List.append_nil], empty, fun p => ⟨all p, h.sentBy_of_done (all p)⟩⟩

/-- Two threads send three items to two threads, through buffers and a queue that hold one item. The first item goes
    to the thread 1, before the thread 0, which it has woken, gets to run; the thread 0 has woken up on its own
    before. -/
def twoByTwo : List (QueueAction 2 2) :=
  let round : List (QueueAction 2 2) := [.consumer 0 none, .producer 0 none, .consumer 1 none, .producer 1 none]
  round ++
    [.consumer 0 none, .wakeConsumer 0, .consumer 0 none, .producer 0 (some 0), .consumer 1 none, .producer 1 none] ++
    round ++ round ++
    [.consumer 0 none, .producer 0 none, .consumer 1 none, .consumer 0 none, .producer 0 none, .consumer 1 none,
      .consumer 1 none, .consumer 0 none, .consumer 1 none]

/-- In the end, all four threads have returned. -/
lemma twoByTwo_done : ∃ s, run (System.step 1 1) (.start 1 1 2 1 ![[7, 8], [9]]) twoByTwo = some s ∧
    (∀ p, (s.producers p).pc = .done) ∧ ∀ c, (s.consumers c).pc = .done := by
  have ends : (run (System.step 1 1) (.start 1 1 2 1 ![[7, 8], [9]]) twoByTwo).any (fun s =>
      decide ((∀ p, (s.producers p).pc = .done) ∧ ∀ c, (s.consumers c).pc = .done)) = true := by decide +kernel
  obtain ⟨s, reached, returned⟩ := (Option.any_eq_true _ _).mp ends
  exact ⟨s, reached, of_decide_eq_true returned⟩

/-- The two threads have got what the other two have sent. -/
theorem queue_accounts_two :
    ∃ s, run (System.step 1 1) (.start 1 1 2 1 ![[7, 8], [9]]) twoByTwo = some s ∧ s.failed = false ∧
      ∃ g : History 2 2 ℕ, (∀ c, (s.consumers c).got = g.fetchedBy c) ∧ ∀ p, g.sentBy p = ![[7, 8], [9]] p := by
  obtain ⟨s, reached, _, done⟩ := twoByTwo_done
  obtain ⟨ok, g, _, _, ended⟩ := queue_accounts (by decide) (by decide) (by decide) (by decide) reached
  exact ⟨s, reached, ok, g, fun c => (ended c (done c)).1, fun p => ((ended 0 (done 0)).2.2 p).2⟩

/-- Without the threads that wake up on their own there are only so many steps, and where no thread can go on, all
    have returned and all items have been delivered. -/
theorem queue_delivers (insert : 0 < perInsert) (fetch : 0 < perFetch) (room : 0 < size) (some_consumer : 0 < n)
    {as : List (QueueAction m n)}
    (reached : run (System.step perInsert perFetch) (.start perInsert perFetch n size items) as = some s) :
    as.countP (·.own) ≤ ∑ p, ((n + 8) * (items p).length + (n + 2)) + 2 * n + as.countP (!·.own) ∧
      ((∀ a, a.own = true → s.step perInsert perFetch a = none) →
        ((∀ p, (s.producers p).pc = .done) ∧ ∀ c, (s.consumers c).pc = .done) ∧
          ∃ delivered : List (Fin n × Fin m × α),
            (∀ p, (delivered.filter (·.2.1 = p)).map (·.2.2) = items p) ∧
              ∀ c, (s.consumers c).got = (delivered.filter (·.1 = c)).map (·.2.2)) := by
  obtain ⟨⟨g, h⟩, count⟩ := accounts_run insert fetch room some_consumer reached
  rw [work_start] at count
  refine ⟨by omega, fun stuck => ?_⟩
  obtain ⟨producers, consumers⟩ := h.finished stuck
  refine ⟨⟨producers, consumers⟩, g.delivered, fun p => ?_, fun c => ?_⟩
  · have sent := h.sentBy_of_done (producers p)
    have empty := (h.ended ⟨0, some_consumer⟩ (consumers _)).1
    rw [History.sentBy, empty, List.append_nil, List.filter_map, List.map_map] at sent
    exact sent
  · obtain ⟨buf, ok⟩ := h.consumer c
    have none := ok.pc
    rw [consumers c] at none
    have kept := ok.kept
    rw [none, List.append_nil] at kept
    exact kept

/-- Each of the three items has been delivered once. -/
theorem queue_delivers_two :
    ∃ (s : System 2 2 ℕ) (delivered : List (Fin 2 × Fin 2 × ℕ)),
      run (System.step 1 1) (.start 1 1 2 1 ![[7, 8], [9]]) twoByTwo = some s ∧
      (∀ p, (delivered.filter (·.2.1 = p)).map (·.2.2) = ![[7, 8], [9]] p) ∧
      ∀ c, (s.consumers c).got = (delivered.filter (·.1 = c)).map (·.2.2) := by
  obtain ⟨s, reached, sent, received⟩ := twoByTwo_done
  have stuck : ∀ a : QueueAction 2 2, a.own = true → s.step 1 1 a = none := by
    intro a own
    cases a with
    | producer p wakes => simp only [System.step, System.producerStep, sent p]
    | consumer c wakes => simp only [System.step, System.consumerStep, received c]
    | wakeProducer p => cases own
    | wakeConsumer c => cases own
  obtain ⟨_, ends⟩ := queue_delivers (by decide) (by decide) (by decide) (by decide) reached
  obtain ⟨_, delivered, all⟩ := ends stuck
  exact ⟨s, delivered, reached, all⟩

end PromotionCache.Dedup
