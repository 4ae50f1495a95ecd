import Mathlib.Data.List.Range
import Mathlib.Data.Nat.Notation
import Mathlib.Logic.Function.Basic
import Mathlib.Tactic.Common

/-!
# Ring buffers

The inline functions of `dedup/queue.h`. A buffer has one slot more than it holds elements, and its two indices
stay inside of it, which the structure says. From `tail` on, up to `head`, stands a list (`contents`): `insert`
appends to it and `remove` takes its first element.
-/

namespace PromotionCache.Dedup

/-- `ringbuffer_t` -/
structure Ringbuffer (α : Type*) where
  head : ℕ
  tail : ℕ
  data : ℕ → Option α
  size : ℕ
  head_lt : head < size
  tail_lt : tail < size

namespace Ringbuffer

variable {α : Type*}

/-- `ringbuffer_init` -/
def init (size : ℕ) : Ringbuffer α := ⟨0, 0, fun _ => none, size + 1, size.succ_pos, size.succ_pos⟩

/-- `ringbuffer_isEmpty` -/
def isEmpty (buf : Ringbuffer α) : Bool := buf.tail == buf.head

/-- `ringbuffer_isFull` -/
def isFull (buf : Ringbuffer α) : Bool := buf.head == (buf.tail + buf.size - 1) % buf.size

/-- The index after an index, in `remove` and `insert`. -/
def next (buf : Ringbuffer α) (i : ℕ) : ℕ := if i + 1 ≥ buf.size then 0 else i + 1

/-- An index stays within the buffer. -/
lemma next_lt (buf : Ringbuffer α) (i : ℕ) : buf.next i < buf.size := by
  have := buf.head_lt
  unfold next
  split <;> omega

/-- `ringbuffer_remove` -/
def remove (buf : Ringbuffer α) : Option α × Ringbuffer α :=
  if buf.isEmpty then (none, buf)
  else (buf.data buf.tail, { buf with tail := buf.next buf.tail, tail_lt := buf.next_lt buf.tail })

/-- `ringbuffer_insert`, without what it returns: it changes nothing where it returns `-1`. -/
def insert (buf : Ringbuffer α) (ptr : α) : Ringbuffer α :=
  if buf.isFull then buf
  else
    { buf with
      data := Function.update buf.data buf.head (some ptr)
      head := buf.next buf.head
      head_lt := buf.next_lt buf.head }

/-- How many elements there are. -/
def count (buf : Ringbuffer α) : ℕ := (buf.head + buf.size - buf.tail) % buf.size

/-- The slot of the `i`-th element. -/
def slot (buf : Ringbuffer α) (i : ℕ) : ℕ := (buf.tail + i) % buf.size

/-- What the slots hold, from `tail` on. -/
def slots (buf : Ringbuffer α) : List (Option α) := (List.range buf.count).map fun i => buf.data (buf.slot i)

/-- The elements, oldest first, of a buffer whose slots are filled. -/
def Holds (buf : Ringbuffer α) (xs : List α) : Prop := buf.slots = xs.map some

variable {buf : Ringbuffer α} {xs : List α} {x : α}

/-- The number of elements, without a remainder. -/
lemma count_eq (buf : Ringbuffer α) :
    buf.count = if buf.tail ≤ buf.head then buf.head - buf.tail else buf.head + buf.size - buf.tail := by
  have := buf.head_lt
  have := buf.tail_lt
  unfold count
  split
  case isTrue le =>
    have shift : buf.head + buf.size - buf.tail = buf.head - buf.tail + buf.size := by omega
    rw [shift, Nat.add_mod_right, Nat.mod_eq_of_lt (by omega)]
  case isFalse => rw [Nat.mod_eq_of_lt (by omega)]

/-- The place of an element, without a remainder. -/
lemma slot_eq {i : ℕ} (lt : i < buf.size) :
    buf.slot i = if buf.tail + i < buf.size then buf.tail + i else buf.tail + i - buf.size := by
  have := buf.tail_lt
  unfold slot
  split
  case isTrue below => exact Nat.mod_eq_of_lt below
  case isFalse => rw [Nat.mod_eq_sub_mod (by omega), Nat.mod_eq_of_lt (by omega)]

/-- One place stays free. -/
lemma count_lt (buf : Ringbuffer α) : buf.count < buf.size := Nat.mod_lt _ (Nat.zero_lt_of_lt buf.head_lt)

/-- The buffer is empty if it has no element. -/
lemma isEmpty_iff : buf.isEmpty = true ↔ buf.count = 0 := by
  have := buf.head_lt
  have := buf.tail_lt
  rw [isEmpty, beq_iff_eq, count_eq]
  split <;> omega

/-- It is full if one place is free. -/
lemma isFull_iff : buf.isFull = true ↔ buf.count + 1 = buf.size := by
  have := buf.head_lt
  have := buf.tail_lt
  have last : (buf.tail + buf.size - 1) % buf.size = if buf.tail = 0 then buf.size - 1 else buf.tail - 1 := by
    split
    case isTrue zero => rw [zero, Nat.zero_add, Nat.mod_eq_of_lt (by omega)]
    case isFalse =>
      have shift : buf.tail + buf.size - 1 = buf.tail - 1 + buf.size := by omega
      rw [shift, Nat.add_mod_right, Nat.mod_eq_of_lt (by omega)]
  rw [isFull, beq_iff_eq, last, count_eq]
  split <;> split <;> omega

/-- The buffer has as many elements as the list. -/
lemma Holds.length (h : buf.Holds xs) : xs.length = buf.count := by
  have sizes := congrArg List.length h
  rw [slots, List.length_map, List.length_range, List.length_map] at sizes
  exact sizes.symm

/-- A new buffer holds nothing. -/
lemma holds_init (size : ℕ) : (init size : Ringbuffer α).Holds [] := by
  have none : (init size : Ringbuffer α).count = 0 := by
    rw [count_eq]
    rfl
  rw [Holds, slots, none]
  rfl

/-- The buffer is empty if and only if the list is. -/
lemma Holds.isEmpty (h : buf.Holds xs) : buf.isEmpty = true ↔ xs = [] := by
  rw [isEmpty_iff, ← h.length, List.length_eq_zero_iff]

/-- The buffer is full if and only if the list has one element less than it has places. -/
lemma Holds.isFull (h : buf.Holds xs) : buf.isFull = true ↔ xs.length + 1 = buf.size := by
  rw [isFull_iff, h.length]

/-- The list is shorter than the buffer. -/
lemma Holds.length_lt (h : buf.Holds xs) : xs.length < buf.size := h.length ▸ buf.count_lt

/-- What is inserted is the last element. -/
lemma Holds.insert (h : buf.Holds xs) (room : xs.length + 1 < buf.size) (x : α) : (buf.insert x).Holds (xs ++ [x]) := by
  have notFull : ¬ buf.isFull = true := fun full => by
    have := h.isFull.mp full
    omega
  have inside := buf.head_lt
  have inside' := buf.tail_lt
  have length := h.length
  have size : (buf.insert x).size = buf.size := by rw [Ringbuffer.insert, if_neg notFull]
  have tail : (buf.insert x).tail = buf.tail := by rw [Ringbuffer.insert, if_neg notFull]
  have data : (buf.insert x).data = Function.update buf.data buf.head (some x) := by
    rw [Ringbuffer.insert, if_neg notFull]
  have head : (buf.insert x).head = buf.next buf.head := by rw [Ringbuffer.insert, if_neg notFull]
  have more : (buf.insert x).count = xs.length + 1 := by
    rw [length] at room ⊢
    rw [count_eq] at room ⊢
    rw [count_eq, head, tail, size]
    unfold next
    split at room <;> split <;> split <;> omega
  have last : buf.slot xs.length = buf.head := by
    rw [slot_eq h.length_lt, length, count_eq]
    split <;> split <;> omega
  have same (i : ℕ) : (buf.insert x).slot i = buf.slot i := by rw [slot, slot, tail, size]
  rw [Holds, slots, more, List.range_succ, List.map_append, List.map_append, data, ← h, slots, length]
  refine congrArg₂ _ (List.map_congr_left fun i mem => ?_) ?_
  · have lt := List.mem_range.mp mem
    have other : buf.slot i ≠ buf.head := by
      rw [slot_eq (lt.trans buf.count_lt)]
      rw [count_eq] at lt
      split <;> split at lt <;> omega
    rw [same, Function.update_of_ne other]
  · rw [List.map_singleton, same, ← length, last, Function.update_self]
    rfl

/-- What is removed is the first element. -/
lemma Holds.remove (h : buf.Holds (x :: xs)) : buf.remove.1 = some x ∧ buf.remove.2.Holds xs := by
  have notEmpty : ¬ buf.isEmpty = true := fun empty => List.cons_ne_nil x xs (h.isEmpty.mp empty)
  have inside := buf.head_lt
  have inside' := buf.tail_lt
  have length := h.length
  rw [List.length_cons] at length
  rw [Ringbuffer.remove, if_neg notEmpty]
  have unrolled := h
  rw [Holds, slots, ← length, List.range_succ_eq_map, List.map_cons, List.map_cons, List.map_map, List.cons.injEq]
    at unrolled
  obtain ⟨first, rest⟩ := unrolled
  refine ⟨?_, ?_⟩
  · rw [slot, Nat.add_zero, Nat.mod_eq_of_lt inside'] at first
    exact first
  · have fewer : Ringbuffer.count { buf with tail := buf.next buf.tail, tail_lt := buf.next_lt buf.tail } = xs.length := by
      rw [count_eq] at length ⊢
      simp only [next]
      split at length <;> split <;> split <;> omega
    rw [Holds, slots, fewer, ← rest]
    refine List.map_congr_left fun i mem => congrArg buf.data ?_
    have lt := List.mem_range.mp mem
    have bound := h.length_lt
    rw [List.length_cons] at bound
    rw [slot_eq (by simp only; omega), slot_eq (by omega)]
    simp only [next]
    split <;> split <;> split <;> omega

/-- Taking an element out does not change the size. -/
lemma size_remove (buf : Ringbuffer α) : buf.remove.2.size = buf.size := by
  unfold remove
  split <;> rfl

/-- Nor does putting one in. -/
lemma size_insert (buf : Ringbuffer α) (x : α) : (buf.insert x).size = buf.size := by
  unfold insert
  split <;> rfl

end Ringbuffer

end PromotionCache.Dedup
