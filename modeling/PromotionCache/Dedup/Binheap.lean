import PromotionCache.Lib.Heap

/-!
# Priority queues

`dedup/binheap.c`: binary heaps of chunks, by their second sequence numbers (`l2num`). Slot 0 holds `NULL`, which
stops the loop of `Insert`. A queue stands for the multiset of its elements (`Holds`): `Insert` adds one, `FindMin`
has the smallest number, and `DeleteMin` takes it away. `malloc` and `realloc` always find room here.
-/

namespace PromotionCache.Dedup
open Lib

/-- `struct HeapStruct` -/
structure PriorityQueue (α : Type*) where
  capacity : ℕ
  size : ℕ
  elements : ℕ → Option α

namespace PriorityQueue

variable {α : Type*}

/-- `Initialize`, for a capacity that is not too small -/
def initial (initCapacity : ℕ) : PriorityQueue α := ⟨initCapacity, 0, fun _ => none⟩

/-- `IsEmpty` -/
def isEmpty (h : PriorityQueue α) : Bool := h.size == 0

/-- `IsFull` -/
def isFull (h : PriorityQueue α) : Bool := h.size == h.capacity

/-- `FindMin` -/
def findMin (h : PriorityQueue α) : Option α := if h.isEmpty then none else h.elements 1

section
variable (l2num : α → ℕ)

/-- The number of the chunk in a slot, which is not `NULL` where the number is read. -/
def num (e : Option α) : ℕ := e.elim 0 l2num

/-- The loop of `Insert`, from slot `i` on. -/
def percolateUp (elements : ℕ → Option α) (x : α) (i : ℕ) : ℕ → Option α :=
  if _ : 0 < i then
    match elements (i / 2) with
    | none => Function.update elements i (some x)
    | some parent =>
      if l2num parent > l2num x then percolateUp (Function.update elements i (some parent)) x (i / 2)
      else Function.update elements i (some x)
  else Function.update elements i (some x)
termination_by i

/-- `Insert` -/
def insert (x : α) (h : PriorityQueue α) : PriorityQueue α :=
  let h := if h.isFull then { h with capacity := 2 * h.capacity } else h
  if h.size = 0 then { h with elements := Function.update h.elements 1 (some x), size := 1 }
  else
    let h := { h with size := h.size + 1 }
    { h with elements := percolateUp l2num h.elements x h.size }

/-- The smaller child of slot `i`. -/
def smallerChild (elements : ℕ → Option α) (size i : ℕ) : ℕ :=
  let child := i * 2
  if child ≠ size ∧ num l2num (elements (child + 1)) < num l2num (elements child) then child + 1 else child

/-- The loop of `DeleteMin`, from slot `i` on. -/
def percolateDown (elements : ℕ → Option α) (size : ℕ) (last : Option α) (i : ℕ) : ℕ → Option α :=
  if _ : 0 < i ∧ i * 2 ≤ size then
    let child := smallerChild l2num elements size i
    if num l2num last > num l2num (elements child) then
      percolateDown (Function.update elements i (elements child)) size last child
    else Function.update elements i last
  else Function.update elements i last
termination_by size - i
decreasing_by
  unfold smallerChild
  simp only
  split <;> omega

/-- `DeleteMin`; `none` where it exits. -/
def deleteMin (h : PriorityQueue α) : Option (Option α × PriorityQueue α) :=
  if h.isEmpty then none
  else
    let minElement := h.elements 1
    let lastElement := h.elements h.size
    let h := { h with size := h.size - 1 }
    some (minElement, { h with elements := percolateDown l2num h.elements h.size lastElement 1 })

/-- The queue holds some chunks. -/
structure Holds (h : PriorityQueue α) (s : Multiset α) : Prop where
  sentinel : h.elements 0 = none
  contents : Heap.contents h.elements h.size = s.map some
  ordered : Heap.Ordered (num l2num) h.elements h.size

end

variable {l2num : α → ℕ} {h : PriorityQueue α} {s : Multiset α} {x y : α}

/-- A new queue holds nothing. -/
lemma holds_initial (l2num : α → ℕ) (initCapacity : ℕ) : (initial initCapacity).Holds l2num (0 : Multiset α) where
  sentinel := rfl
  contents := Heap.contents_zero _
  ordered i two le := absurd (two.trans le) (by simp [initial])

/-- Every slot up to the size has an element. -/
lemma Holds.slot (rep : h.Holds l2num s) {i : ℕ} (pos : 1 ≤ i) (le : i ≤ h.size) : ∃ y ∈ s, h.elements i = some y := by
  have mem : h.elements i ∈ s.map some := rep.contents ▸ Heap.mem_contents.mpr ⟨i, pos, le, rfl⟩
  obtain ⟨y, mem, eq⟩ := Multiset.mem_map.mp mem
  exact ⟨y, mem, eq.symm⟩

/-- The size counts the elements. -/
lemma Holds.card (rep : h.Holds l2num s) : h.size = s.card := by
  have cards := congrArg Multiset.card rep.contents
  rw [Heap.contents, Multiset.card_map, Multiset.card_map] at cards
  exact (Nat.card_Icc 1 h.size ▸ cards : h.size + 1 - 1 = s.card)

/-- The queue is empty if and only if it holds nothing. -/
lemma Holds.isEmpty (rep : h.Holds l2num s) : h.isEmpty = true ↔ s = 0 := by
  rw [PriorityQueue.isEmpty, beq_iff_eq, rep.card, Multiset.card_eq_zero]

/-- `FindMin` has the smallest number. -/
lemma Holds.findMin (rep : h.Holds l2num s) (nonempty : s ≠ 0) :
    ∃ m ∈ s, h.findMin = some m ∧ h.elements 1 = some m ∧ ∀ y ∈ s, l2num m ≤ l2num y := by
  have notEmpty := mt rep.isEmpty.mp nonempty
  have positive : 1 ≤ h.size := by
    rw [rep.card]
    exact Multiset.card_pos.mpr nonempty
  obtain ⟨m, mem, first⟩ := rep.slot (Nat.le_refl 1) positive
  refine ⟨m, mem, by rw [PriorityQueue.findMin, if_neg notEmpty, first], first, fun y mem' => ?_⟩
  have slot : some y ∈ Heap.contents h.elements h.size := rep.contents ▸ Multiset.mem_map_of_mem some mem'
  obtain ⟨i, pos, le, eq⟩ := Heap.mem_contents.mp slot
  have least := rep.ordered.root_le pos le
  rw [first, eq] at least
  exact least

/-- The loop of `Insert` fills a hole in a heap. -/
lemma percolateUp_spec {elements : ℕ → Option α} {n i : ℕ} (sentinel : elements 0 = none) (pos : 1 ≤ i) (le : i ≤ n)
    (filled : ∀ j, 1 ≤ j → j < i → elements j ≠ none)
    (up : Heap.UpOrder (num l2num) elements n i (some x)) :
    percolateUp l2num elements x i 0 = none ∧
      Heap.contents (percolateUp l2num elements x i) n = Heap.contents (Function.update elements i (some x)) n ∧
      Heap.Ordered (num l2num) (percolateUp l2num elements x i) n := by
  induction i using Nat.strongRecOn generalizing elements with
  | _ i ih =>
    have zero : i ≠ 0 := Nat.ne_of_gt pos
    rw [percolateUp, dif_pos (show 0 < i from pos)]
    cases found : elements (i / 2) with
    | none =>
      have root : i < 2 := by
        by_contra two
        exact filled (i / 2) (by omega) (by omega) found
      refine ⟨?_, rfl, up.finish fun two => absurd two (by omega)⟩
      simp only
      rw [Function.update_of_ne zero.symm, sentinel]
    | some parent =>
      have two : 2 ≤ i := by
        by_contra root
        have half : i / 2 = 0 := by omega
        rw [half, sentinel] at found
        cases found
      simp only
      split
      case isTrue smaller =>
        have lt : num l2num (some x) < num l2num (elements (i / 2)) := by
          rw [found]
          exact smaller
        have step := up.move two le lt
        rw [found] at step
        have sentinel' : Function.update elements i (some parent) 0 = none := by
          rw [Function.update_of_ne zero.symm, sentinel]
        have filled' : ∀ j, 1 ≤ j → j < i / 2 → Function.update elements i (some parent) j ≠ none := by
          intro j pos lt
          rw [Function.update_of_ne (by omega)]
          exact filled j pos (by omega)
        obtain ⟨zero', same, ordered⟩ := ih (i / 2) (by omega) sentinel' (by omega) (by omega) filled' step
        have moved := Heap.contents_move elements pos le (by omega : 1 ≤ i / 2) (by omega) (by omega) (some x)
        rw [found] at moved
        exact ⟨zero', same.trans moved, ordered⟩
      case isFalse larger =>
        refine ⟨by rw [Function.update_of_ne zero.symm, sentinel], rfl, up.finish fun _ => ?_⟩
        rw [found]
        exact Nat.le_of_not_lt larger

/-- `Insert` adds a chunk. -/
lemma Holds.insert (rep : h.Holds l2num s) (x : α) : (h.insert l2num x).Holds l2num (x ::ₘ s) := by
  have grown : ∃ capacity, (if h.isFull then { h with capacity := 2 * h.capacity } else h) = { h with capacity } := by
    split
    · exact ⟨_, rfl⟩
    · exact ⟨_, rfl⟩
  obtain ⟨capacity, grown⟩ := grown
  unfold PriorityQueue.insert
  simp only [grown]
  split
  case isTrue empty =>
    have none : s = 0 := by
      rw [← Multiset.card_eq_zero, ← rep.card]
      exact empty
    refine ⟨?_, ?_, fun i two le => absurd (two.trans le) (by simp)⟩
    · exact (Function.update_of_ne Nat.zero_ne_one (some x) h.elements).trans rep.sentinel
    · have own : Function.update h.elements 1 (some x) (0 + 1) = some x := by rw [Function.update_self]
      rw [none, Heap.contents_succ, Heap.contents_zero, Multiset.map_cons, Multiset.map_zero]
      exact congrArg (· ::ₘ 0) own
  case isFalse =>
    have up : Heap.UpOrder (num l2num) h.elements (h.size + 1) (h.size + 1) (some x) :=
      ⟨fun i two le ne _ => rep.ordered i two (by omega), fun i two le child => by omega,
        fun i two le child => by omega⟩
    have filled : ∀ j, 1 ≤ j → j < h.size + 1 → h.elements j ≠ Option.none := by
      intro j pos lt
      obtain ⟨y, _, eq⟩ := rep.slot pos (by omega)
      rw [eq]
      exact Option.some_ne_none y
    obtain ⟨zero, same, ordered⟩ := percolateUp_spec rep.sentinel (by omega) (Nat.le_refl _) filled up
    refine ⟨zero, same.trans ?_, ordered⟩
    rw [Heap.contents_succ, Function.update_self, Multiset.map_cons, ← rep.contents]
    refine congrArg _ (Heap.contents_congr fun i _ le => ?_)
    rw [Function.update_of_ne (by omega)]

/-- The smaller child is the one. -/
lemma smallerChild_spec {elements : ℕ → Option α} {n i : ℕ} (pos : 1 ≤ i) (inside : i * 2 ≤ n) :
    2 ≤ smallerChild l2num elements n i ∧ smallerChild l2num elements n i ≤ n ∧ smallerChild l2num elements n i / 2 = i ∧
      ∀ j, 2 ≤ j → j ≤ n → j / 2 = i → num l2num (elements (smallerChild l2num elements n i)) ≤ num l2num (elements j) := by
  unfold smallerChild
  simp only
  split
  case isTrue right =>
    refine ⟨by omega, by omega, by omega, fun j two le child => ?_⟩
    have which : j = i * 2 ∨ j = i * 2 + 1 := by omega
    rcases which with rfl | rfl
    · exact right.2.le
    · exact Nat.le_refl _
  case isFalse left =>
    refine ⟨by omega, by omega, by omega, fun j two le child => ?_⟩
    have which : j = i * 2 ∨ j = i * 2 + 1 := by omega
    rcases which with rfl | rfl
    · exact Nat.le_refl _
    · exact Nat.le_of_not_lt fun lt => left ⟨by omega, lt⟩

/-- The loop of `DeleteMin` fills a hole in a heap. -/
lemma percolateDown_spec {elements : ℕ → Option α} {n i : ℕ} {last : Option α} (sentinel : elements 0 = none)
    (pos : 1 ≤ i) (le : i ≤ n ∨ n = 0) (down : Heap.DownOrder (num l2num) elements n i last) :
    percolateDown l2num elements n last i 0 = none ∧
      Heap.contents (percolateDown l2num elements n last i) n = Heap.contents (Function.update elements i last) n ∧
      Heap.Ordered (num l2num) (percolateDown l2num elements n last i) n := by
  have zero : (0 : ℕ) ≠ i := by omega
  fun_induction percolateDown l2num elements n last i with
  | case1 elements i inside child smaller ih =>
    obtain ⟨two, within, parent, least⟩ : 2 ≤ child ∧ child ≤ n ∧ child / 2 = i ∧ _ :=
      smallerChild_spec inside.1 inside.2
    have step := down.move two within parent least (Nat.le_of_lt smaller)
    have sentinel' : Function.update elements i (elements child) 0 = none :=
      (Function.update_of_ne zero _ _).trans sentinel
    obtain ⟨zero', same, ordered⟩ := ih sentinel' (by omega) (.inl within) step (by omega)
    have ne : child ≠ i := by omega
    have moved := Heap.contents_move elements pos (by omega) (by omega : 1 ≤ child) within ne last
    exact ⟨zero', same.trans moved, ordered⟩
  | case2 elements i inside child larger =>
    obtain ⟨two, within, parent, least⟩ : 2 ≤ child ∧ child ≤ n ∧ child / 2 = i ∧ _ :=
      smallerChild_spec inside.1 inside.2
    refine ⟨by rw [Function.update_of_ne zero, sentinel], rfl, down.finish fun j two le child => ?_⟩
    exact (Nat.le_of_not_lt larger).trans (least j two le child)
  | case3 elements i outside =>
    refine ⟨by rw [Function.update_of_ne zero, sentinel], rfl, down.finish fun j two le child => ?_⟩
    omega

/-- `DeleteMin` takes away what `FindMin` has. -/
lemma Holds.deleteMin [DecidableEq α] (rep : h.Holds l2num s) {m : α} (first : h.elements 1 = some m) (mem : m ∈ s) :
    ∃ h', h.deleteMin l2num = some (some m, h') ∧ h'.Holds l2num (s.erase m) := by
  have nonempty : s ≠ 0 := fun e => by
    rw [e] at mem
    exact Multiset.notMem_zero m mem
  have notEmpty := mt rep.isEmpty.mp nonempty
  obtain ⟨n, size⟩ : ∃ n, h.size = n + 1 := by
    have := Multiset.card_pos.mpr nonempty
    rw [← rep.card] at this
    exact ⟨h.size - 1, by omega⟩
  have down : Heap.DownOrder (num l2num) h.elements n 1 (h.elements (n + 1)) :=
    ⟨fun i two le _ _ => rep.ordered i two (by omega), fun two => by omega, fun i _ _ _ two => by omega⟩
  obtain ⟨zero, same, ordered⟩ := percolateDown_spec rep.sentinel (Nat.le_refl 1) (by omega) down
  unfold PriorityQueue.deleteMin
  rw [if_neg notEmpty]
  simp only [size, Nat.add_sub_cancel, first]
  refine ⟨_, rfl, zero, same.trans ?_, ordered⟩
  have all : Heap.contents h.elements (n + 1) = s.map some := size ▸ rep.contents
  have taken : some m ::ₘ Heap.contents (Function.update h.elements 1 (h.elements (n + 1))) n =
      Heap.contents h.elements (n + 1) := by
    cases n with
    | zero => rw [Heap.contents_succ, Heap.contents_zero, Heap.contents_zero, first]
    | succ n =>
      have moved := Heap.contents_move h.elements (Nat.le_refl 1) (by omega : 1 ≤ n + 2) (by omega : 1 ≤ n + 2)
        (Nat.le_refl _) (by omega) (some m)
      have back : Function.update h.elements 1 (some m) = h.elements := by rw [← first, Function.update_eq_self]
      rw [back, Heap.contents_succ, Function.update_self] at moved
      rw [← moved]
      refine congrArg _ (Heap.contents_congr fun i _ le => ?_)
      rw [Function.update_of_ne (show i ≠ n + 2 by omega)]
  have map_erase : (s.erase m).map some = (s.map some).erase (some m) :=
    Multiset.map_erase some (Option.some_injective α) m s
  rw [map_erase, ← all, ← taken, Multiset.erase_cons_head]

end PriorityQueue

end PromotionCache.Dedup
