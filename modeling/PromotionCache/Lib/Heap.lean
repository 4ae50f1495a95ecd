import Mathlib.Data.Finset.Interval
import Mathlib.Logic.Equiv.Fintype
import Mathlib.Order.Interval.Finset.Nat

/-!
# Heaps in arrays

A heap of the elements 1 to `n` of an array: the children of `i` are `2 * i` and `2 * i + 1`, and no element has a
smaller key than its parent (`Ordered`). The loops that repair a heap move a hole: an element is kept out of the
array, and one of its neighbours takes its place. `UpOrder` and `DownOrder` say what is in order around a hole that
goes up, or down; `move` lets it go on, and `finish` fills it.
-/

namespace PromotionCache.Lib.Heap

variable {β κ : Type*} [LinearOrder κ] {key : β → κ} {f : ℕ → β} {n hole c : ℕ} {x : β}

/-- No element has a smaller key than its parent. -/
def Ordered (key : β → κ) (f : ℕ → β) (n : ℕ) : Prop := ∀ i, 2 ≤ i → i ≤ n → key (f (i / 2)) ≤ key (f i)

/-- The elements. -/
def contents (f : ℕ → β) (n : ℕ) : Multiset β := (Finset.Icc 1 n).val.map f

/-- What is in order around a hole that `x` may leave upwards. -/
structure UpOrder (key : β → κ) (f : ℕ → β) (n hole : ℕ) (x : β) : Prop where
  except : ∀ i, 2 ≤ i → i ≤ n → i ≠ hole → i / 2 ≠ hole → key (f (i / 2)) ≤ key (f i)
  below : ∀ i, 2 ≤ i → i ≤ n → i / 2 = hole → key x ≤ key (f i)
  grand : ∀ i, 2 ≤ i → i ≤ n → i / 2 = hole → 2 ≤ hole → key (f (hole / 2)) ≤ key (f i)

/-- What is in order around a hole that `x` may leave downwards. -/
structure DownOrder (key : β → κ) (f : ℕ → β) (n hole : ℕ) (x : β) : Prop where
  except : ∀ i, 2 ≤ i → i ≤ n → i ≠ hole → i / 2 ≠ hole → key (f (i / 2)) ≤ key (f i)
  above : 2 ≤ hole → key (f (hole / 2)) ≤ key x
  grand : ∀ i, 2 ≤ i → i ≤ n → i / 2 = hole → 2 ≤ hole → key (f (hole / 2)) ≤ key (f i)

/-- The first element has the smallest key. -/
lemma Ordered.root_le (h : Ordered key f n) {i : ℕ} (pos : 1 ≤ i) (le : i ≤ n) : key (f 1) ≤ key (f i) := by
  induction i using Nat.strongRecOn with
  | _ i ih =>
    rcases Nat.lt_or_eq_of_le pos with two | one
    · exact (ih (i / 2) (by omega) (by omega) (by omega)).trans (h i two le)
    · rw [← one]

/-- The parent takes the place of the hole. -/
lemma UpOrder.move (h : UpOrder key f n hole x) (two : 2 ≤ hole) (le : hole ≤ n)
    (lt : key x < key (f (hole / 2))) :
    UpOrder key (Function.update f hole (f (hole / 2))) n (hole / 2) x where
  except i two' le' ne ne' := by
    have ne_hole : i ≠ hole := fun e => ne' (congrArg (· / 2) e)
    rw [Function.update_of_ne ne_hole]
    by_cases child : i / 2 = hole
    · rw [child, Function.update_self]
      exact h.grand i two' le' child two
    · rw [Function.update_of_ne child]
      exact h.except i two' le' ne_hole child
  below i two' le' child := by
    by_cases same : i = hole
    · rw [same, Function.update_self]
      exact lt.le
    · rw [Function.update_of_ne same]
      have sibling := h.except i two' le' same (by omega)
      rw [child] at sibling
      exact lt.le.trans sibling
  grand i two' le' child two'' := by
    have up := h.except (hole / 2) two'' (by omega) (by omega) (by omega)
    rw [Function.update_of_ne (by omega)]
    by_cases same : i = hole
    · rw [same, Function.update_self]
      exact up
    · rw [Function.update_of_ne same]
      have sibling := h.except i two' le' same (by omega)
      rw [child] at sibling
      exact up.trans sibling

/-- The hole is filled. -/
lemma UpOrder.finish (h : UpOrder key f n hole x) (le : 2 ≤ hole → key (f (hole / 2)) ≤ key x) :
    Ordered key (Function.update f hole x) n := by
  intro i two le'
  by_cases same : i = hole
  · rw [same, Function.update_self, Function.update_of_ne (by omega)]
    exact le (same ▸ two)
  · rw [Function.update_of_ne same]
    by_cases child : i / 2 = hole
    · rw [child, Function.update_self]
      exact h.below i two le' child
    · rw [Function.update_of_ne child]
      exact h.except i two le' same child

/-- The smaller child takes the place of the hole. -/
lemma DownOrder.move (h : DownOrder key f n hole x) (two : 2 ≤ c) (le : c ≤ n) (child : c / 2 = hole)
    (least : ∀ i, 2 ≤ i → i ≤ n → i / 2 = hole → key (f c) ≤ key (f i)) (lt : key (f c) ≤ key x) :
    DownOrder key (Function.update f hole (f c)) n c x where
  except i two' le' ne ne' := by
    by_cases same : i = hole
    · rw [same, Function.update_self, Function.update_of_ne (by omega)]
      exact h.grand c two le child (same ▸ two')
    · rw [Function.update_of_ne same]
      by_cases child' : i / 2 = hole
      · rw [child', Function.update_self]
        exact least i two' le' child'
      · rw [Function.update_of_ne child']
        exact h.except i two' le' same child'
  above _ := by
    rw [child, Function.update_self]
    exact lt
  grand i two' le' child' _ := by
    rw [child, Function.update_self, Function.update_of_ne (by omega)]
    have down := h.except i two' le' (by omega) (by omega)
    rw [child'] at down
    exact down

/-- The hole is filled. -/
lemma DownOrder.finish (h : DownOrder key f n hole x)
    (le : ∀ i, 2 ≤ i → i ≤ n → i / 2 = hole → key x ≤ key (f i)) : Ordered key (Function.update f hole x) n :=
  UpOrder.finish ⟨h.except, le, h.grand⟩ h.above

/-- The contents depend on the slots in use. -/
lemma contents_congr {g : ℕ → β} (same : ∀ i, 1 ≤ i → i ≤ n → f i = g i) : contents f n = contents g n :=
  Multiset.map_congr rfl fun i mem =>
    have inside := Finset.mem_Icc.mp (Finset.mem_val.mp mem)
    same i inside.1 inside.2

/-- An empty heap has no contents. -/
lemma contents_zero (f : ℕ → β) : contents f 0 = 0 := rfl

/-- The contents with one more slot. -/
lemma contents_succ (f : ℕ → β) (n : ℕ) : contents f (n + 1) = f (n + 1) ::ₘ contents f n := by
  have more : Finset.Icc 1 (n + 1) = insert (n + 1) (Finset.Icc 1 n) := by
    ext i
    rw [Finset.mem_insert, Finset.mem_Icc, Finset.mem_Icc]
    omega
  have new : n + 1 ∉ Finset.Icc 1 n := fun mem => by
    have := (Finset.mem_Icc.mp mem).2
    omega
  rw [contents, more, Finset.insert_val_of_notMem new, Multiset.map_cons]
  rfl

/-- The elements are those in the slots. -/
lemma mem_contents {y : β} : y ∈ contents f n ↔ ∃ i, 1 ≤ i ∧ i ≤ n ∧ f i = y := by
  unfold contents
  rw [Multiset.mem_map]
  constructor
  · rintro ⟨i, mem, eq⟩
    have inside := Finset.mem_Icc.mp (Finset.mem_val.mp mem)
    exact ⟨i, inside.1, inside.2, eq⟩
  · rintro ⟨i, pos, le, eq⟩
    exact ⟨i, Finset.mem_Icc.mpr ⟨pos, le⟩, eq⟩

/-- To move the hole is to exchange what stands at its two places. -/
lemma contents_move (f : ℕ → β) (pos : 1 ≤ hole) (le : hole ≤ n) (pos' : 1 ≤ c) (le' : c ≤ n) (ne : c ≠ hole) (x : β) :
    contents (Function.update (Function.update f hole (f c)) c x) n = contents (Function.update f hole x) n := by
  have moved : ((Finset.Icc 1 n).map (Equiv.swap hole c).toEmbedding) = Finset.Icc 1 n := by
    refine Finset.map_perm fun i changed => ?_
    rw [Finset.coe_Icc]
    by_cases first : i = hole
    · exact first ▸ ⟨pos, le⟩
    · by_cases second : i = c
      · exact second ▸ ⟨pos', le'⟩
      · exact absurd (Equiv.swap_apply_of_ne_of_ne first second) changed
  have swapped : Function.update (Function.update f hole (f c)) c x = Function.update f hole x ∘ Equiv.swap hole c := by
    funext i
    rw [Function.comp_apply]
    by_cases second : i = c
    · rw [second, Function.update_self, Equiv.swap_apply_right, Function.update_self]
    · rw [Function.update_of_ne second]
      by_cases first : i = hole
      · rw [first, Function.update_self, Equiv.swap_apply_left, Function.update_of_ne ne]
      · rw [Function.update_of_ne first, Equiv.swap_apply_of_ne_of_ne first second, Function.update_of_ne first]
  rw [contents, swapped, ← Multiset.map_map]
  have values := congrArg Finset.val moved
  rw [Finset.map_val] at values
  exact congrArg (Multiset.map _) values

end PromotionCache.Lib.Heap
