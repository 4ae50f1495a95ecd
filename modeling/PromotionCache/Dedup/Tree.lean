import Mathlib.Data.List.Sort
import Mathlib.Data.Nat.Notation

/-!
# Search trees

`dedup/tree.c`: binary search trees of elements with a number (`l1num`). A tree stands for the list of its elements
in the order of their numbers (`toList`). The pointer `pmin` is only ever `NULL` in the source, and is left out.
-/

namespace PromotionCache.Dedup

/-- `SearchTree`; a `Position` is the element of its node. -/
inductive SearchTree (α : Type*) where
  | null
  | node (element : α) (left right : SearchTree α)

namespace SearchTree

variable {α : Type*}

/-- `T == NULL` -/
def isNull : SearchTree α → Bool
  | null => true
  | node _ _ _ => false

/-- `TreeFindMin` -/
def treeFindMin : SearchTree α → Option α
  | null => none
  | node element left _ => if left.isNull then some element else left.treeFindMin

section
variable (l1num : α → ℕ)

/-- `TreeFind` -/
def treeFind (value : ℕ) : SearchTree α → Option α
  | null => none
  | node element left right =>
    if value < l1num element then left.treeFind value
    else if value > l1num element then right.treeFind value
    else some element

/-- `TreeInsert` -/
def treeInsert (x : α) : SearchTree α → SearchTree α
  | null => node x null null
  | node element left right =>
    if l1num x < l1num element then node element (left.treeInsert x) right
    else if l1num x > l1num element then node element left (right.treeInsert x)
    else node element left right

/-- `TreeDelete` of the element with the number `value` -/
def treeDelete (value : ℕ) : SearchTree α → SearchTree α
  | null => null
  | node element left right =>
    if value < l1num element then node element (left.treeDelete value) right
    else if value > l1num element then node element left (right.treeDelete value)
    else if left.isNull then right
    else if right.isNull then left
    else
      match right.treeFindMin with
      | some tmpCell => node tmpCell left (right.treeDelete (l1num tmpCell))
      | none => null

/-- What is written through the position of the number `value`. -/
def setAt (value : ℕ) (x : α) : SearchTree α → SearchTree α
  | null => null
  | node element left right =>
    if value < l1num element then node element (left.setAt value x) right
    else if value > l1num element then node element left (right.setAt value x)
    else node x left right

end

/-- The elements in order. -/
def toList : SearchTree α → List α
  | null => []
  | node element left right => left.toList ++ element :: right.toList

/-- The elements are in the order of their numbers. -/
def Sorted (l1num : α → ℕ) (t : SearchTree α) : Prop := t.toList.Pairwise (l1num · < l1num ·)

variable {l1num : α → ℕ} {t left right : SearchTree α} {x y element : α} {value : ℕ}

/-- A node stands between its two sides. -/
lemma Sorted.node (h : (node element left right).Sorted l1num) :
    left.Sorted l1num ∧ right.Sorted l1num ∧ (∀ y ∈ left.toList, l1num y < l1num element) ∧
      ∀ y ∈ right.toList, l1num element < l1num y := by
  obtain ⟨sorted, sorted', across⟩ := List.pairwise_append.mp h
  obtain ⟨above, sorted''⟩ := List.pairwise_cons.mp sorted'
  exact ⟨sorted, sorted'', fun y mem => across y mem element List.mem_cons_self, above⟩

/-- Only the empty tree is null. -/
lemma isNull_iff (t : SearchTree α) : t.isNull = true ↔ t.toList = [] := by
  cases t with
  | null => exact ⟨fun _ => rfl, fun _ => rfl⟩
  | node element left right => exact ⟨nofun, fun empty => absurd empty (by simp [toList])⟩

/-- `TreeFindMin` finds the first element. -/
lemma treeFindMin_eq (t : SearchTree α) : t.treeFindMin = t.toList.head? := by
  induction t with
  | null => rfl
  | node element left right ih _ =>
    rw [treeFindMin, toList, ih]
    split
    case isTrue null =>
      rw [(isNull_iff left).mp null]
      rfl
    case isFalse node =>
      obtain ⟨head, rest, eq⟩ := List.exists_cons_of_ne_nil (mt (isNull_iff left).mpr node)
      rw [eq]
      rfl

/-- The position is that of the element with the number. -/
lemma treeFind_iff (h : t.Sorted l1num) : t.treeFind l1num value = some x ↔ x ∈ t.toList ∧ l1num x = value := by
  induction t with
  | null => exact ⟨nofun, fun found => absurd found.1 List.not_mem_nil⟩
  | node element left right ih ih' =>
    obtain ⟨sorted, sorted', below, above⟩ := h.node
    rw [treeFind, toList, List.mem_append, List.mem_cons]
    split
    case isTrue less =>
      rw [ih sorted]
      constructor
      · rintro ⟨mem, eq⟩
        exact ⟨.inl mem, eq⟩
      · rintro ⟨mem | rfl | mem, eq⟩
        · exact ⟨mem, eq⟩
        · omega
        · have := above x mem
          omega
    case isFalse notLess =>
      split
      case isTrue more =>
        rw [ih' sorted']
        constructor
        · rintro ⟨mem, eq⟩
          exact ⟨.inr (.inr mem), eq⟩
        · rintro ⟨mem | rfl | mem, eq⟩
          · have := below x mem
            omega
          · omega
          · exact ⟨mem, eq⟩
      case isFalse notMore =>
        rw [Option.some.injEq]
        constructor
        · rintro rfl
          exact ⟨.inr (.inl rfl), by omega⟩
        · rintro ⟨mem | rfl | mem, eq⟩
          · have := below x mem
            omega
          · rfl
          · have := above x mem
            omega

/-- The tree has the new element after an insertion. -/
lemma mem_treeInsert (new : ∀ y ∈ t.toList, l1num y ≠ l1num x) :
    y ∈ (t.treeInsert l1num x).toList ↔ y = x ∨ y ∈ t.toList := by
  induction t with
  | null =>
    change y ∈ [x] ↔ y = x ∨ y ∈ []
    rw [List.mem_singleton, List.mem_nil_iff, or_false]
  | node element left right ih ih' =>
    have new : ∀ y, y ∈ left.toList ∨ y = element ∨ y ∈ right.toList → l1num y ≠ l1num x := by
      intro y mem
      refine new y ?_
      rw [toList, List.mem_append, List.mem_cons]
      exact mem
    rw [treeInsert]
    split
    case isTrue =>
      rw [toList, toList, List.mem_append, List.mem_append, ih fun y mem => new y (.inl mem), or_assoc]
    case isFalse =>
      split
      case isTrue =>
        rw [toList, toList, List.mem_append, List.mem_append, List.mem_cons, List.mem_cons,
          ih' fun y mem => new y (.inr (.inr mem))]
        tauto
      case isFalse =>
        have := new element (.inr (.inl rfl))
        omega

/-- An element is inserted in its place. -/
lemma Sorted.treeInsert (h : t.Sorted l1num) (new : ∀ y ∈ t.toList, l1num y ≠ l1num x) :
    (t.treeInsert l1num x).Sorted l1num := by
  induction t with
  | null => exact List.pairwise_singleton _ x
  | node element left right ih ih' =>
    obtain ⟨sorted, sorted', below, above⟩ := h.node
    have new : ∀ y, y ∈ left.toList ∨ y = element ∨ y ∈ right.toList → l1num y ≠ l1num x := by
      intro y mem
      refine new y ?_
      rw [toList, List.mem_append, List.mem_cons]
      exact mem
    have newLeft : ∀ y ∈ left.toList, l1num y ≠ l1num x := fun y mem => new y (.inl mem)
    have newRight : ∀ y ∈ right.toList, l1num y ≠ l1num x := fun y mem => new y (.inr (.inr mem))
    rw [SearchTree.treeInsert]
    split
    case isTrue less =>
      refine List.pairwise_append.mpr ⟨ih sorted newLeft, List.pairwise_cons.mpr ⟨above, sorted'⟩, fun y mem z mem' => ?_⟩
      have low : l1num y < l1num element := by
        rcases (mem_treeInsert newLeft).mp mem with rfl | mem
        · exact less
        · exact below y mem
      rcases List.mem_cons.mp mem' with rfl | mem'
      · exact low
      · exact low.trans (above z mem')
    case isFalse notLess =>
      split
      case isTrue more =>
        have above' : ∀ z ∈ (right.treeInsert l1num x).toList, l1num element < l1num z := by
          intro z mem
          rcases (mem_treeInsert newRight).mp mem with rfl | mem
          · exact more
          · exact above z mem
        refine List.pairwise_append.mpr ⟨sorted, List.pairwise_cons.mpr ⟨above', ih' sorted' newRight⟩, ?_⟩
        intro y mem z mem'
        rcases List.mem_cons.mp mem' with rfl | mem'
        · exact below y mem
        · exact (below y mem).trans (above' z mem')
      case isFalse =>
        have := new element (.inr (.inl rfl))
        omega

/-- The element with the number is taken out, and no other one. -/
lemma toList_treeDelete (h : t.Sorted l1num) :
    (t.treeDelete l1num value).toList = t.toList.filter (l1num · ≠ value) := by
  induction t generalizing value with
  | null => rfl
  | node element left right ih ih' =>
    obtain ⟨sorted, sorted', below, above⟩ := h.node
    have keepLeft (le : l1num element ≤ value) : left.toList.filter (l1num · ≠ value) = left.toList :=
      List.filter_eq_self.mpr fun y mem => decide_eq_true (by have := below y mem; omega)
    have keepRight (le : value ≤ l1num element) : right.toList.filter (l1num · ≠ value) = right.toList :=
      List.filter_eq_self.mpr fun y mem => decide_eq_true (by have := above y mem; omega)
    have stays (ne : l1num element ≠ value) : (element :: right.toList).filter (l1num · ≠ value) =
        element :: right.toList.filter (l1num · ≠ value) := List.filter_cons_of_pos (decide_eq_true ne)
    have goes (eq : l1num element = value) : (element :: right.toList).filter (l1num · ≠ value) =
        right.toList.filter (l1num · ≠ value) := List.filter_cons_of_neg (by simp [eq])
    rw [treeDelete]
    split
    case isTrue less =>
      rw [toList, toList, ih sorted, List.filter_append, stays (by omega),
        keepRight (by omega)]
    case isFalse notLess =>
      split
      case isTrue more =>
        rw [toList, toList, ih' sorted', List.filter_append, stays (by omega),
          keepLeft (by omega)]
      case isFalse notMore =>
        rw [SearchTree.toList, List.filter_append, goes (by omega), keepLeft (by omega), keepRight (by omega)]
        split
        case isTrue null => rw [(isNull_iff left).mp null, List.nil_append]
        case isFalse =>
          split
          case isTrue null => rw [(isNull_iff right).mp null, List.append_nil]
          case isFalse node =>
            obtain ⟨tmpCell, rest, eq⟩ := List.exists_cons_of_ne_nil (mt (isNull_iff right).mpr node)
            have least := sorted'
            rw [Sorted, eq, List.pairwise_cons] at least
            have others : rest.filter (l1num · ≠ l1num tmpCell) = rest :=
              List.filter_eq_self.mpr fun y mem => decide_eq_true (by have := least.1 y mem; omega)
            have first : (tmpCell :: rest).filter (l1num · ≠ l1num tmpCell) = rest.filter (l1num · ≠ l1num tmpCell) :=
              List.filter_cons_of_neg (by simp)
            rw [treeFindMin_eq, eq, List.head?_cons]
            simp only
            rw [toList, ih' sorted', eq, first, others]

/-- A deletion keeps the order. -/
lemma Sorted.treeDelete (h : t.Sorted l1num) (value : ℕ) : (t.treeDelete l1num value).Sorted l1num := by
  rw [Sorted, toList_treeDelete h]
  exact h.filter _

/-- What is written through a position replaces the element with its number. -/
lemma toList_setAt (h : t.Sorted l1num) :
    (t.setAt l1num value x).toList = t.toList.map fun y => if l1num y = value then x else y := by
  induction t with
  | null => rfl
  | node element left right ih ih' =>
    obtain ⟨sorted, sorted', below, above⟩ := h.node
    have keepLeft (le : l1num element ≤ value) :
        left.toList.map (fun y => if l1num y = value then x else y) = left.toList :=
      (List.map_congr_left fun y mem => if_neg (by have := below y mem; omega)).trans (List.map_id _)
    have keepRight (le : value ≤ l1num element) :
        right.toList.map (fun y => if l1num y = value then x else y) = right.toList :=
      (List.map_congr_left fun y mem => if_neg (by have := above y mem; omega)).trans (List.map_id _)
    rw [setAt, toList, List.map_append, List.map_cons]
    split
    case isTrue less => rw [toList, ih sorted, if_neg (by omega), keepRight (by omega)]
    case isFalse notLess =>
      split
      case isTrue more => rw [toList, ih' sorted', if_neg (by omega), keepLeft (by omega)]
      case isFalse notMore => rw [toList, if_pos (by omega), keepLeft (by omega), keepRight (by omega)]

/-- An element may be replaced by one of the same number. -/
lemma Sorted.setAt (h : t.Sorted l1num) (same : l1num x = value) : (t.setAt l1num value x).Sorted l1num := by
  rw [Sorted, toList_setAt h, List.pairwise_map]
  refine List.Pairwise.imp (fun {a b} lt => ?_) h
  have num (y : α) : l1num (if l1num y = value then x else y) = l1num y := by
    split
    case isTrue eq => rw [same, eq]
    case isFalse => rfl
  rw [num, num]
  exact lt

/-- Only that element is replaced. -/
lemma mem_setAt (h : t.Sorted l1num) (found : y ∈ t.toList) (eq : l1num y = value) {z : α} :
    z ∈ (t.setAt l1num value x).toList ↔ z = x ∨ z ∈ t.toList ∧ l1num z ≠ value := by
  rw [toList_setAt h, List.mem_map]
  constructor
  · rintro ⟨w, mem, rfl⟩
    by_cases same : l1num w = value
    · rw [if_pos same]
      exact .inl rfl
    · rw [if_neg same]
      exact .inr ⟨mem, same⟩
  · rintro (rfl | ⟨mem, ne⟩)
    · exact ⟨y, found, if_pos eq⟩
    · exact ⟨z, mem, if_neg ne⟩

end SearchTree

end PromotionCache.Dedup
