import Mathlib.Logic.Function.Basic

/-!
# Unordered maps

A hash map up to its iteration order: a finite or infinite assignment of values to keys, read
through `find`. `subscript` is the effect that reading `m[k]` has on the map: an absent key is
bound to a default value.
-/

namespace PromotionCache.Lib

/-- A map from keys to values in no particular order. -/
structure UnorderedMap (K V : Type*) where
  find : K → Option V

namespace UnorderedMap
variable {K V : Type*} [DecidableEq K]

/-- The map without keys. -/
def empty : UnorderedMap K V := ⟨fun _ => none⟩

/-- `m[k] = v` -/
def set (m : UnorderedMap K V) (k : K) (v : V) : UnorderedMap K V :=
  ⟨Function.update m.find k (some v)⟩

/-- `m.erase(k)` -/
def erase (m : UnorderedMap K V) (k : K) : UnorderedMap K V :=
  ⟨Function.update m.find k none⟩

/-- What evaluating `m[k]` leaves behind. -/
def subscript (m : UnorderedMap K V) (k : K) (default : V) : UnorderedMap K V :=
  match m.find k with
  | some _ => m
  | none => m.set k default

/-- The value of `m[k]`. -/
def get (m : UnorderedMap K V) (k : K) (default : V) : V := (m.find k).getD default

/-- `m.find(k) != m.end()` -/
def contains (m : UnorderedMap K V) (k : K) : Bool := (m.find k).isSome

omit [DecidableEq K] in
/-- Two maps are the same that have the same entries. -/
@[ext] lemma ext {m m' : UnorderedMap K V} (h : ∀ k, m.find k = m'.find k) : m = m' := by
  cases m; cases m'
  congr
  funext k
  exact h k

omit [DecidableEq K] in
/-- The empty map has no entry. -/
@[simp] lemma find_empty (k : K) : (empty : UnorderedMap K V).find k = none := rfl

/-- What a map holds after an entry has been set. -/
@[simp] lemma find_set (m : UnorderedMap K V) (k k' : K) (v : V) :
    (m.set k v).find k' = if k' = k then some v else m.find k' := by
  simp [set, Function.update_apply]

/-- What a map holds after an entry has been erased. -/
@[simp] lemma find_erase (m : UnorderedMap K V) (k k' : K) :
    (m.erase k).find k' = if k' = k then none else m.find k' := by
  simp [erase, Function.update_apply]

/-- Reading `m[k]` changes the entry of no other key. -/
lemma find_subscript (m : UnorderedMap K V) (k k' : K) (d : V) :
    (m.subscript k d).find k' = if k' = k then some (m.get k d) else m.find k' := by
  unfold subscript get
  cases e : m.find k with
  | some v => by_cases h : k' = k <;> simp [h, e]
  | none => simp

omit [DecidableEq K] in
/-- The empty map gives the default. -/
@[simp] lemma get_empty (k : K) (d : V) : (empty : UnorderedMap K V).get k d = d := rfl

/-- A value that was set is there. -/
@[simp] lemma get_set_self (m : UnorderedMap K V) (k : K) (v d : V) : (m.set k v).get k d = v := by
  simp [get]

/-- The value of `m[k]` is there after it has been read. -/
lemma get_subscript (m : UnorderedMap K V) (k k' : K) (d : V) :
    (m.subscript k d).get k' d = m.get k' d := by
  unfold get
  rw [find_subscript]
  split
  case isTrue e => rw [e, Option.getD_some, get]
  case isFalse => rfl

/-- Setting an entry makes up for what `operator[]` put there. -/
@[simp] lemma set_subscript (m : UnorderedMap K V) (k : K) (v d : V) :
    (m.subscript k d).set k v = m.set k v := by
  ext k' : 1
  rw [find_set, find_set, find_subscript]
  split <;> rfl

omit [DecidableEq K] in
/-- The empty map contains no key. -/
@[simp] lemma contains_empty (k : K) : (empty : UnorderedMap K V).contains k = false := rfl

/-- A key that was set is contained. -/
@[simp] lemma contains_set (m : UnorderedMap K V) (k k' : K) (v : V) :
    (m.set k v).contains k' = (decide (k' = k) || m.contains k') := by
  by_cases h : k' = k <;> simp [contains, h]

/-- A key that was erased is not. -/
@[simp] lemma contains_erase (m : UnorderedMap K V) (k k' : K) :
    (m.erase k).contains k' = (!decide (k' = k) && m.contains k') := by
  by_cases h : k' = k <;> simp [contains, h]

/-- `operator[]` puts its key there. -/
@[simp] lemma contains_subscript (m : UnorderedMap K V) (k k' : K) (d : V) :
    (m.subscript k d).contains k' = (decide (k' = k) || m.contains k') := by
  by_cases h : k' = k <;> simp [contains, find_subscript, h]

end UnorderedMap

end PromotionCache.Lib
