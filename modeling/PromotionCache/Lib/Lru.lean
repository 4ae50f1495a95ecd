import Mathlib.Data.List.MinMax
import Mathlib.Data.List.Nodup

/-!
# Bounded least-recently-used caches

What an LRU cache of `cap` entries is for, independent of any implementation: every entry carries
the time of its last use, the cache holds at most one entry for a key, and an insertion into a full
cache evicts the entry whose last use is the longest ago. The entries are kept in a list with the
most recently used one first; that order, the uniqueness of keys and the bound are fields of the
structure, so that every cache has them.
-/

namespace PromotionCache.Lib

/-- A key with its value and the time of its last use. -/
structure LruEntry (K V : Type*) where
  key : K
  val : V
  used : Nat

/-- A cache of at most `cap` entries, the most recently used first. -/
structure Lru (K V : Type*) (cap : Nat) where
  entries : List (LruEntry K V)
  clock : Nat
  keys : (entries.map LruEntry.key).Nodup
  recent : entries.Pairwise fun a b => b.used < a.used
  stamped : ∀ e ∈ entries, e.used < clock
  room : entries.length ≤ cap

namespace Lru
variable {K V : Type*} [DecidableEq K] {cap : Nat}

/-- The empty cache. -/
def empty : Lru K V cap where
  entries := []
  clock := 0
  keys := List.nodup_nil
  recent := List.Pairwise.nil
  stamped := by simp
  room := Nat.zero_le _

/-- The entry of a key. -/
def find (l : Lru K V cap) (k : K) : Option (LruEntry K V) :=
  l.entries.find? fun e => e.key = k

/-- The entries of the other keys. -/
def others (l : Lru K V cap) (k : K) : List (LruEntry K V) :=
  l.entries.filter fun e => e.key ≠ k

omit [DecidableEq K] in
/-- A part of the entries, behind a new one that is used now, is again a cache. -/
private def push (l : Lru K V cap) (k : K) (v : V) (es : List (LruEntry K V))
    (sub : es.Sublist l.entries) (fresh : k ∉ es.map LruEntry.key) (room : es.length < cap) :
    Lru K V cap where
  entries := ⟨k, v, l.clock⟩ :: es
  clock := l.clock + 1
  keys := List.nodup_cons.mpr ⟨fresh, (sub.map _).nodup l.keys⟩
  recent := List.pairwise_cons.mpr ⟨fun e he => l.stamped e (sub.subset he), l.recent.sublist sub⟩
  stamped := by
    intro e he
    rcases List.mem_cons.mp he with rfl | he
    · exact Nat.lt_succ_self _
    · exact Nat.lt_succ_of_lt (l.stamped e (sub.subset he))
  room := room

/-- The other entries are in their order. -/
lemma others_sublist (l : Lru K V cap) (k : K) : (l.others k).Sublist l.entries :=
  List.filter_sublist

/-- None of them has the key. -/
lemma key_notin_others (l : Lru K V cap) (k : K) : k ∉ (l.others k).map LruEntry.key := by
  simp [others]

/-- A key that is cached leaves fewer other entries. -/
lemma others_length_lt (l : Lru K V cap) {k : K} {e : LruEntry K V} (h : l.find k = some e) :
    (l.others k).length < cap := by
  have mem := List.mem_of_find?_eq_some h
  have key := List.find?_some h
  apply lt_of_lt_of_le _ l.room
  apply List.length_filter_lt_length_iff_exists.mpr
  exact ⟨e, mem, by simpa using key⟩

/-- Use the entry of `k`, updating its value; without one, nothing happens. -/
def access (l : Lru K V cap) (k : K) (f : V → V) : Bool × Lru K V cap :=
  match h : l.find k with
  | some e =>
    (true, l.push k (f e.val) (l.others k) (l.others_sublist k) (l.key_notin_others k)
      (l.others_length_lt h))
  | none => (false, l)

/-- What an insertion evicts: nothing while there is room, else the entry used the longest ago. -/
def victim (l : Lru K V cap) : Option (LruEntry K V) :=
  if l.entries.length < cap then none else l.entries.argmin LruEntry.used

/-- Insert an entry for `k`. -/
def insert (l : Lru K V cap) (k : K) (v : V) (pos : 0 < cap) : Lru K V cap :=
  l.push k v ((l.others k).take (cap - 1))
    ((List.take_sublist _ _).trans (l.others_sublist k))
    (fun h => l.key_notin_others k (((List.take_sublist _ _).map _).subset h))
    (by rw [List.length_take]; omega)

/-- Drop the entry of `k`. -/
def evict (l : Lru K V cap) (k : K) : Lru K V cap where
  entries := l.others k
  clock := l.clock
  keys := ((l.others_sublist k).map _).nodup l.keys
  recent := l.recent.sublist (l.others_sublist k)
  stamped := fun e he => l.stamped e ((l.others_sublist k).subset he)
  room := (l.others_sublist k).length_le.trans l.room

/-- A hit puts the entry in front. -/
lemma access_found {l : Lru K V cap} {k : K} {f : V → V} {e : LruEntry K V}
    (h : l.find k = some e) :
    (l.access k f).1 = true ∧
      (l.access k f).2.entries = ⟨k, f e.val, l.clock⟩ :: l.others k := by
  unfold access
  split
  case h_1 e' h' =>
    cases h.symm.trans h'
    exact ⟨rfl, rfl⟩
  case h_2 h' => rw [h] at h'; cases h'

/-- A miss changes nothing. -/
lemma access_absent {l : Lru K V cap} {k : K} {f : V → V} (h : l.find k = none) :
    l.access k f = (false, l) := by
  unfold access
  split
  case h_1 h' => rw [h] at h'; cases h'
  case h_2 => rfl

omit [DecidableEq K] in
/-- The entry used the longest ago is the last. -/
lemma argmin_concat {l : Lru K V cap} {es : List (LruEntry K V)} {e : LruEntry K V}
    (h : l.entries = es ++ [e]) : l.entries.argmin LruEntry.used = some e := by
  have older := l.recent
  rw [h] at older ⊢
  rw [List.argmin_concat]
  cases hm : es.argmin LruEntry.used with
  | none => rfl
  | some c =>
    have mem : c ∈ es := List.argmin_mem hm
    have lt : e.used < c.used := (List.pairwise_append.mp older).2.2 c mem e (by simp)
    simp [lt]

/-- Without the key, all entries are other ones. -/
lemma others_of_absent {l : Lru K V cap} {k : K} (h : k ∉ l.entries.map LruEntry.key) :
    l.others k = l.entries := by
  apply List.filter_eq_self.mpr
  intro e he
  have : e.key ≠ k := by
    rintro rfl
    exact h (List.mem_map_of_mem he)
  simpa using this

/-- With room, an insertion only adds. -/
lemma insert_room (pos : 0 < cap) {l : Lru K V cap} {k : K} {v : V}
    (h : k ∉ l.entries.map LruEntry.key) (room : l.entries.length < cap) :
    l.victim = none ∧ (l.insert k v pos).entries = ⟨k, v, l.clock⟩ :: l.entries := by
  refine ⟨by simp [victim, room], ?_⟩
  have e : (l.others k).take (cap - 1) = l.entries := by
    rw [others_of_absent h]
    apply List.take_of_length_le
    omega
  simp [insert, push, e]

/-- In a full cache an insertion replaces the victim, which is the last entry. -/
lemma insert_full (pos : 0 < cap) {l : Lru K V cap} {k : K} {v : V}
    {es : List (LruEntry K V)} {e : LruEntry K V} (h : k ∉ l.entries.map LruEntry.key)
    (full : l.entries.length = cap) (last : l.entries = es ++ [e]) :
    l.victim = some e ∧ (l.insert k v pos).entries = ⟨k, v, l.clock⟩ :: es := by
  refine ⟨by simp [victim, full, argmin_concat last], ?_⟩
  have len : es.length = cap - 1 := by
    have := congrArg List.length last
    simp at this
    omega
  have e : (l.others k).take (cap - 1) = es := by
    rw [others_of_absent h, last, ← len, List.take_left']
    rfl
  simp [insert, push, e]

end Lru

end PromotionCache.Lib
