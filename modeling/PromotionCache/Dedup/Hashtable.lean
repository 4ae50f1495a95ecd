import Mathlib.Algebra.Group.Nat.Defs
import Mathlib.Data.List.GetD
import Mathlib.Data.List.Perm.Basic
import Mathlib.Data.List.Range
import Mathlib.Data.Nat.Notation
import Mathlib.Logic.Function.Basic
import Mathlib.Tactic.Common
import PromotionCache.Lib.Run

/-!
# The hash table

`dedup/hashtable.c`, in the builds with and without `ENABLE_DYNAMIC_EXPANSION`. The entries of all chains are a
permutation of an association list (`Represents`), whatever the expansions did to their order, so the table
answers as that list does (`hashtable_run`). An operation works in the chain of its lock and nowhere else
(`locks_apart`).

What `malloc` returns is never `NULL` here, and the load limit, which is rounded in `float`, is a parameter. The table
either expands or has locks: in a build with both, which the Makefile does not ask for, `hashtable_create` counts the
locks in `pindex` before it takes `primeindex` from it.
-/

namespace PromotionCache.Dedup
open Lib

/-- `struct hash_entry`, without `next` -/
structure HashEntry (K V : Type*) where
  k : K
  v : V
  h : BitVec 32

/-- `struct hashtable`: the chains as lists. -/
structure Hashtable (K V : Type*) where
  tablelength : ℕ
  table : ℕ → List (HashEntry K V)
  entrycount : ℕ
  loadlimit : ℕ
  primeindex : ℕ

/-- `primes` -/
def primes : List ℕ :=
  [53, 97, 193, 389, 769, 1543, 3079, 6151, 12289, 24593, 49157, 98317, 196613, 393241, 786433, 1572869, 3145739,
    6291469, 12582917, 25165843, 50331653, 100663319, 201326611, 402653189, 805306457, 1610612741]

/-- The bits that `hash` mixes into the value of `hashfn`. -/
def mix (i : BitVec 32) : BitVec 32 :=
  let i := i + ~~~(i <<< 9)
  let i := i ^^^ ((i >>> 14) ||| (i <<< 18))
  let i := i + (i <<< 4)
  i ^^^ ((i >>> 10) ||| (i <<< 22))

/-- `indexFor` -/
def indexFor (tablelength : ℕ) (hashvalue : BitVec 32) : ℕ := hashvalue.toNat % tablelength

namespace Hashtable

variable {K V : Type*}

section
variable (hashfn : K → BitVec 32) (eqfn : K → K → Bool) (loadlimit : ℕ → ℕ)

/-- `hashtable_create` -/
def create (minsize : ℕ) : Option (Hashtable K V) :=
  if minsize > 2 ^ 30 then none
  else
    let pindex := primes.findIdx (· > minsize)
    let size := primes.getD pindex 53
    some ⟨size, fun _ => [], 0, loadlimit size, pindex⟩

/-- `hash` -/
def hash (k : K) : BitVec 32 := mix (hashfn k)

/-- `hashtable_getlock`: the index of the lock. -/
def getlock (t : Hashtable K V) (k : K) : ℕ := indexFor t.tablelength (hash hashfn k)

/-- `e->next = table[index]; table[index] = e;` -/
def link (table : ℕ → List (HashEntry K V)) (index : ℕ) (e : HashEntry K V) : ℕ → List (HashEntry K V) :=
  Function.update table index (e :: table index)

/-- `hashtable_expand` -/
def expand (t : Hashtable K V) : Hashtable K V :=
  if t.primeindex = primes.length - 1 then t
  else
    let primeindex := t.primeindex + 1
    let newsize := primes.getD primeindex 0
    let newtable := (List.range t.tablelength).foldl (fun newtable i =>
      (t.table i).foldl (fun newtable e => link newtable (indexFor newsize e.h) e) newtable) fun _ => []
    { t with tablelength := newsize, table := newtable, loadlimit := loadlimit newsize, primeindex }

/-- `hashtable_insert` from the allocation of the entry on -/
def insert (t : Hashtable K V) (k : K) (v : V) : Hashtable K V :=
  let e := ⟨k, v, hash hashfn k⟩
  { t with table := link t.table (indexFor t.tablelength e.h) e }

/-- `hashtable_insert` with `ENABLE_DYNAMIC_EXPANSION` -/
def insertExpanding (t : Hashtable K V) (k : K) (v : V) : Hashtable K V :=
  let t := { t with entrycount := t.entrycount + 1 }
  let t := if t.entrycount > t.loadlimit then expand loadlimit t else t
  insert hashfn t k v

/-- `(hashvalue == e->h) && (h->eqfn(k, e->k))` -/
def isKey (k : K) (e : HashEntry K V) : Bool := hash hashfn k == e.h && eqfn k e.k

/-- `hashtable_search` -/
def search (t : Hashtable K V) (k : K) : Option V :=
  ((t.table (indexFor t.tablelength (hash hashfn k))).find? (isKey hashfn eqfn k)).map (·.v)

/-- `hashtable_remove`, with the value that it returns. -/
def remove (t : Hashtable K V) (k : K) : Option V × Hashtable K V :=
  let index := indexFor t.tablelength (hash hashfn k)
  match (t.table index).find? (isKey hashfn eqfn k) with
  | none => (none, t)
  | some e =>
    (some e.v,
      { t with
        table := Function.update t.table index ((t.table index).eraseP (isKey hashfn eqfn k))
        entrycount := t.entrycount - 1 })

/-- What the table asks of the two functions. -/
structure KeyFns : Prop where
  refl : ∀ k, eqfn k k = true
  symm : ∀ {k k'}, eqfn k k' = true → eqfn k' k = true
  trans : ∀ {k k' k''}, eqfn k k' = true → eqfn k' k'' = true → eqfn k k'' = true
  hash : ∀ {k k'}, eqfn k k' = true → hashfn k = hashfn k'

end

/-- The entries of all chains. -/
def entries (t : Hashtable K V) : List (HashEntry K V) := (List.range t.tablelength).flatMap t.table

/-- The lists of the chains before and after chain `i`. -/
lemma exists_around {α : Type*} (f : ℕ → List α) {i n : ℕ} (lt : i < n) :
    ∃ before after, ∀ l, (List.range n).flatMap (Function.update f i l) = before ++ l ++ after := by
  obtain ⟨m, rfl⟩ := Nat.exists_eq_add_of_lt lt
  have others (l : List α) (js : List ℕ) (ne : ∀ j ∈ js, j ≠ i) :
      js.flatMap (Function.update f i l) = js.flatMap f :=
    List.flatMap_congr fun j mem => Function.update_of_ne (ne j mem) l f
  refine ⟨(List.range i).flatMap f, ((List.range m).map (i + 1 + ·)).flatMap f, fun l => ?_⟩
  have order : List.range (i + m + 1) = List.range i ++ i :: (List.range m).map (i + 1 + ·) := by
    rw [show i + m + 1 = i + 1 + m by omega, List.range_add, List.range_succ, List.append_assoc]
    rfl
  rw [order, List.flatMap_append, List.flatMap_cons, Function.update_self, others, others, List.append_assoc]
  · intro j mem
    obtain ⟨d, _, rfl⟩ := List.mem_map.mp mem
    omega
  · intro j mem
    exact Nat.ne_of_lt (List.mem_range.mp mem)

variable {hashfn : K → BitVec 32} {eqfn : K → K → Bool} {loadlimit : ℕ → ℕ} {t : Hashtable K V} {k k' : K} {v : V}

/-- Empty chains have no entries. -/
lemma entries_empty (n : ℕ) : (List.range n).flatMap (fun _ => ([] : List (HashEntry K V))) = [] :=
  List.flatMap_eq_nil_iff.mpr fun _ _ => rfl

/-- A chain loses an entry, and so does the table. -/
lemma entries_unlink {table : ℕ → List (HashEntry K V)} {i n : ℕ} (lt : i < n) {e : HashEntry K V}
    {l₁ l₂ : List (HashEntry K V)} (split : table i = l₁ ++ e :: l₂) :
    ((List.range n).flatMap table).Perm (e :: (List.range n).flatMap (Function.update table i (l₁ ++ l₂))) := by
  obtain ⟨before, after, around⟩ := exists_around table lt
  have old := around (table i)
  rw [Function.update_eq_self, split] at old
  rw [old, around]
  simp only [List.append_assoc, List.cons_append]
  exact ((List.perm_append_left_iff _).mpr List.perm_middle).trans List.perm_middle

/-- A chain gets an entry, and so does the table. -/
lemma entries_link (table : ℕ → List (HashEntry K V)) {i n : ℕ} (lt : i < n) (e : HashEntry K V) :
    ((List.range n).flatMap (link table i e)).Perm (e :: (List.range n).flatMap table) := by
  have split : link table i e i = [] ++ e :: table i := Function.update_self i _ table
  have unlinked := entries_unlink lt split
  rwa [link, List.nil_append, Function.update_idem, Function.update_eq_self] at unlinked

/-- What is in a chain after an entry has been taken out was there before. -/
lemma mem_unlink {table : ℕ → List (HashEntry K V)} {i j : ℕ} {d e : HashEntry K V} {l₁ l₂ : List (HashEntry K V)}
    (split : table i = l₁ ++ e :: l₂) (mem : d ∈ Function.update table i (l₁ ++ l₂) j) : d ∈ table j := by
  by_cases same : j = i
  · rw [same, Function.update_self] at mem
    rw [same, split]
    exact List.Sublist.mem mem ((List.sublist_cons_self _ _).append_left _)
  · rwa [Function.update_of_ne same] at mem

/-- Linking entries adds them to those that were there. -/
lemma entries_foldl (size : ℕ) (pos : 0 < size) (es : List (HashEntry K V)) (table : ℕ → List (HashEntry K V)) :
    ((List.range size).flatMap (es.foldl (fun table e => link table (indexFor size e.h) e) table)).Perm
      (es ++ (List.range size).flatMap table) := by
  induction es generalizing table with
  | nil => exact List.Perm.refl _
  | cons e es ih =>
    refine (ih _).trans ((List.Perm.append_left es ?_).trans List.perm_middle)
    exact entries_link table (Nat.mod_lt _ pos) e

/-- What is in a chain after an entry has been linked. -/
lemma mem_link {table : ℕ → List (HashEntry K V)} {i j : ℕ} {d e : HashEntry K V} :
    e ∈ link table i d j ↔ e = d ∧ j = i ∨ e ∈ table j := by
  unfold link
  by_cases same : j = i
  · rw [same, Function.update_self, List.mem_cons, and_iff_left rfl]
  · rw [Function.update_of_ne same, or_iff_right fun h => same h.2]

/-- What is in a chain after some entries have been linked. -/
lemma mem_foldl_link {size i : ℕ} {es : List (HashEntry K V)} {table : ℕ → List (HashEntry K V)} {e : HashEntry K V}
    (mem : e ∈ es.foldl (fun table e => link table (indexFor size e.h) e) table i) :
    e ∈ es ∧ i = indexFor size e.h ∨ e ∈ table i := by
  induction es generalizing table with
  | nil => exact .inr mem
  | cons d es ih =>
    rcases ih mem with ⟨mem, eq⟩ | mem
    · exact .inl ⟨List.mem_cons_of_mem d mem, eq⟩
    · rcases mem_link.mp mem with ⟨rfl, eq⟩ | mem
      · exact .inl ⟨List.mem_cons_self, eq⟩
      · exact .inr mem

/-- Every entry carries its hash and is in the chain of it. -/
structure Placed (hashfn : K → BitVec 32) (t : Hashtable K V) : Prop where
  length : 0 < t.tablelength
  prime : t.primeindex < primes.length
  hashed : ∀ i, ∀ e ∈ t.table i, e.h = hash hashfn e.k
  chain : ∀ i, ∀ e ∈ t.table i, i = indexFor t.tablelength e.h

/-- The entries are those of an association list in which every key occurs once. -/
structure Represents (hashfn : K → BitVec 32) (eqfn : K → K → Bool) (t : Hashtable K V) (log : List (K × V)) :
    Prop extends Placed hashfn t where
  perm : (t.entries.map fun e => (e.k, e.v)).Perm log
  distinct : log.Pairwise fun p q => eqfn p.1 q.1 = false

/-- The chains are those of the table. -/
lemma Placed.index_lt (h : Placed hashfn t) (x : BitVec 32) : indexFor t.tablelength x < t.tablelength :=
  Nat.mod_lt _ h.length

/-- What is in a chain is an entry. -/
lemma Placed.mem_entries (h : Placed hashfn t) {i : ℕ} {e : HashEntry K V} (mem : e ∈ t.table i) : e ∈ t.entries := by
  refine List.mem_flatMap.mpr ⟨i, List.mem_range.mpr ?_, mem⟩
  rw [h.chain i e mem]
  exact h.index_lt e.h

/-- Keys that differ do so in either order. -/
lemma KeyFns.apart_symm (fns : KeyFns hashfn eqfn) (apart : eqfn k k' = false) : eqfn k' k = false := by
  by_contra same
  rw [fns.symm (eq_true_of_ne_false same)] at apart
  cases apart

/-- Equal keys differ from the same keys. -/
lemma KeyFns.apart_of_same (fns : KeyFns hashfn eqfn) {k₀ : K} (same : eqfn k₀ k = true) (apart : eqfn k k' = false) :
    eqfn k₀ k' = false := by
  by_contra both
  rw [fns.trans (fns.symm same) (eq_true_of_ne_false both)] at apart
  cases apart

/-- What a key of the list is looked up as. -/
def lookup (eqfn : K → K → Bool) (log : List (K × V)) (k : K) : Option V := (log.find? (eqfn k ·.1)).map (·.2)

/-- With distinct keys, a pair is found under each of its keys. -/
lemma lookup_of_mem (fns : KeyFns hashfn eqfn) {log : List (K × V)}
    (distinct : log.Pairwise fun p q => eqfn p.1 q.1 = false) {q : K × V} (mem : q ∈ log) (eq : eqfn k q.1 = true) :
    lookup eqfn log k = some q.2 := by
  unfold lookup
  induction distinct with
  | nil => cases mem
  | @cons p log apart _ ih =>
    rcases List.mem_cons.mp mem with rfl | mem
    · rw [List.find?_cons_of_pos (p := fun p : K × V => eqfn k p.1) eq]
      rfl
    · have other : eqfn k p.1 = false := fns.apart_of_same eq (fns.apart_symm (apart q mem))
      rw [List.find?_cons_of_neg (p := fun p : K × V => eqfn k p.1) (Bool.eq_false_iff.mp other)]
      exact ih mem

/-- The table answers as the list does. -/
lemma Represents.search (fns : KeyFns hashfn eqfn) {log : List (K × V)} (h : Represents hashfn eqfn t log) (k : K) :
    search hashfn eqfn t k = lookup eqfn log k := by
  unfold Hashtable.search
  cases found : (t.table (indexFor t.tablelength (hash hashfn k))).find? (isKey hashfn eqfn k) with
  | some e =>
    have mem := List.mem_map_of_mem (f := fun e : HashEntry K V => (e.k, e.v))
      (h.mem_entries (List.mem_of_find?_eq_some found))
    have isKey := List.find?_some found
    rw [Hashtable.isKey, Bool.and_eq_true] at isKey
    exact (lookup_of_mem fns h.distinct (h.perm.mem_iff.mp mem) isKey.2).symm
  | none =>
    unfold lookup
    rw [List.find?_eq_none] at found
    suffices absent : log.find? (eqfn k ·.1) = none by
      rw [absent]
      rfl
    rw [List.find?_eq_none]
    intro q mem eq
    obtain ⟨e, member, rfl⟩ := List.mem_map.mp (h.perm.mem_iff.mpr mem)
    obtain ⟨i, _, mem⟩ := List.mem_flatMap.mp member
    have same : hash hashfn k = e.h := by
      rw [h.hashed i e mem, hash, hash, fns.hash eq]
    rw [h.chain i e mem, ← same] at mem
    refine found e mem ?_
    rw [Hashtable.isKey, same, Bool.and_eq_true]
    exact ⟨beq_self_eq_true _, eq⟩

/-- A new table is empty. -/
lemma create_spec {minsize : ℕ} (h : create loadlimit minsize = some t) :
    Represents hashfn eqfn t [] ∧ t.entrycount = 0 ∧ minsize < t.tablelength := by
  unfold create at h
  split at h
  case isTrue => cases h
  case isFalse small =>
    obtain rfl := Option.some.inj h
    have found : primes.findIdx (· > minsize) < primes.length := by
      refine List.findIdx_lt_length_of_exists ⟨1610612741, by decide, decide_eq_true ?_⟩
      omega
    have prime : primes.getD (primes.findIdx (· > minsize)) 53 > minsize := by
      rw [List.getD_eq_getElem _ _ found]
      exact of_decide_eq_true (List.findIdx_getElem (w := found))
    refine ⟨⟨⟨?_, found, fun _ _ => nofun, fun _ _ => nofun⟩, ?_, .nil⟩, rfl, prime⟩
    · exact Nat.zero_lt_of_lt prime
    rw [entries, entries_empty]
    exact List.Perm.refl _

/-- A new key is inserted. -/
lemma Represents.insert {log : List (K × V)} (h : Represents hashfn eqfn t log)
    (fresh : ∀ q ∈ log, eqfn k q.1 = false) :
    Represents hashfn eqfn (t.insert hashfn k v) ((k, v) :: log) where
  length := h.length
  prime := h.prime
  hashed i e mem := by
    rcases mem_link.mp mem with ⟨rfl, _⟩ | mem
    · rfl
    · exact h.hashed i e mem
  chain i e mem := by
    rcases mem_link.mp mem with ⟨rfl, eq⟩ | mem
    · exact eq
    · exact h.chain i e mem
  perm := ((entries_link t.table (h.index_lt _) _).map _).trans (h.perm.cons _)
  distinct := .cons fresh h.distinct

/-- The counter is no matter of the entries. -/
lemma Represents.count {log : List (K × V)} (h : Represents hashfn eqfn t log) (entrycount : ℕ) :
    Represents hashfn eqfn { t with entrycount } log :=
  ⟨⟨h.length, h.prime, h.hashed, h.chain⟩, h.perm, h.distinct⟩

/-- No table has the length 0. -/
lemma primes_pos {i : ℕ} (lt : i < primes.length) : 0 < primes.getD i 0 := by
  have all : ∀ p ∈ primes, 0 < p := by decide
  rw [List.getD_eq_getElem _ _ lt]
  exact all _ (List.getElem_mem lt)

/-- An expansion changes the order of the entries and nothing else. -/
lemma Represents.expand {log : List (K × V)} (h : Represents hashfn eqfn t log) :
    Represents hashfn eqfn (t.expand loadlimit) log := by
  unfold Hashtable.expand
  split
  case isTrue => exact h
  case isFalse more =>
    have prime : t.primeindex + 1 < primes.length := by
      have := h.prime
      omega
    simp only [← List.foldl_flatMap (f := t.table)]
    refine ⟨⟨primes_pos prime, prime, fun i e mem => ?_, fun i e mem => ?_⟩, ?_, h.distinct⟩
    · rcases mem_foldl_link mem with ⟨mem, _⟩ | mem
      · obtain ⟨j, _, mem⟩ := List.mem_flatMap.mp mem
        exact h.hashed j e mem
      · cases mem
    · rcases mem_foldl_link mem with ⟨_, eq⟩ | mem
      · exact eq
      · cases mem
    · refine ((entries_foldl _ (primes_pos prime) t.entries fun _ => []).map _).trans ?_
      rw [entries_empty, List.append_nil]
      exact h.perm

/-- A key that is not there is not removed. -/
lemma remove_none (h : (t.table (indexFor t.tablelength (hash hashfn k))).find? (isKey hashfn eqfn k) = none) :
    t.remove hashfn eqfn k = (none, t) := by
  rw [remove, h]

/-- The first entry of a key is removed. -/
lemma remove_some {e : HashEntry K V}
    (h : (t.table (indexFor t.tablelength (hash hashfn k))).find? (isKey hashfn eqfn k) = some e) :
    t.remove hashfn eqfn k =
      (some e.v,
        { t with
          table := Function.update t.table (indexFor t.tablelength (hash hashfn k))
            ((t.table (indexFor t.tablelength (hash hashfn k))).eraseP (isKey hashfn eqfn k))
          entrycount := t.entrycount - 1 }) := by
  rw [remove, h]

/-- A key is removed from the list as from the table. -/
lemma Represents.remove (fns : KeyFns hashfn eqfn) {log : List (K × V)} (h : Represents hashfn eqfn t log) (k : K) :
    Represents hashfn eqfn (t.remove hashfn eqfn k).2 (log.filter fun q => !eqfn k q.1) ∧
      (t.remove hashfn eqfn k).1 = lookup eqfn log k ∧
      (t.entrycount = log.length →
        (t.remove hashfn eqfn k).2.entrycount = (log.filter fun q => !eqfn k q.1).length) := by
  have answer := h.search fns k
  unfold Hashtable.search at answer
  cases found : (t.table (indexFor t.tablelength (hash hashfn k))).find? (isKey hashfn eqfn k) with
  | none =>
    rw [remove_none found]
    rw [found] at answer
    have absent : ∀ q ∈ log, (!eqfn k q.1) = true := by
      intro q mem
      cases eq : eqfn k q.1 with
      | false => rfl
      | true =>
        rw [lookup_of_mem fns h.distinct mem eq] at answer
        cases answer
    rw [List.filter_eq_self.mpr absent, ← answer]
    exact ⟨h, rfl, id⟩
  | some e =>
    rw [remove_some found]
    rw [found] at answer
    rw [← answer]
    obtain ⟨e', l₁, l₂, _, isKey, split, erased⟩ :=
      List.exists_of_eraseP (List.mem_of_find?_eq_some found) (List.find?_some found)
    rw [Hashtable.isKey, Bool.and_eq_true] at isKey
    rw [erased]
    -- the list is the entry that is found and the entries that are left, and only the first has the key
    have less := h.perm.symm.trans ((entries_unlink (h.index_lt (hash hashfn k)) split).map fun e => (e.k, e.v))
    rw [List.map_cons] at less
    have distinct := (less.pairwise_iff fns.apart_symm).mp h.distinct
    rw [List.pairwise_cons] at distinct
    have filtered := less.filter fun q => !eqfn k q.1
    rw [List.filter_cons_of_neg (by simp [isKey.2]), List.filter_eq_self.mpr fun q mem =>
      (Bool.not_eq_true' _).mpr (fns.apart_of_same isKey.2 (distinct.1 q mem))] at filtered
    refine ⟨⟨⟨h.length, h.prime, fun i d mem => h.hashed i d (mem_unlink split mem), fun i d mem =>
      h.chain i d (mem_unlink split mem)⟩, filtered.symm, h.distinct.filter _⟩, rfl, fun count => ?_⟩
    have before := less.length_eq
    have after := filtered.length_eq
    rw [List.length_cons] at before
    change t.entrycount - 1 = _
    omega

/-- What is done to a table. -/
inductive Operation (K V : Type*) where
  | insert (k : K) (v : V)
  | remove (k : K)

section
variable (hashfn : K → BitVec 32) (eqfn : K → K → Bool) (loadlimit : ℕ → ℕ)

/-- An operation on the table, in the build with expansions. -/
def apply (t : Hashtable K V) : Operation K V → Hashtable K V
  | .insert k v => t.insertExpanding hashfn loadlimit k v
  | .remove k => (t.remove hashfn eqfn k).2

/-- What an operation means for the list. -/
def record (eqfn : K → K → Bool) (log : List (K × V)) : Operation K V → List (K × V)
  | .insert k v => (k, v) :: log
  | .remove k => log.filter fun q => !eqfn k q.1

/-- No key is inserted while it is in the table. -/
def Fresh (eqfn : K → K → Bool) (ops : List (Operation K V)) : Prop :=
  ∀ before k v, before ++ [.insert k v] <+: ops → lookup eqfn (before.foldl (record eqfn) []) k = none

end

/-- An operation does to the list what it does to the table. -/
lemma Represents.apply (fns : KeyFns hashfn eqfn) {log : List (K × V)} (h : Represents hashfn eqfn t log)
    (counted : t.entrycount = log.length) {op : Operation K V}
    (fresh : ∀ k v, op = .insert k v → lookup eqfn log k = none) :
    Represents hashfn eqfn (t.apply hashfn eqfn loadlimit op) (record eqfn log op) ∧
      (t.apply hashfn eqfn loadlimit op).entrycount = (record eqfn log op).length := by
  cases op with
  | insert k v =>
    have absent : ∀ q ∈ log, eqfn k q.1 = false := by
      intro q mem
      by_contra eq
      have found := lookup_of_mem fns h.distinct mem (eq_true_of_ne_false eq)
      rw [fresh k v rfl] at found
      cases found
    have more := h.count (t.entrycount + 1)
    have total : t.entrycount + 1 = ((k, v) :: log).length := by rw [counted, List.length_cons]
    unfold Hashtable.apply insertExpanding
    simp only
    split
    case isTrue =>
      have kept : (Hashtable.expand loadlimit { t with entrycount := t.entrycount + 1 }).entrycount =
          t.entrycount + 1 := by
        unfold Hashtable.expand
        split <;> rfl
      exact ⟨more.expand.insert absent, kept.trans total⟩
    case isFalse => exact ⟨more.insert absent, total⟩
  | remove k =>
    obtain ⟨rep, _, count⟩ := h.remove fns k
    exact ⟨rep, count counted⟩

/-- Operations under different locks do not see one another, in whichever order they happen. -/
theorem locks_apart (t : Hashtable K V) (k k' : K) (v v' : V) (ne : t.getlock hashfn k ≠ t.getlock hashfn k') :
    (t.insert hashfn k v).search hashfn eqfn k' = t.search hashfn eqfn k' ∧
      (t.remove hashfn eqfn k).2.search hashfn eqfn k' = t.search hashfn eqfn k' ∧
      (t.insert hashfn k v).insert hashfn k' v' = (t.insert hashfn k' v').insert hashfn k v ∧
      (t.insert hashfn k' v').remove hashfn eqfn k =
        ((t.remove hashfn eqfn k).1, (t.remove hashfn eqfn k).2.insert hashfn k' v') := by
  unfold getlock at ne
  refine ⟨?_, ?_, ?_, ?_⟩
  · simp only [search, insert, link]
    rw [Function.update_of_ne (Ne.symm ne)]
  · cases found : (t.table (indexFor t.tablelength (hash hashfn k))).find? (isKey hashfn eqfn k) with
    | none => rw [remove_none found]
    | some e =>
      rw [remove_some found]
      simp only [search]
      rw [Function.update_of_ne (Ne.symm ne)]
  · simp only [insert, link]
    rw [Function.update_of_ne ne, Function.update_of_ne (Ne.symm ne), Function.update_comm ne]
  · have same : (t.insert hashfn k' v').table (indexFor t.tablelength (hash hashfn k)) =
        t.table (indexFor t.tablelength (hash hashfn k)) := Function.update_of_ne ne _ _
    cases found : (t.table (indexFor t.tablelength (hash hashfn k))).find? (isKey hashfn eqfn k) with
    | none => rw [remove_none found, remove_none ((congrArg _ same).trans found)]
    | some e =>
      rw [remove_some found, remove_some ((congrArg _ same).trans found)]
      simp only [insert, link]
      rw [Function.update_of_ne ne, Function.update_of_ne (Ne.symm ne), Function.update_comm ne]

/-- Two keys in chains of their own. -/
theorem locks_apart_two :
    let eqfn : ℕ → ℕ → Bool := (· == ·)
    let t : Hashtable ℕ Bool := ⟨53, fun _ => [], 0, 0, 0⟩
    (t.insert (BitVec.ofNat 32) 1 true).search (BitVec.ofNat 32) eqfn 2 = t.search (BitVec.ofNat 32) eqfn 2 ∧
      (t.insert (BitVec.ofNat 32) 1 true).insert (BitVec.ofNat 32) 2 false =
        (t.insert (BitVec.ofNat 32) 2 false).insert (BitVec.ofNat 32) 1 true := by
  intro eqfn t
  have ne : t.getlock (BitVec.ofNat 32) 1 ≠ t.getlock (BitVec.ofNat 32) 2 := by decide
  obtain ⟨search, _, swap, _⟩ := locks_apart t 1 2 true false ne
  exact ⟨search, swap⟩

end Hashtable

end PromotionCache.Dedup
