import PromotionCache.Scripts.LogSpec
import Mathlib.Data.Finset.Card

/-!
# Promotions of the real system

`get_promotions.py` turns the log of a simulation into a file of promotions, which the real system then
performs. It promotes every region at the first time at which the log lists it. The simulator promotes it
when it is first listed with a frequency above zero.
-/

namespace PromotionCache.Scripts
open Lib Pcc

/-- `get_promotions.py` keeps the address of every candidate. -/
def listedAddr (f : Fields) : Option Nat := some f.addr

/-- The inner loop of `write_promotions`; the results are the new `unique_candidates`, `to_promote` and
    `done_promoting`. -/
def promoteFrom (promotionLimit : Int) (uniqueCandidates toPromote : List Nat) :
    List Nat → List Nat × List Nat × Bool
  | [] => (uniqueCandidates, toPromote, false)
  | addr :: addrs =>
    if addr ∈ uniqueCandidates then promoteFrom promotionLimit uniqueCandidates toPromote addrs
    else
      let uniqueCandidates := uniqueCandidates ++ [addr]
      let toPromote := toPromote ++ [addr]
      if promotionLimit ≤ uniqueCandidates.length then (uniqueCandidates, toPromote, true)
      else promoteFrom promotionLimit uniqueCandidates toPromote addrs

/-- The outer loop of `write_promotions`; the result is what is written into the promotion file. -/
def writeFrom (promotionLimit offset : Int) (candidates : AList fun _ : Nat => List Nat)
    (uniqueCandidates : List Nat) : List Nat → List (Nat × Int)
  | [] => []
  | time :: times =>
    let (uniqueCandidates, toPromote, donePromoting) :=
      promoteFrom promotionLimit uniqueCandidates [] ((candidates.lookup time).getD [])
    (toPromote.mergeSort (· ≤ ·)).map (fun addr : Nat => (time, (addr : Int) + offset)) ++
      if donePromoting then []
      else writeFrom promotionLimit offset candidates uniqueCandidates times

/-- `write_promotions` -/
def writePromotions (promotionLimit offset : Int) (candidates : AList fun _ : Nat => List Nat) :
    List (Nat × Int) :=
  writeFrom promotionLimit offset candidates [] (sortedKeys candidates)

/-- What `get_promotions.py` writes for a log. -/
def getPromotions (mode : Mode) (app : String) (promotionLimit offset : Int)
    (lines : List (List Char)) : Option (List (Nat × Int)) := do
  let candidates ← readFile mode listedAddr app lines
  some (writePromotions promotionLimit offset candidates)

/-- The regions in a log. -/
def regions (outputs : List Output) : Finset Nat :=
  (outputs.filterMap fun line => (Single.entry line).map Prod.fst).toFinset

/-- `summarize_promotions` first inserted a region in the pass at access count `t`. -/
def FirstInserted (cfg : Config) (as : List UInt64) (t base : Nat) : Prop :=
  ∃ k, t = word k ∧ Single.Inserts cfg as k base ∧ ∀ k' < k, ¬ Single.Inserts cfg as k' base

/-- The first pass that lists a region with a frequency above zero shows the least access count of all passes
    that list it; access counts have 64 bits. -/
def OnTime (cfg : Config) (as : List UInt64) (base : Nat) : Prop :=
  ∃ k m, Single.Lists cfg as k m base ∧ m.freq base ≠ some 0 ∧
    (∀ k' m', k' < k → Single.Lists cfg as k' m' base → m'.freq base = some 0) ∧
      ∀ k' m', Single.Lists cfg as k' m' base → word k ≤ word k'

section
variable {limit offset : Int} {c : AList fun _ : Nat => List Nat} {unique : List Nat}
  {all : Finset Nat}

/-- Below the limit all new addresses of a time are taken. -/
lemma promoteFrom_spec (big : (all.card : Int) < limit) (nodup : unique.Nodup)
    (sub : ∀ a ∈ unique, a ∈ all) (toPromote : List Nat) {addrs : List Nat}
    (sub' : ∀ a ∈ addrs, a ∈ all) :
    ∃ new, promoteFrom limit unique toPromote addrs = (unique ++ new, toPromote ++ new, false) ∧
      (unique ++ new).Nodup ∧ ∀ a, a ∈ new ↔ a ∈ addrs ∧ a ∉ unique := by
  induction addrs generalizing unique toPromote with
  | nil => exact ⟨[], by simp [promoteFrom], by simpa using nodup, by simp⟩
  | cons addr addrs ih =>
    obtain ⟨here, sub'⟩ := List.forall_mem_cons.mp sub'
    rw [promoteFrom]
    split
    case isTrue known =>
      obtain ⟨new, e, nodup', mem⟩ := ih nodup sub toPromote sub'
      refine ⟨new, e, nodup', ?_⟩
      intro a
      rw [mem, List.mem_cons]
      constructor
      · exact fun h => ⟨.inr h.1, h.2⟩
      · rintro ⟨rfl | listed, fresh⟩
        · exact absurd known fresh
        · exact ⟨listed, fresh⟩
    case isFalse fresh =>
      have nodup' : (unique ++ [addr]).Nodup :=
        List.nodup_append.mpr ⟨nodup, List.nodup_singleton _, by
          rintro a mem b hb rfl
          rw [List.mem_singleton.mp hb] at mem
          exact fresh mem⟩
      have sub₁ : ∀ a ∈ unique ++ [addr], a ∈ all := by
        intro a mem
        cases List.mem_append.mp mem with
        | inl mem => exact sub a mem
        | inr mem =>
          rw [List.mem_singleton.mp mem]
          exact here
      have room : (unique ++ [addr]).length ≤ all.card := by
        rw [← List.toFinset_card_of_nodup nodup']
        exact Finset.card_le_card fun a mem => sub₁ a (List.mem_toFinset.mp mem)
      rw [if_neg (by omega)]
      obtain ⟨new, e, nodup'', mem⟩ := ih nodup' sub₁ (toPromote ++ [addr]) sub'
      refine ⟨addr :: new, ?_, ?_, ?_⟩
      · rw [e, List.append_assoc, List.append_assoc]
        rfl
      · rw [List.append_assoc] at nodup''
        exact nodup''
      · intro a
        rw [List.mem_cons, mem, List.mem_append, List.mem_singleton, List.mem_cons]
        by_cases same : a = addr
        · simp [same, fresh]
        · simp [same]

/-- Below the limit an address is written under the first time that lists it. -/
lemma mem_writeFrom (big : (all.card : Int) < limit) (nodup : unique.Nodup)
    (sub : ∀ a ∈ unique, a ∈ all) {times : List Nat} (sorted : times.Pairwise (· < ·))
    (sub' : ∀ time ∈ times, ∀ a ∈ (c.lookup time).getD [], a ∈ all) {t : Nat} {x : Int} :
    (t, x) ∈ writeFrom limit offset c unique times ↔ ∃ a : Nat, x = a + offset ∧ a ∉ unique ∧
      t ∈ times ∧ a ∈ (c.lookup t).getD [] ∧
        ∀ t' ∈ times, t' < t → a ∉ (c.lookup t').getD [] := by
  induction times generalizing unique with
  | nil => simp [writeFrom]
  | cons time times ih =>
    obtain ⟨first, sorted⟩ := List.pairwise_cons.mp sorted
    obtain ⟨here, sub'⟩ := List.forall_mem_cons.mp sub'
    obtain ⟨new, e, nodup', mem⟩ := promoteFrom_spec big nodup sub [] here
    have sub₁ : ∀ a ∈ unique ++ new, a ∈ all := by
      intro a h
      cases List.mem_append.mp h with
      | inl h => exact sub a h
      | inr h => exact here a ((mem a).mp h).1
    rw [writeFrom, e]
    simp only [Bool.false_eq_true, if_false, List.nil_append, List.mem_append, List.mem_map,
      List.mem_mergeSort, ih nodup' sub₁ sorted sub']
    constructor
    · rintro (⟨a, ha, e⟩ | ⟨a, rfl, fresh, ht, listed, before⟩)
      · obtain ⟨rfl, rfl⟩ := Prod.mk.inj e
        obtain ⟨listed, fresh⟩ := (mem a).mp ha
        refine ⟨a, rfl, fresh, List.mem_cons_self, listed, ?_⟩
        intro t' ht' lt
        cases List.mem_cons.mp ht' with
        | inl same => omega
        | inr later => exact absurd (first t' later) (by omega)
      · obtain ⟨fresh, notNew⟩ := not_or.mp fresh
        refine ⟨a, rfl, fresh, List.mem_cons_of_mem _ ht, listed, ?_⟩
        intro t' ht' lt
        cases List.mem_cons.mp ht' with
        | inl same =>
          rw [same]
          exact fun listed' => notNew ((mem a).mpr ⟨listed', fresh⟩)
        | inr later => exact before t' later lt
    · rintro ⟨a, rfl, fresh, ht, listed, before⟩
      cases List.mem_cons.mp ht with
      | inl same =>
        rw [same] at listed ⊢
        exact .inl ⟨a, (mem a).mpr ⟨listed, fresh⟩, rfl⟩
      | inr later =>
        refine .inr ⟨a, rfl, ?_, later, listed, ?_⟩
        · rintro (known | now)
          · exact fresh known
          · exact before time List.mem_cons_self (first t later) ((mem a).mp now).1
        · intro t' ht' lt
          exact before t' (List.mem_cons_of_mem _ ht') lt

/-- With a limit above the number of addresses, an address is written once, under the first time that lists it. -/
theorem mem_writePromotions (big : (all.card : Int) < limit)
    (sub : ∀ time, ∀ a ∈ (c.lookup time).getD [], a ∈ all) {t : Nat} {x : Int} :
    (t, x) ∈ writePromotions limit offset c ↔ ∃ a : Nat, x = a + offset ∧
      a ∈ (c.lookup t).getD [] ∧ ∀ t' < t, a ∉ (c.lookup t').getD [] := by
  rw [writePromotions, mem_writeFrom big List.nodup_nil (fun a h => by cases h) (sortedKeys_lt c)
    fun time _ => sub time]
  constructor
  · rintro ⟨a, rfl, _, _, listed, before⟩
    exact ⟨a, rfl, listed, fun t' lt listed' => before t' (mem_sortedKeys listed') lt listed'⟩
  · rintro ⟨a, rfl, listed, before⟩
    exact ⟨a, rfl, List.not_mem_nil, mem_sortedKeys listed, listed, fun t' _ lt => before t' lt⟩

end

section
variable {cfg : Config} {as : List UInt64} {s : Sim} {ostream : Float → List Char} {app : String}
  {lines : List (List Char)} {limit offset : Int}

/-- The addresses under a time are the regions that the passes with this access count list. -/
lemma mem_listed {passes : List Single.Pass} (valid : ∀ p ∈ passes, p.Of cfg as)
    (all : ∀ k m, Single.PassFrom cfg as k m → ∃ p ∈ passes, p.access = k) {t base : Nat} :
    base ∈ (passes.filter fun p => word p.access = t).flatMap (kept listedAddr) ↔
      ∃ k m, Single.Lists cfg as k m base ∧ t = word k := by
  have addrs : ∀ p : Single.Pass, kept listedAddr p = p.bases := fun p => List.filterMap_some
  simp only [List.mem_flatMap, List.mem_filter, decide_eq_true_eq, addrs]
  constructor
  · rintro ⟨p, ⟨mem, rfl⟩, listed⟩
    exact ⟨p.access, p.state, (valid p mem).lists.mp listed, rfl⟩
  · rintro ⟨k, m, lists, rfl⟩
    obtain ⟨p, mem, rfl⟩ := all k m lists.1
    obtain rfl := lists.1.unique (valid p mem).passFrom
    exact ⟨p, ⟨mem, rfl⟩, (valid p mem).lists.mpr lists⟩

/-- The addresses under a time are regions of the log. -/
lemma mem_regions {passes : List Single.Pass} (valid : ∀ p ∈ passes, p.Of cfg as)
    (cout : s.cout = passes.flatMap Single.Pass.output) {t base : Nat}
    (h : base ∈ (passes.filter fun p => word p.access = t).flatMap (kept listedAddr)) :
    base ∈ regions s.cout := by
  obtain ⟨p, hp, listed⟩ := List.mem_flatMap.mp h
  have mem := List.mem_of_mem_filter hp
  have addrs : kept listedAddr p = p.bases := List.filterMap_some
  rw [addrs] at listed
  have entered : some (Single.listing p.state base) ∈ p.lines.map Single.entry := by
    rw [(valid p mem).lines]
    exact List.mem_map_of_mem listed
  obtain ⟨line, hline, e⟩ := List.mem_map.mp entered
  rw [regions, List.mem_toFinset, List.mem_filterMap]
  refine ⟨line, ?_, ?_⟩
  · rw [cout, List.mem_flatMap]
    exact ⟨p, mem, List.mem_cons_of_mem _ hline⟩
  · rw [e]
    rfl

/-- The regions of the log are those that passes list. -/
lemma mem_regions_iff (h : Single.simulate cfg as = some s) {base : Nat} :
    base ∈ regions s.cout ↔ ∃ k m, Single.Lists cfg as k m base := by
  obtain ⟨passes, valid, all, _, cout⟩ := Single.exists_passes h
  constructor
  · intro mem
    rw [regions, List.mem_toFinset, List.mem_filterMap, cout] at mem
    obtain ⟨line, mem, e⟩ := mem
    obtain ⟨p, hp, hline⟩ := List.mem_flatMap.mp mem
    obtain ⟨listed, e', rfl⟩ := Option.map_eq_some_iff.mp e
    cases List.mem_cons.mp hline with
    | inl header =>
      rw [header] at e'
      cases e'
    | inr hline =>
      have entered := List.mem_map_of_mem (f := Single.entry) hline
      rw [(valid p hp).lines, e'] at entered
      obtain ⟨b, hb, e⟩ := List.mem_map.mp entered
      obtain rfl := Option.some.inj e
      exact ⟨p.access, p.state, (valid p hp).lists.mp hb⟩
  · rintro ⟨k, m, lists⟩
    exact mem_regions valid cout ((mem_listed valid all).mpr ⟨k, m, lists, rfl⟩)

/-- The addresses that are read under a time are the regions that passes list there. -/
lemma readFile_listed (h : Single.simulate cfg as = some s) (printable : Printable ostream s.cout)
    (logged : Logged ostream app s.cout lines) :
    ∃ c, readFile .cache listedAddr app lines = some c ∧
      (∀ t base, base ∈ (c.lookup t).getD [] ↔ ∃ k m, Single.Lists cfg as k m base ∧ t = word k) ∧
        ∀ t, ∀ a ∈ (c.lookup t).getD [], a ∈ regions s.cout := by
  obtain ⟨passes, valid, all, _, cout⟩ := Single.exists_passes h
  obtain ⟨c, hc, entries⟩ := readFile_spec listedAddr valid cout printable logged
  refine ⟨c, hc, ?_, ?_⟩
  · intro t base
    rw [entries]
    exact mem_listed valid all
  · intro t a listed
    rw [entries] at listed
    exact mem_regions valid cout listed

/-- The file of promotions: a region comes under the least access count that lists it. -/
theorem getPromotions_spec (offset : Int) (h : Single.simulate cfg as = some s)
    (printable : Printable ostream s.cout) (logged : Logged ostream app s.cout lines)
    (big : ((regions s.cout).card : Int) < limit) :
    ∃ file, getPromotions .cache app limit offset lines = some file ∧
      ∀ t x, (t, x) ∈ file ↔ ∃ base : Nat, x = base + offset ∧
        (∃ k m, Single.Lists cfg as k m base ∧ t = word k) ∧
          ∀ k m, Single.Lists cfg as k m base → t ≤ word k := by
  obtain ⟨c, hc, mem, sub⟩ := readFile_listed h printable logged
  refine ⟨writePromotions limit offset c, by rw [getPromotions, hc]; rfl, ?_⟩
  intro t x
  rw [mem_writePromotions big sub]
  refine exists_congr fun base => and_congr_right fun _ => ?_
  rw [mem]
  refine and_congr_right fun _ => ?_
  constructor
  · intro first k m lists
    by_contra lt
    exact first (word k) (by omega) ((mem _ _).mpr ⟨k, m, lists, rfl⟩)
  · intro least t' lt listed
    obtain ⟨k, m, lists, rfl⟩ := (mem _ _).mp listed
    exact absurd (least k m lists) (by omega)

/-- A candidate is inserted at its first listing with a frequency. -/
lemma firstInserted_iff (h : Single.simulate cfg as = some s) {t base : Nat} :
    FirstInserted cfg as t base ↔ ∃ k m, t = word k ∧ Single.Lists cfg as k m base ∧
      m.freq base ≠ some 0 ∧
        ∀ k' m', k' < k → Single.Lists cfg as k' m' base → m'.freq base = some 0 := by
  constructor
  · intro ⟨k, e, first⟩
    obtain ⟨⟨m, lists, ne⟩, zeros⟩ := (Single.firstInsert_iff h).mp first
    exact ⟨k, m, e, lists, ne, zeros⟩
  · intro ⟨k, m, e, lists, ne, zeros⟩
    exact ⟨k, e, (Single.firstInsert_iff h).mpr ⟨⟨m, lists, ne⟩, zeros⟩⟩

/-- A region that is inserted in time comes in the file where it is first inserted. -/
lemma OnTime.firstInserted_iff (h : Single.simulate cfg as = some s) {t base : Nat}
    (onTime : OnTime cfg as base) : FirstInserted cfg as t base ↔
      (∃ k m, Single.Lists cfg as k m base ∧ t = word k) ∧
        ∀ k m, Single.Lists cfg as k m base → t ≤ word k := by
  obtain ⟨k, m, lists, ne, zeros, least⟩ := onTime
  rw [Scripts.firstInserted_iff h]
  constructor
  · intro ⟨k', m', e, lists', ne', zeros'⟩
    -- there is one first pass that lists the region with a frequency above zero
    have same : k' = k := by
      rcases Nat.lt_trichotomy k' k with lt | same | lt
      · exact absurd (zeros k' m' lt lists') ne'
      · exact same
      · exact absurd (zeros' k m lt lists) ne
    rw [e, same]
    exact ⟨⟨k, m, lists, rfl⟩, least⟩
  · intro ⟨⟨k', m', lists', e⟩, first⟩
    have le := first k m lists
    have ge := least k' m' lists'
    exact ⟨k, m, by omega, lists, ne, zeros⟩

/-- While the access counts do not wrap around, a region is inserted in time if the first pass that lists it shows a
    frequency above zero. -/
theorem onTime_iff_first (short : as.length < 2 ^ 64) {k base : Nat} {m : Sim}
    (lists : Single.Lists cfg as k m base) (first : ∀ k' m', k' < k → ¬ Single.Lists cfg as k' m' base) :
    OnTime cfg as base ↔ m.freq base ≠ some 0 := by
  have same : ∀ {k m}, Single.Lists cfg as k m base → word k = k := fun lists =>
    word_of_lt (Nat.lt_of_le_of_lt lists.1.le.2 short)
  constructor
  · intro ⟨k₀, m₀, lists₀, ne, _, least⟩
    have le := least k m lists
    rw [same lists, same lists₀] at le
    rcases Nat.lt_or_eq_of_le le with lt | rfl
    · exact absurd lists₀ (first k₀ m₀ lt)
    · rw [lists.1.unique lists₀.1]
      exact ne
  · intro ne
    refine ⟨k, m, lists, ne, fun k' m' lt lists' => absurd lists' (first k' m' lt), ?_⟩
    intro k' m' lists'
    rw [same lists, same lists']
    by_contra lt
    exact first k' m' (by omega) lists'

/-- The file of promotions holds the first promotions of the run if and only if every region that is listed
    is first listed with a frequency above zero under the least access count that lists it. -/
theorem firstPromotions_iff (h : Single.simulate cfg as = some s)
    (printable : Printable ostream s.cout) (logged : Logged ostream app s.cout lines)
    (big : ((regions s.cout).card : Int) < limit) :
    (∃ file, getPromotions .cache app limit offset lines = some file ∧
      ∀ t x, (t, x) ∈ file ↔ ∃ base : Nat, x = base + offset ∧ FirstInserted cfg as t base) ↔
    ∀ k m base, Single.Lists cfg as k m base → OnTime cfg as base := by
  obtain ⟨file, hfile, written⟩ := getPromotions_spec offset h printable logged big
  constructor
  · intro ⟨file', hfile', exact'⟩ k m base lists
    obtain rfl := Option.some.inj (hfile.symm.trans hfile')
    -- the file has the region under the least access count that lists it
    have listed : ∃ t k m, Single.Lists cfg as k m base ∧ t = word k := ⟨_, k, m, lists, rfl⟩
    classical
    have least : ∀ k m, Single.Lists cfg as k m base → Nat.find listed ≤ word k :=
      fun k m lists => Nat.find_min' listed ⟨k, m, lists, rfl⟩
    have here := (written _ _).mpr ⟨base, rfl, Nat.find_spec listed, least⟩
    obtain ⟨base', e, first⟩ := (exact' _ _).mp here
    obtain rfl : base = base' := by omega
    obtain ⟨k', m', ht, lists', ne, zeros⟩ := (firstInserted_iff h).mp first
    refine ⟨k', m', lists', ne, zeros, ?_⟩
    rw [← ht]
    exact least
  · intro onTime
    refine ⟨file, hfile, ?_⟩
    intro t x
    rw [written]
    refine exists_congr fun base => and_congr_right fun _ => ?_
    constructor
    · intro written
      obtain ⟨k, m, lists, _⟩ := written.1
      exact ((onTime k m base lists).firstInserted_iff h).mpr written
    · intro first
      obtain ⟨k, m, _, lists, _⟩ := (firstInserted_iff h).mp first
      exact ((onTime k m base lists).firstInserted_iff h).mp first

/-- The two promotions of a run, at its two passes. -/
theorem firstPromotions_iff_refill :
    ∃ s file, Single.simulate ⟨4, 3, 8, 0.9⟩ refill = some s ∧
      getPromotions .cache "sssp" 3 2048 (s.cout.flatMap (printed distance)) = some file ∧
      (8, 2048) ∈ file ∧ (24, 2050) ∈ file ∧
      ∀ t x, (t, x) ∈ file ↔
        ∃ base : Nat, x = base + 2048 ∧ FirstInserted ⟨4, 3, 8, 0.9⟩ refill t base := by
  obtain ⟨s, m₁, m₂, h, lists, listed₁, _, listed₂⟩ := refill_lists
  have short : refill.length < 2 ^ 64 := by decide
  have region₀ := (lists 8 m₁ 0).mpr (.inl ⟨rfl, rfl, rfl⟩)
  have region₂ := (lists 24 m₂ 2).mpr (.inr ⟨rfl, rfl, .inr rfl⟩)
  have before₀ : ∀ k m, k < 8 → ¬ Single.Lists ⟨4, 3, 8, 0.9⟩ refill k m 0 := by
    intro k m lt listed
    rcases (lists k m 0).mp listed with ⟨rfl, _⟩ | ⟨rfl, _⟩ <;> omega
  have before₂ : ∀ k m, k < 24 → ¬ Single.Lists ⟨4, 3, 8, 0.9⟩ refill k m 2 := by
    intro k m lt listed
    rcases (lists k m 2).mp listed with ⟨_, _, other⟩ | ⟨rfl, _⟩ <;> omega
  have ne₀ := freq_ne_zero listed₁ (by decide)
  have ne₂ := freq_ne_zero listed₂ (by decide)
  have big : ((regions s.cout).card : Int) < 3 := by
    have sub : regions s.cout ⊆ {0, 2} := by
      intro base mem
      obtain ⟨k, m, listed⟩ := (mem_regions_iff h).mp mem
      rcases (lists k m base).mp listed with ⟨_, _, rfl⟩ | ⟨_, _, rfl | rfl⟩ <;> decide
    have le := Finset.card_le_card sub
    have two : ({0, 2} : Finset Nat).card = 2 := rfl
    omega
  have onTime : ∀ k m base, Single.Lists ⟨4, 3, 8, 0.9⟩ refill k m base → OnTime ⟨4, 3, 8, 0.9⟩ refill base := by
    intro k m base listed
    have onTime₀ := (onTime_iff_first short region₀ before₀).mpr ne₀
    rcases (lists k m base).mp listed with ⟨_, _, rfl⟩ | ⟨_, _, rfl | rfl⟩
    · exact onTime₀
    · exact onTime₀
    · exact (onTime_iff_first short region₂ before₂).mpr ne₂
  obtain ⟨file, made, written⟩ :=
    (firstPromotions_iff h (printable_distance _) (logged_printed distance _) big).mpr onTime
  refine ⟨s, file, h, made, (written 8 2048).mpr ⟨0, rfl, ?_⟩, (written 24 2050).mpr ⟨2, rfl, ?_⟩, written⟩
  · exact (firstInserted_iff h).mpr ⟨8, m₁, rfl, region₀, ne₀, fun k m lt listed => absurd listed (before₀ k m lt)⟩
  · exact (firstInserted_iff h).mpr ⟨24, m₂, rfl, region₂, ne₂, fun k m lt listed => absurd listed (before₂ k m lt)⟩

/-- With a pass at the third access, which lists region 1 with frequency zero: the script has it promoted and
    the simulator does not promote it. -/
theorem unpromoted_written :
    ∃ s, Single.simulate ⟨1, 1, 3, 0.9⟩ [2097152, 2101248, 2101248] = some s ∧
      ((regions s.cout).card : Int) < 2 ∧ Printable (fun _ => "0".toList) s.cout ∧
      Logged (fun _ => "0".toList) "sssp" s.cout (s.cout.flatMap (printed fun _ => "0".toList)) ∧
      ¬ ∃ file, getPromotions .cache "sssp" 2 0
          (s.cout.flatMap (printed fun _ => "0".toList)) = some file ∧
        ∀ t x, (t, x) ∈ file ↔ ∃ base : Nat, x = base + 0 ∧
          FirstInserted ⟨1, 1, 3, 0.9⟩ [2097152, 2101248, 2101248] t base := by
  have run : (Single.simulate ⟨1, 1, 3, 0.9⟩ [2097152, 2101248, 2101248]).map (fun s =>
      s.cout.filterMap fun line => (Single.entry line).map Prod.fst) = some [1] := by decide +kernel
  have before : (Single.simulate ⟨1, 1, 3, 0.9⟩ [2097152, 2101248]).map (fun s =>
      ((Single.counted s).freq 1, decide ((Single.counted s).promotionCache.Resident 1),
        Single.passDue ⟨1, 1, 3, 0.9⟩ (Single.counted s).totalNumAccesses)) =
      some (some 0, true, true) := by decide +kernel
  obtain ⟨s, h, one⟩ := Option.map_eq_some_iff.mp run
  obtain ⟨s₂, h₂, e⟩ := Option.map_eq_some_iff.mp before
  obtain ⟨zero, e⟩ := Prod.mk.inj e
  obtain ⟨held, due⟩ := Prod.mk.inj e
  have printable : Printable (fun _ => "0".toList) s.cout := fun _ _ _ _ _ _ =>
    ⟨['0'], [], [], rfl, by simp, by simp, .inl rfl, .inl rfl⟩
  have logged := logged_printed (fun _ => "0".toList) s.cout
  have big : ((regions s.cout).card : Int) < 2 := by
    rw [regions, one]
    decide
  refine ⟨s, h, big, printable, logged, ?_⟩
  rintro ⟨file, hfile, promotions⟩
  obtain ⟨file', hfile', written⟩ := getPromotions_spec 0 h printable logged big
  obtain rfl := Option.some.inj (hfile.symm.trans hfile')
  have lists : Single.Lists ⟨1, 1, 3, 0.9⟩ [2097152, 2101248, 2101248] 3 (Single.counted s₂) 1 :=
    ⟨⟨_, 2101248, s₂, List.prefix_refl _, rfl, h₂, rfl, due⟩, of_decide_eq_true held⟩
  have third : ∀ k m, Single.Lists ⟨1, 1, 3, 0.9⟩ [2097152, 2101248, 2101248] k m 1 → k = 3 := by
    intro k m lists
    obtain ⟨one, le⟩ := lists.1.le
    have total := lists.1.total
    obtain ⟨⟨_, _, _, _, _, _, _, due⟩, _⟩ := lists
    rw [total] at due
    have le : k ≤ 3 := le
    interval_cases k
    · exact absurd due (by decide)
    · exact absurd due (by decide)
    · rfl
  have here := (written 3 1).mpr ⟨1, rfl, ⟨3, _, lists, rfl⟩, fun k m lists => by
    rw [third k m lists]
    exact Nat.le_refl 3⟩
  obtain ⟨base, e, first⟩ := (promotions 3 1).mp here
  obtain rfl : base = 1 := by omega
  obtain ⟨k, m, _, lists', ne, _⟩ := (firstInserted_iff h).mp first
  obtain rfl := third k m lists'
  obtain rfl := lists'.1.unique lists.1
  exact ne zero

end
end PromotionCache.Scripts
