import PromotionCache.Tlb.CacheSpec

/-!
# A line that is not used again

With policy 2 a line of frequency 0 falls back in the list: whatever is inserted or used goes in front of
it. `Trails` counts the lines in front, as long as the set has lines left and makes no room.
-/

namespace PromotionCache.Tlb
open Lib

namespace CacheSet

/-- The set holds `m` lines, among them one of tag `t` and frequency 0 behind at least `k` others. -/
def Trails (s : CacheSet) (t k m : Nat) : Prop :=
  s.policy = 2 ∧ ∃ front z back, s.Exact (front ++ z :: back) ∧ (s.line z).addr = t ∧
    (s.line z).freq = 0 ∧ k ≤ front.length ∧ (front ++ z :: back).length = m

/-- What is inserted in front of an element leaves it where it is. -/
lemma orderedInsert_front {α : Type*} {r : α → α → Prop} [DecidableRel r] {c z : α} (hz : r c z)
    (xs ys : List α) :
    ∃ xs', (xs ++ z :: ys).orderedInsert r c = xs' ++ z :: ys ∧ xs'.length = xs.length + 1 := by
  induction xs with
  | nil =>
    refine ⟨[c], ?_, rfl⟩
    rw [List.nil_append, List.orderedInsert_cons, if_pos hz]
    rfl
  | cons x xs ih =>
    rw [List.cons_append, List.orderedInsert_cons]
    split
    case isTrue => exact ⟨c :: x :: xs, rfl, rfl⟩
    case isFalse =>
      obtain ⟨xs', e, len⟩ := ih
      refine ⟨x :: xs', ?_, ?_⟩
      · rw [e]
        rfl
      · rw [List.length_cons, len, List.length_cons]

section
variable {s s' : CacheSet} {t u k m o : Nat} {ld : Bool}

/-- An access to another tag lets it trail. -/
lemma Trails.access {hit} (trails : s.Trails t k m) (ok : s.Ok) (ne : u ≠ t)
    (h : s.access u o ld = some (hit, s')) :
    s'.Trails t k m ∧ s'.associativity = s.associativity := by
  obtain ⟨pol, front, z, back, ex, addr, freq, le, len⟩ := trails
  by_cases held : s.Bound u
  · obtain ⟨c, hc⟩ := held
    obtain ⟨l, hacc, wf'⟩ := ex.access_hit (.inr pol) hc o ld
    obtain ⟨mem, addrC⟩ := ex.bound hc
    have un := (ok.access h).2.2.2.2 (ex.exact_iff.mpr ex)
    obtain ⟨_, rfl⟩ := Prod.mk.inj (Option.some.inj (h.symm.trans hacc))
    have zc : z ≠ c := by
      rintro rfl
      exact ne (addrC.symm.trans addr)
    have memZ : z ∈ front ++ z :: back := List.mem_append_right _ List.mem_cons_self
    -- without the accessed line, and with it in its new place
    have rest : ∃ front' back', (front ++ z :: back).erase c = front' ++ z :: back' ∧
        front.length ≤ front'.length + 1 := by
      by_cases first : c ∈ front
      · refine ⟨front.erase c, back, List.erase_append_left _ first, ?_⟩
        rw [List.length_erase_of_mem first]
        omega
      · refine ⟨front, back.erase c, ?_, by omega⟩
        rw [List.erase_append_right _ first, List.erase_cons_tail (by simpa using zc)]
    obtain ⟨front', back', erased, le'⟩ := rest
    have behind : (s.line z).freq ≤ (s.line c).freq := by omega
    obtain ⟨xs, placed, lenX⟩ := orderedInsert_front (r := fun a b => (s.line b).freq ≤ (s.line a).freq)
      behind front' back'
    have list : CacheSet.place s.policy s.line c ((front ++ z :: back).erase c) = xs ++ z :: back' := by
      rw [erased, pol]
      exact placed
    rw [list] at wf'
    refine ⟨⟨pol, xs, z, back', wf'.exact_iff.mp un, ?_, ?_, by omega, ?_⟩, rfl⟩
    · exact (hitLine_addr c z o ld).trans addr
    · show (s.hitLine _ c o ld z).freq = 0
      rw [hitLine_freq ex.freq mem, if_neg zc, if_neg zc, if_pos memZ, freq]
      split <;> rfl
    · have perm := (place_perm s.policy s.line c ((front ++ z :: back).erase c)).trans
        (List.perm_cons_erase mem).symm
      rw [← list, perm.length_eq, len]
  · obtain ⟨_, rfl⟩ := Prod.mk.inj (Option.some.inj (h.symm.trans (access_miss (not_bound.mp held) o ld)))
    have un := (ok.access h).2.2.2.2 (ex.exact_iff.mpr ex)
    exact ⟨⟨pol, front, z, back, (ex.missed u).exact_iff.mp un, addr, freq, le, len⟩, rfl⟩

/-- So does an insertion where there is room, with one more line in front. -/
lemma Trails.insert {out e} (trails : s.Trails t k m) (ok : s.Ok) (ht : u < 2 ^ 63) (fresh : ¬ s.Bound u)
    (room : m < s.associativity) (h : s.insert u o ld out = some (s', e)) :
    s'.Trails t (k + 1) (m + 1) ∧ s'.associativity = s.associativity := by
  obtain ⟨pol, front, z, back, ex, addr, freq, le, len⟩ := trails
  have un := (ok.insert ht h).2.2.2.2 (ex.exact_iff.mpr ex) fresh
  have total := ex.length
  cases hfree : s.freeEntries with
  | nil =>
    rw [hfree, List.length_nil, len] at total
    omega
  | cons c free =>
    obtain ⟨held, l, hins, wf'⟩ := ex.insert_free (.inr pol) hfree u o ld out
    obtain ⟨rfl, _⟩ := Prod.mk.inj (Option.some.inj (h.symm.trans hins))
    have memZ : z ∈ front ++ z :: back := List.mem_append_right _ List.mem_cons_self
    have kept : s.filled c u o ld z = s.line z := by
      rw [filled, Function.update_of_ne (held.ne_of_mem memZ)]
    have own : (s.filled c u o ld c).freq = 0 := by
      rw [filled, Function.update_self]
    have behind : (s.filled c u o ld z).freq ≤ (s.filled c u o ld c).freq := by
      rw [kept, own, freq]
    obtain ⟨xs, placed, lenX⟩ := orderedInsert_front
      (r := fun a b => (s.filled c u o ld b).freq ≤ (s.filled c u o ld a).freq) behind front back
    have list : CacheSet.place s.policy (s.filled c u o ld) c (front ++ z :: back) = xs ++ z :: back := by
      rw [pol]
      exact placed
    rw [list] at wf'
    refine ⟨⟨pol, xs, z, back, wf'.exact_iff.mp un, ?_, ?_, by omega, ?_⟩, rfl⟩
    · show (s.filled c u o ld z).addr = t
      rw [kept, addr]
    · show (s.filled c u o ld z).freq = 0
      rw [kept, freq]
    · have perm := place_perm s.policy (s.filled c u o ld) c (front ++ z :: back)
      rw [← list, perm.length_eq, List.length_cons, len]

/-- The position of the tag in the list. -/
lemma Trails.tags (trails : s.Trails t k m) : ∃ xs ys, s.tags = xs ++ t :: ys ∧ k ≤ xs.length := by
  obtain ⟨_, front, z, back, ex, addr, _, le, _⟩ := trails
  refine ⟨front.map fun c => (s.line c).addr, back.map fun c => (s.line c).addr, ?_, ?_⟩
  · rw [ex.tags_eq, List.map_append, List.map_cons, addr]
  · rw [List.length_map]
    exact le

end
end CacheSet

namespace FunctionalCache

/-- `CacheSet.Trails` for the only set of a cache with `n` lines. -/
def Trails (c : FunctionalCache) (n t k m : Nat) : Prop :=
  ∃ w, c.sets = [w] ∧ w.associativity = n ∧ w.Trails t k m

section
variable {c c' : FunctionalCache} {g : Geometry} {n t k m a : Nat} {ld is2M : Bool}

/-- What the only set of a cache is asked for. -/
lemma Valid.only_set {w : CacheSet} (v : c.Valid g) (fits : g.Fits) (one : g.logSets = 0)
    (ha : a < 2 ^ 64) (is2M : Bool) (sets : c.sets = [w]) :
    c.sets[c.setid is2M a]? = some w ∧ c.tag is2M a = pageNumber g.logLine is2M a := by
  rw [v.setid fits, v.tag fits ha, one, Nat.pow_zero, Nat.mod_one, Nat.div_one, sets]
  exact ⟨rfl, rfl⟩

/-- An access to another page lets it trail. -/
lemma Trails.access {hit} (trails : c.Trails n t k m) (v : c.Valid g) (fits : g.Fits)
    (one : g.logSets = 0) (ha : a < 2 ^ 64) (ne : pageNumber g.logLine is2M a ≠ t)
    (h : c.access a ld is2M = some (hit, c')) : c'.Trails n t k m := by
  obtain ⟨w, sets, assoc, trails⟩ := trails
  obtain ⟨here, tag⟩ := v.only_set fits one ha is2M sets
  simp only [FunctionalCache.access, here, Option.bind_eq_bind, Option.bind_some,
    Option.bind_eq_some_iff] at h
  obtain ⟨⟨res, w'⟩, hacc, e⟩ := h
  obtain ⟨rfl, rfl⟩ := Prod.mk.inj (Option.some.inj e)
  have ok := v.ok w (List.mem_of_getElem? here)
  obtain ⟨trails', assoc'⟩ := trails.access ok (by rw [tag]; exact ne) hacc
  refine ⟨w', ?_, assoc'.trans assoc, trails'⟩
  show c.sets.set (c.setid is2M a) w' = [w']
  rw [v.setid fits, one, Nat.pow_zero, Nat.mod_one, sets]
  rfl

/-- So does an insertion where there is room, with one more line in front. -/
lemma Trails.insert {out out'} (trails : c.Trails n t k m) (v : c.Valid g) (fits : g.Fits)
    (one : g.logSets = 0) (ha : a < 2 ^ 64) (fresh : ¬ c.Resident (pageNumber g.logLine is2M a))
    (room : m < n) (h : c.insert a ld out is2M = some (c', out')) :
    c'.Trails n t (k + 1) (m + 1) := by
  obtain ⟨w, sets, assoc, trails⟩ := trails
  obtain ⟨here, tag⟩ := v.only_set fits one ha is2M sets
  have zero : c.logSetCount = 0 := v.logSets.trans one
  have free : ¬ w.Bound (c.tag is2M a) := by
    have first : c.sets[0]? = some w := by rw [sets]; rfl
    rw [FunctionalCache.resident_of_set first (by rw [zero]; exact Nat.mod_one _), zero, Nat.pow_zero,
      Nat.div_one] at fresh
    rw [tag]
    exact fresh
  have small := v.tag_lt fits ha is2M
  simp only [FunctionalCache.insert, here, Option.bind_eq_bind, Option.bind_some,
    Option.bind_eq_some_iff] at h
  obtain ⟨⟨w', e'⟩, hins, e⟩ := h
  obtain ⟨rfl, _⟩ := Prod.mk.inj (Option.some.inj e)
  have ok := v.ok w (List.mem_of_getElem? here)
  obtain ⟨trails', assoc'⟩ := trails.insert ok small free (by rw [assoc]; exact room) hins
  refine ⟨w', ?_, assoc'.trans assoc, trails'⟩
  show c.sets.set (c.setid is2M a) w' = [w']
  rw [v.setid fits, one, Nat.pow_zero, Nat.mod_one, sets]
  rfl

/-- The position of the page in the list of entries. -/
lemma Trails.entries (trails : c.Trails n t k m) (v : c.Valid g) :
    ∃ xs ys, c.getEntries = some (xs ++ t :: ys) ∧ k ≤ xs.length := by
  obtain ⟨w, sets, _, trails⟩ := trails
  obtain ⟨xs, ys, tags, le⟩ := trails.tags
  refine ⟨xs, ys, ?_, le⟩
  rw [getEntries, CacheSet.mapM_getSet v.ok, sets]
  simp [tags]

end
end FunctionalCache

end PromotionCache.Tlb
