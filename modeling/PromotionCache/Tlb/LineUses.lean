import Mathlib.Algebra.Order.Ring.Int
import Mathlib.Tactic.Ring
import PromotionCache.Lib.Run
import PromotionCache.Tlb.Offsets

/-!
# The address behind an evicted line

A line keeps tag and offset of the address it was last used for. `Traced` is a cache with a note of that
address for every line, the line being known by its set and its pointer, so that two lines with one tag are
kept apart. An insertion puts the address of the line that it evicts together again, with `set_count` in
place of the power of two by which it was cut.
-/

namespace PromotionCache.Tlb
open Lib

namespace CacheSet

/-- The line that a lookup finds. -/
def found (s : CacheSet) (address : Nat) : Option Ptr := s.addrMap.get address none

/-- The line that an insertion fills: the top of the free stack, or else the last of the list. -/
def next (s : CacheSet) : Option Ptr :=
  match s.freeEntries with
  | [] => s.links.prev .tail
  | c :: _ => some c

/-- Tag and offset in a line. -/
def stamp (s : CacheSet) (c : Ptr) : Nat × Nat := ((s.line c).addr, (s.line c).offset)

section
variable {s s' : CacheSet} {t o : Nat} {ld : Bool}

/-- A lookup stamps the line that it finds. -/
lemma Ok.access_stamp {hit} (ok : s.Ok) (h : s.access t o ld = some (hit, s')) {c : Ptr}
    (mem : c ∈ s'.recency.getD []) :
    c ∈ s.recency.getD [] ∧ s'.stamp c = if s.found t = some c then (t, o) else s.stamp c := by
  obtain ⟨ps, wf⟩ := ok.wf
  by_cases held : s.Bound t
  · obtain ⟨d, hd⟩ := held
    obtain ⟨l, hacc, wf'⟩ := wf.access_hit ok.pol hd o ld
    obtain ⟨_, rfl⟩ := Prod.mk.inj (Option.some.inj (h.symm.trans hacc))
    obtain ⟨dmem, addr⟩ := wf.bound hd
    have perm := (place_perm s.policy s.line d (ps.erase d)).trans (List.perm_cons_erase dmem).symm
    have line : s.found t = some d := by simp [found, UnorderedMap.get, hd]
    rw [wf'.recency] at mem
    rw [wf.recency, line]
    refine ⟨perm.mem_iff.mp mem, ?_⟩
    show ((s.hitLine ps d o ld c).addr, (s.hitLine ps d o ld c).offset) = _
    rw [hitLine_addr, hitLine_offset]
    by_cases same : c = d
    · rw [same, if_pos rfl, if_pos rfl, addr]
    · rw [if_neg same, if_neg fun e => same (Option.some.inj e).symm, stamp]
  · have none : s.found t = none := by
      cases e : s.found t with
      | none => rfl
      | some d =>
        refine absurd ⟨d, ?_⟩ held
        rw [found, UnorderedMap.get] at e
        cases look : s.addrMap.find t with
        | none =>
          rw [look] at e
          cases e
        | some x =>
          rw [look] at e
          exact congrArg some e
    obtain ⟨_, rfl⟩ := Prod.mk.inj (Option.some.inj (h.symm.trans (access_miss (not_bound.mp held) o ld)))
    rw [none, if_neg (Option.some_ne_none c).symm]
    exact ⟨mem, rfl⟩

/-- An insertion stamps the line that it fills. -/
lemma Ok.insert_stamp {out e} (ok : s.Ok) (h : s.insert t o ld out = some (s', e)) {c : Ptr}
    (mem : c ∈ s'.recency.getD []) :
    (s.next = some c ∧ s'.stamp c = (t, o)) ∨
      (s.next ≠ some c ∧ c ∈ s.recency.getD [] ∧ s'.stamp c = s.stamp c) := by
  obtain ⟨ps, wf⟩ := ok.wf
  -- of the lines in the list, one has been filled and the others have been there before
  have split : ∀ {u : CacheSet} {v : Ptr} {l qs}, u.line = s.line → s.next = some v →
      (∀ d ∈ qs, d ∈ ps) → (∀ d ∈ qs, d ≠ v) →
      (u.stored v t o ld l).Wf (place u.policy (u.filled v t o ld) v qs) →
      c ∈ (u.stored v t o ld l).recency.getD [] →
      (s.next = some c ∧ (u.stored v t o ld l).stamp c = (t, o)) ∨
        (s.next ≠ some c ∧ c ∈ s.recency.getD [] ∧ (u.stored v t o ld l).stamp c = s.stamp c) := by
    intro u v l qs line next sub other wf' mem
    rw [wf'.recency] at mem
    rw [wf.recency, next]
    rcases List.mem_cons.mp ((place_perm _ _ v qs).mem_iff.mp mem) with rfl | old
    · exact .inl ⟨rfl, by simp [stamp, stored, filled]⟩
    · have ne := other c old
      refine .inr ⟨fun e => ne (Option.some.inj e).symm, sub c old, ?_⟩
      rw [stamp, stored_line ne, line, stamp]
  cases hfree : s.freeEntries with
  | nil =>
    obtain ⟨qs, v, rfl⟩ := wf.exists_last hfree ok.pos
    obtain ⟨m, held, l, hins, wf'⟩ := wf.insert_full ok.pol hfree t o ld out
    obtain ⟨rfl, _⟩ := Prod.mk.inj (Option.some.inj (h.symm.trans hins))
    have th : s.links.Thread ((.head :: qs) ++ v :: .tail :: []) := by simpa using wf.thread
    have next : s.next = some v := by
      rw [CacheSet.next, hfree]
      exact th.prev_eq
    exact split rfl next (fun d hd => List.mem_append_left _ hd) (fun d hd => held.ne_of_mem hd) wf' mem
  | cons v free =>
    obtain ⟨held, l, hins, wf'⟩ := wf.insert_free ok.pol hfree t o ld out
    obtain ⟨rfl, _⟩ := Prod.mk.inj (Option.some.inj (h.symm.trans hins))
    have next : s.next = some v := by rw [CacheSet.next, hfree]
    exact split rfl next (fun d hd => hd) (fun d hd => held.ne_of_mem hd) wf' mem

/-- The line that makes room for an insertion is the one that it fills. -/
lemma Ok.next_full (ok : s.Ok) (full : s.freeEntries = []) :
    ∃ v, s.next = some v ∧ v ∈ s.recency.getD [] ∧ s.victim = some (s.line v) := by
  obtain ⟨ps, wf⟩ := ok.wf
  obtain ⟨qs, v, rfl⟩ := wf.exists_last full ok.pos
  have th : s.links.Thread ((.head :: qs) ++ v :: .tail :: []) := by simpa using wf.thread
  refine ⟨v, ?_, ?_, wf.victim_full full⟩
  · rw [next, full]
    exact th.prev_eq
  · rw [wf.recency]
    exact List.mem_append_right _ (List.mem_singleton_self v)

end
end CacheSet

/-- A call for a page of `cache_line_size`. -/
inductive Use where
  | access (address : UInt64) (isLoad : Bool)
  | insert (address : UInt64) (isLoad : Bool) (out : Evicted)

/-- A cache, with the address that each line of each set was last inserted or accessed with. -/
structure Traced where
  cache : FunctionalCache
  lastUse : Nat → Ptr → Nat

namespace Traced

/-- The set of an address. -/
def setOf (t : Traced) (address : UInt64) : Option CacheSet :=
  t.cache.sets[t.cache.setid false address.toNat]?

/-- The cache after a call that used a line of the set of `address`. -/
def used (t : Traced) (c : FunctionalCache) (address : UInt64) (line : Option Ptr) : Traced where
  cache := c
  lastUse := fun i p =>
    if i = t.cache.setid false address.toNat ∧ line = some p then address.toNat else t.lastUse i p

/-- A use of the cache, with the address noted at the line that it uses. -/
def step (t : Traced) : Use → Option Traced
  | .access address isLoad => do
    let (_, c) ← t.cache.access address.toNat isLoad false
    some (t.used c address ((t.setOf address).bind (·.found (t.cache.tag false address.toNat))))
  | .insert address isLoad out => do
    let (c, _) ← t.cache.insert address.toNat isLoad out false
    some (t.used c address ((t.setOf address).bind (·.next)))

/-- The address that the line was last used with which an insertion at `address` evicts. -/
def evictedUse (t : Traced) (address : UInt64) : Option Nat := do
  let s ← t.setOf address
  guard (s.freeEntries = [])
  let v ← s.next
  some (t.lastUse (t.cache.setid false address.toNat) v)

/-- Set, tag and offset of every line in a list are those of its address. -/
structure Sound (g : Geometry) (t : Traced) : Prop where
  valid : t.cache.Valid g
  uses : ∀ i s, t.cache.sets[i]? = some s → ∀ c ∈ s.recency.getD [],
    t.lastUse i c < 2 ^ 64 ∧ t.lastUse i c / 2 ^ g.logLine % 2 ^ g.logSets = i ∧
      s.stamp c = (t.lastUse i c / 2 ^ g.logLine / 2 ^ g.logSets, t.lastUse i c % 2 ^ g.logLine)

section
variable {g : Geometry} {t t' : Traced} {a : UInt64} {ld : Bool}

/-- The parts of an address, for pages of `cache_line_size`. -/
lemma Sound.cut (sound : t.Sound g) (fits : g.Fits) (a : UInt64) :
    t.cache.setid false a.toNat = a.toNat / 2 ^ g.logLine % 2 ^ g.logSets ∧
      t.cache.tag false a.toNat = a.toNat / 2 ^ g.logLine / 2 ^ g.logSets ∧
      t.cache.offset false a.toNat = a.toNat % 2 ^ g.logLine :=
  ⟨sound.valid.setid fits _ false, sound.valid.tag fits a.toNat_lt false,
    sound.valid.offset fits _ false⟩

/-- A call keeps the notes if it stamps the line that is noted, and no other. -/
lemma Sound.used {s s' : CacheSet} {line : Option Ptr} {h : List Event} (sound : t.Sound g)
    (fits : g.Fits) (hs : t.setOf a = some s)
    (valid : FunctionalCache.Valid g { t.cache with
      sets := t.cache.sets.set (t.cache.setid false a.toNat) s', history := h })
    (stamps : ∀ c ∈ s'.recency.getD [],
      (line = some c ∧ s'.stamp c = (t.cache.tag false a.toNat, t.cache.offset false a.toNat)) ∨
        (line ≠ some c ∧ c ∈ s.recency.getD [] ∧ s'.stamp c = s.stamp c)) :
    (t.used { t.cache with sets := t.cache.sets.set (t.cache.setid false a.toNat) s', history := h }
      a line).Sound g := by
  obtain ⟨hset, htag, hoff⟩ := sound.cut fits a
  refine ⟨valid, ?_⟩
  intro i u hu c mem
  simp only [Traced.used] at hu ⊢
  rw [List.getElem?_set] at hu
  split at hu
  case isTrue here =>
    have lt : t.cache.setid false a.toNat < t.cache.sets.length := (List.getElem?_eq_some_iff.mp hs).1
    obtain rfl : s' = u := by simpa [lt] using hu
    obtain ⟨line, stamp⟩ | ⟨other, old, stamp⟩ := stamps c mem
    · rw [if_pos ⟨here.symm, line⟩, stamp, htag, hoff]
      exact ⟨a.toNat_lt, hset.symm.trans here, rfl⟩
    · rw [if_neg fun both => other both.2, stamp]
      exact sound.uses i s (here ▸ hs) c old
  case isFalse other =>
    rw [if_neg fun both => other both.1.symm]
    exact sound.uses i u hu c mem

/-- A use keeps the notes right. -/
lemma Sound.step {use : Use} (sound : t.Sound g) (fits : g.Fits) (h : t.step use = some t') :
    t'.Sound g := by
  cases use with
  | access a ld =>
    simp only [Traced.step, Option.bind_eq_bind, Option.bind_eq_some_iff] at h
    obtain ⟨⟨hit, c⟩, hacc, h⟩ := h
    obtain rfl := Option.some.inj h
    obtain ⟨valid, _⟩ := sound.valid.access fits a.toNat_lt hacc
    simp only [FunctionalCache.access, Option.bind_eq_bind, Option.bind_eq_some_iff] at hacc
    obtain ⟨s, hs, ⟨res, s'⟩, hset, e⟩ := hacc
    obtain ⟨_, rfl⟩ := Prod.mk.inj (Option.some.inj e)
    have ok := sound.valid.ok s (List.mem_of_getElem? hs)
    have here : t.setOf a = some s := hs
    rw [here, Option.bind_some]
    refine sound.used fits here valid ?_
    intro c mem
    obtain ⟨old, stamp⟩ := ok.access_stamp hset mem
    by_cases found : s.found (t.cache.tag false a.toNat) = some c
    · rw [if_pos found] at stamp
      exact .inl ⟨found, stamp⟩
    · rw [if_neg found] at stamp
      exact .inr ⟨found, old, stamp⟩
  | insert a ld out =>
    simp only [Traced.step, Option.bind_eq_bind, Option.bind_eq_some_iff] at h
    obtain ⟨⟨c, e⟩, hins, h⟩ := h
    obtain rfl := Option.some.inj h
    obtain ⟨valid, _⟩ := sound.valid.insert fits a.toNat_lt hins
    simp only [FunctionalCache.insert, Option.bind_eq_bind, Option.bind_eq_some_iff] at hins
    obtain ⟨s, hs, ⟨s', e'⟩, hset, e⟩ := hins
    obtain ⟨rfl, _⟩ := Prod.mk.inj (Option.some.inj e)
    have ok := sound.valid.ok s (List.mem_of_getElem? hs)
    have here : t.setOf a = some s := hs
    rw [here, Option.bind_some]
    exact sound.used fits here valid fun c mem => ok.insert_stamp hset mem

/-- After every run from an empty cache the notes are right. -/
lemma Sound.run {uses : List Use} (sound : t.Sound g) (fits : g.Fits)
    (h : run Traced.step t uses = some t') : t'.Sound g :=
  run_inv sound (fun _ _ _ sound h => sound.step fits h) h

/-- What an insertion reports of the line that it evicts, in terms of the address of that line. -/
lemma Sound.reports {c : FunctionalCache} {out e : Evicted} {b : Nat} (sound : t.Sound g)
    (fits : g.Fits) (hins : t.cache.insert a.toNat ld out false = some (c, e))
    (evicts : t.evictedUse a = some b) :
    b < 2 ^ 64 ∧ e.evictedOffset = b % 2 ^ g.logLine ∧
      e.evictedTag = Int.bmod ((b / 2 ^ g.logLine / 2 ^ g.logSets : Nat) * g.setCount +
        (b / 2 ^ g.logLine % 2 ^ g.logSets : Nat)) (2 ^ 64) := by
  obtain ⟨_, _, rfl, _⟩ := sound.valid.insert fits a.toNat_lt hins
  simp only [evictedUse, Option.bind_eq_bind, Option.bind_eq_some_iff] at evicts
  obtain ⟨s, hs, _, full, v, hv, h⟩ := evicts
  obtain rfl := Option.some.inj h
  have hs' : t.cache.sets[t.cache.setid false a.toNat]? = some s := hs
  have ok := sound.valid.ok s (List.mem_of_getElem? hs')
  obtain ⟨w, hw, mem, victim⟩ := ok.next_full (by simpa using full)
  obtain rfl := Option.some.inj (hv.symm.trans hw)
  obtain ⟨lt, set, stamp⟩ := sound.uses _ s hs' v mem
  obtain ⟨addr, off⟩ := Prod.mk.inj stamp
  have count : t.cache.setCount = g.setCount := congrArg Geometry.setCount sound.valid.geometry
  have own : t.cache.victim false a.toNat = some (s.line v) := by
    rw [FunctionalCache.victim, hs', Option.bind_some, victim]
  rw [FunctionalCache.reported, own]
  refine ⟨lt, off, ?_⟩
  dsimp only
  rw [addr, set, count]

/-- An address below `2 ^ 64`, put together from its parts with another factor, is the same if and only if the
    factor is the right one or the tag is 0. -/
lemma joined_iff {b k l : Nat} {n : Int} (lt : b < 2 ^ 64) (two : 2 ≤ k) (le : (2 : Int) ^ l ≤ n)
    (less : n < 2 * 2 ^ l) :
    Int.bmod ((b / 2 ^ k / 2 ^ l : Nat) * n + (b / 2 ^ k % 2 ^ l : Nat)) (2 ^ 64) * 2 ^ k +
      (b % 2 ^ k : Nat) = b ↔ n = 2 ^ l ∨ b / 2 ^ k / 2 ^ l = 0 := by
  set page := b / 2 ^ k with hpage
  set tag := page / 2 ^ l with htag
  have high : 2 ^ 2 ≤ 2 ^ k := Nat.pow_le_pow_right (by decide) two
  have small : page < 2 ^ 62 := by
    have le : page ≤ b / 2 ^ 2 := Nat.div_le_div_left high (by decide)
    omega
  have parts : (tag : Int) * 2 ^ l + (page % 2 ^ l : Nat) = page := by
    exact_mod_cast Nat.div_add_mod' page (2 ^ l)
  have whole : (page : Int) * 2 ^ k + (b % 2 ^ k : Nat) = b := by
    exact_mod_cast Nat.div_add_mod' b (2 ^ k)
  have mul : (tag : Int) * n ≤ tag * (2 * 2 ^ l) :=
    Int.mul_le_mul_of_nonneg_left less.le (Int.natCast_nonneg tag)
  have nonneg : 0 ≤ (tag : Int) * n :=
    Int.mul_nonneg (Int.natCast_nonneg tag) (Int.le_trans (pow_nonneg (by decide) l) le)
  have twice : (tag : Int) * (2 * 2 ^ l) = 2 * (tag * 2 ^ l) := by ring
  have word : Int.bmod (tag * n + (page % 2 ^ l : Nat)) (2 ^ 64) = tag * n + (page % 2 ^ l : Nat) := by
    apply Int.bmod_eq_of_le_mul_two <;> omega
  rw [word]
  constructor
  · intro e
    rw [← whole] at e
    have e := add_right_cancel e
    have e := Int.eq_of_mul_eq_mul_right (pow_ne_zero k (by decide)) e
    rw [← parts] at e
    have e := add_right_cancel e
    rcases Nat.eq_zero_or_pos tag with zero | pos
    · exact .inr zero
    · exact .inl (Int.eq_of_mul_eq_mul_left (by omega) e)
  · rintro (rfl | zero)
    · rw [parts, whole]
    · rw [zero] at parts ⊢
      rw [Int.natCast_zero, Int.zero_mul] at parts ⊢
      rw [parts, whole]

end
end Traced

end PromotionCache.Tlb
