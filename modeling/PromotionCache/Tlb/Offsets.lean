import PromotionCache.Tlb.CacheSpec

/-!
# What the lines remember of an address

A line keeps the offset of the address of its latest use: the insertion, or the last lookup that hit.
`lastUse` reads that call off the history of a cache, and `Recorded` says that every resident page has
its offset in its line. All calls keep it.
-/

namespace PromotionCache.Tlb
open Lib

namespace CacheSet

/-- The offset in the line that a lookup of tag `t` finds. -/
def offsetOf (s : CacheSet) (t : Nat) : Option Nat :=
  (s.addrMap.get t none).map fun c => (s.line c).offset

section
variable {s s' : CacheSet} {ps : List Ptr} {t u o : Nat} {ld : Bool}

/-- The offset of a tag that is bound is that of its line. -/
lemma offsetOf_bound {c : Ptr} (h : s.addrMap.find t = some (some c)) :
    s.offsetOf t = some (s.line c).offset := by
  simp [offsetOf, UnorderedMap.get, h]

/-- Different tags are bound to different lines. -/
lemma Wf.ne_line {c d : Ptr} (wf : s.Wf ps) (hc : s.addrMap.find t = some (some c))
    (hd : s.addrMap.find u = some (some d)) (ne : u ≠ t) : d ≠ c := by
  rintro rfl
  exact ne ((wf.bound hd).2.symm.trans (wf.bound hc).2)

/-- A hit writes the offset of the accessed line and of no other. -/
lemma hitLine_offset (c p : Ptr) :
    (s.hitLine ps c o ld p).offset = if p = c then o else (s.line p).offset := by
  have touched : ((s.touch c o ld).line p).offset = if p = c then o else (s.line p).offset := by
    rw [touch_line]
    split <;> rfl
  rw [← touched, hitLine_apply]
  split
  case isTrue =>
    unfold decayed
    split <;> rfl
  case isFalse => rfl

/-- An access writes the offset of its tag. -/
lemma Ok.access_offset {hit} (ok : s.Ok) (h : s.access t o ld = some (hit, s')) (b : s.Bound u) :
    s'.offsetOf u = if u = t then some o else s.offsetOf u := by
  obtain ⟨ps, wf⟩ := ok.wf
  obtain ⟨d, hd⟩ := b
  by_cases held : s.Bound t
  · obtain ⟨c, hc⟩ := held
    obtain ⟨l, hacc, _⟩ := wf.access_hit ok.pol hc o ld
    obtain ⟨_, rfl⟩ := Prod.mk.inj (Option.some.inj (h.symm.trans hacc))
    have hd' : (s.hit ps c o ld l).addrMap.find u = some (some d) := hd
    rw [offsetOf_bound hd', offsetOf_bound hd]
    show some (s.hitLine ps c o ld d).offset = _
    rw [hitLine_offset]
    by_cases e : u = t
    · subst e
      obtain rfl := Option.some.inj (Option.some.inj (hc.symm.trans hd))
      rw [if_pos rfl, if_pos rfl]
    · rw [if_neg e, if_neg (wf.ne_line hc hd e)]
  · rw [access_miss (not_bound.mp held)] at h
    obtain ⟨_, rfl⟩ := Prod.mk.inj (Option.some.inj h)
    have ne : u ≠ t := by
      rintro rfl
      exact held ⟨d, hd⟩
    rw [if_neg ne, offsetOf_bound hd, offsetOf_bound ((missed_find t u d).mpr hd)]
    rfl

/-- The line that is filled gets its offset, the others keep theirs. -/
lemma stored_offset {s₀ : CacheSet} {c d : Ptr} {l : Links Ptr} {qs : List Ptr}
    (wf : (s.stored c t o ld l).Wf qs) (line : s.line = s₀.line)
    (kept : ∀ e, s.addrMap.find u = some (some e) → s₀.addrMap.find u = some (some e))
    (hd : (s.stored c t o ld l).addrMap.find u = some (some d)) :
    (s.stored c t o ld l).offsetOf u = if u = t then some o else s₀.offsetOf u := by
  rw [offsetOf_bound hd]
  show some (s.filled c t o ld d).offset = _
  have new : (s.stored c t o ld l).addrMap.find t = some (some c) := by simp [stored]
  by_cases e : u = t
  · subst e
    obtain rfl := Option.some.inj (Option.some.inj (new.symm.trans hd))
    rw [if_pos rfl, filled, Function.update_self]
  · have old : s.addrMap.find u = some (some d) := by
      have hd' := hd
      simpa [stored, e] using hd'
    rw [if_neg e, filled, Function.update_of_ne (wf.ne_line new hd e), line,
      offsetOf_bound (kept d old)]

/-- So does an insertion. -/
lemma Ok.insert_offset {out e} (ok : s.Ok) (h : s.insert t o ld out = some (s', e))
    (b : s'.Bound u) : s'.offsetOf u = if u = t then some o else s.offsetOf u := by
  obtain ⟨ps, wf⟩ := ok.wf
  obtain ⟨d, hd⟩ := b
  cases hfree : s.freeEntries with
  | nil =>
    obtain ⟨qs, v, rfl⟩ := wf.exists_last hfree ok.pos
    obtain ⟨m, _, l, hins, wf'⟩ := wf.insert_full ok.pol hfree t o ld out
    obtain ⟨rfl, _⟩ := Prod.mk.inj (Option.some.inj (h.symm.trans hins))
    exact stored_offset wf' rfl (fun e he => (unseated_find.mp he).1) hd
  | cons c free =>
    obtain ⟨_, l, hins, wf'⟩ := wf.insert_free ok.pol hfree t o ld out
    obtain ⟨rfl, _⟩ := Prod.mk.inj (Option.some.inj (h.symm.trans hins))
    exact stored_offset wf' rfl (fun e he => (missed_find t u e).mp he) hd

/-- An eviction writes no offset. -/
lemma Ok.evict_offset {d} (ok : s.Ok) (h : s.evict t = some (s', d)) (b : s'.Bound u) :
    s'.offsetOf u = s.offsetOf u := by
  obtain ⟨ps, wf⟩ := ok.wf
  obtain ⟨c, hc⟩ := (ok.evict h).2.1
  obtain ⟨l, hev, _⟩ := wf.evict_bound hc
  obtain ⟨rfl, _⟩ := Prod.mk.inj (Option.some.inj (h.symm.trans hev))
  obtain ⟨d, hd⟩ := b
  have old : s.addrMap.find u = some (some d) := by
    have hd' := hd
    rw [evicted, UnorderedMap.find_erase] at hd'
    split at hd'
    · cases hd'
    · exact hd'
  rw [offsetOf_bound hd, offsetOf_bound old]
  rfl

/-- The line that the next insertion evicts is the one that a lookup of its tag finds. -/
lemma Ok.victim_offset {v : CacheLine} (ok : s.Ok) (un : s.Unambiguous) (h : s.victim = some v) :
    s.Bound v.addr ∧ s.offsetOf v.addr = some v.offset := by
  obtain ⟨ps, wf⟩ := ok.wf
  have ex := wf.exact_iff.mp un
  unfold victim at h
  split at h
  case isTrue =>
    rw [wf.contents_eq, List.getLast?_map] at h
    obtain ⟨p, hp, rfl⟩ := Option.map_eq_some_iff.mp h
    have found := ex.complete (List.mem_of_getLast? hp)
    exact ⟨⟨p, found⟩, offsetOf_bound found⟩
  case isFalse => cases h

end
end CacheSet

/-- The latest insertion or lookup under page number `n`: its address and page size. -/
def lastUse (logLine : Nat) (n : Nat) : List Event → Option (Nat × Bool)
  | [] => none
  | .accessed a is2M _ :: h =>
    if pageNumber logLine is2M a = n then some (a, is2M) else lastUse logLine n h
  | .inserted a is2M _ :: h =>
    if pageNumber logLine is2M a = n then some (a, is2M) else lastUse logLine n h
  | .evicted _ _ :: h => lastUse logLine n h

namespace FunctionalCache

/-- The offset in the line that a lookup of page number `n` finds. -/
def offsetAt (c : FunctionalCache) (n : Nat) : Option Nat :=
  (c.sets[n % 2 ^ c.logSetCount]?).bind fun s => s.offsetOf (n / 2 ^ c.logSetCount)

/-- The line of a resident page holds the offset of its latest use. -/
def Recorded (logLine : Nat) (c : FunctionalCache) : Prop :=
  ∀ n, c.Resident n → ∃ a is2M, lastUse logLine n c.history = some (a, is2M) ∧
    c.offsetAt n = some (a % 2 ^ (if is2M then 21 else logLine))

section
variable {c c' : FunctionalCache} {g : Geometry} {a n : Nat} {ld is2M : Bool}

/-- The offset is the address within its page. -/
lemma Valid.offset (v : c.Valid g) (fits : g.Fits) (a : Nat) (is2M : Bool) :
    c.offset is2M a = a % 2 ^ (if is2M then 21 else g.logLine) := by
  have line := fits.line
  have huge := fits.huge
  have e : hugePageSize.log2 = 21 := by decide
  have fits' : 0 + (if is2M then 21 else g.logLine) < 64 := by split <;> omega
  have bits : extractWith 1 ((if is2M then 21 else g.logLine) + (0 : Nat) - 1) 0 a =
      a / 2 ^ 0 % 2 ^ (if is2M then 21 else g.logLine) := extract_bits fits'
  rw [Nat.pow_zero, Nat.div_one] at bits
  rw [← bits, FunctionalCache.offset, extract, FunctionalCache.logPofs, e, v.logLine]
  cases is2M <;> simp

/-- The offsets after one set has changed. -/
lemma offsetAt_set {i : Nat} {s' : CacheSet} {h : List Event} (lt : i < c.sets.length) (n : Nat) :
    ({ c with sets := c.sets.set i s', history := h } : FunctionalCache).offsetAt n =
      if n % 2 ^ c.logSetCount = i then s'.offsetOf (n / 2 ^ c.logSetCount) else c.offsetAt n := by
  unfold offsetAt
  simp only [List.getElem?_set]
  by_cases e : i = n % 2 ^ c.logSetCount
  · rw [if_pos e, if_pos e.symm, if_pos lt]
    rfl
  · rw [if_neg e, if_neg (Ne.symm e)]

/-- A page of another set, or under another tag, is not the one of the address. -/
lemma Valid.page_ne (v : c.Valid g) (fits : g.Fits) (ha : a < 2 ^ 64)
    (ne : ¬ (n % 2 ^ c.logSetCount = c.setid is2M a ∧ n / 2 ^ c.logSetCount = c.tag is2M a)) :
    pageNumber g.logLine is2M a ≠ n := by
  rintro rfl
  exact ne ((v.page_iff fits ha is2M _).mp rfl)

/-- What a call does to the offsets, given what it does to those of its set: under the page number of
    the address stands its own offset, under the others what was there. -/
lemma Valid.offsetAt_call {i : Nat} {s s' : CacheSet} {h : List Event} (v : c.Valid g) (fits : g.Fits)
    (ha : a < 2 ^ 64) (hi : c.sets[i]? = some s) (set : i = c.setid is2M a)
    (own : ∀ u, s'.Bound u →
      s'.offsetOf u = if u = c.tag is2M a then some (c.offset is2M a) else s.offsetOf u)
    (hn : ({ c with sets := c.sets.set i s', history := h } : FunctionalCache).Resident n) :
    ({ c with sets := c.sets.set i s', history := h } : FunctionalCache).offsetAt n =
      if pageNumber g.logLine is2M a = n then some (a % 2 ^ (if is2M then 21 else g.logLine))
      else c.offsetAt n := by
  have lt : i < c.sets.length := (List.getElem?_eq_some_iff.mp hi).1
  rw [resident_set hi] at hn
  rw [offsetAt_set lt]
  split
  case isTrue here =>
    rw [if_pos here] at hn
    rw [own _ hn]
    by_cases tag : n / 2 ^ c.logSetCount = c.tag is2M a
    · have page : n = pageNumber g.logLine is2M a :=
        (v.page_iff fits ha is2M n).mpr ⟨here.trans set, tag⟩
      rw [if_pos tag, if_pos page.symm, v.offset fits]
    · have page : pageNumber g.logLine is2M a ≠ n := v.page_ne fits ha fun both => tag both.2
      rw [if_neg tag, if_neg page, offsetAt, here, hi]
      rfl
  case isFalse other =>
    have page : pageNumber g.logLine is2M a ≠ n :=
      v.page_ne fits ha fun both => other (both.1.trans set.symm)
    rw [if_neg page]

/-- An access keeps the offsets those of the last uses. -/
lemma Recorded.access {hit} (recorded : c.Recorded g.logLine) (v : c.Valid g) (fits : g.Fits)
    (ha : a < 2 ^ 64) (h : c.access a ld is2M = some (hit, c')) : c'.Recorded g.logLine := by
  obtain ⟨_, _, _, same, _⟩ := v.access fits ha h
  intro n hn
  obtain ⟨b, size, use, off⟩ := recorded n ((same n).mp hn)
  simp only [FunctionalCache.access, Option.bind_eq_bind, Option.bind_eq_some_iff] at h
  obtain ⟨s, hi, ⟨res, s'⟩, hacc, e⟩ := h
  obtain ⟨rfl, rfl⟩ := Prod.mk.inj (Option.some.inj e)
  have ok := v.ok s (List.mem_of_getElem? hi)
  have own : ∀ u, s'.Bound u →
      s'.offsetOf u = if u = c.tag is2M a then some (c.offset is2M a) else s.offsetOf u := by
    intro u b
    exact ok.access_offset hacc (((ok.access hacc).2.2.1 u).mp b)
  rw [v.offsetAt_call fits ha hi rfl own hn, lastUse]
  split
  case isTrue => exact ⟨a, is2M, rfl, rfl⟩
  case isFalse => exact ⟨b, size, use, off⟩

/-- So does an insertion. -/
lemma Recorded.insert {out out'} (recorded : c.Recorded g.logLine) (v : c.Valid g) (fits : g.Fits)
    (ha : a < 2 ^ 64) (h : c.insert a ld out is2M = some (c', out')) : c'.Recorded g.logLine := by
  obtain ⟨_, _, _, res, _⟩ := v.insert fits ha h
  intro n hn
  have old := (res n).mp hn
  simp only [FunctionalCache.insert, Option.bind_eq_bind, Option.bind_eq_some_iff] at h
  obtain ⟨s, hi, ⟨s', e⟩, hins, h⟩ := h
  obtain ⟨rfl, _⟩ := Prod.mk.inj (Option.some.inj h)
  have ok := v.ok s (List.mem_of_getElem? hi)
  rw [v.offsetAt_call fits ha hi rfl (fun u b => ok.insert_offset hins b) hn, lastUse]
  split
  case isTrue => exact ⟨a, is2M, rfl, rfl⟩
  case isFalse ne =>
    obtain ⟨hold, _⟩ := old.resolve_left (Ne.symm ne)
    exact recorded n hold

/-- So does an eviction. -/
lemma Recorded.evict {d} (recorded : c.Recorded g.logLine) (v : c.Valid g) (fits : g.Fits)
    (ha : a < 2 ^ 64) (h : c.evict a is2M = some (c', d)) : c'.Recorded g.logLine := by
  obtain ⟨_, _, _, res, _⟩ := v.evict fits ha h
  intro n hn
  obtain ⟨ne, held⟩ := (res n).mp hn
  obtain ⟨b, size, use, off⟩ := recorded n held
  simp only [FunctionalCache.evict, Option.bind_eq_bind, Option.bind_eq_some_iff] at h
  obtain ⟨s, hi, ⟨s', d'⟩, hev, e⟩ := h
  obtain ⟨rfl, rfl⟩ := Prod.mk.inj (Option.some.inj e)
  have ok := v.ok s (List.mem_of_getElem? hi)
  have lt : c.setid is2M a < c.sets.length := (List.getElem?_eq_some_iff.mp hi).1
  refine ⟨b, size, use, ?_⟩
  rw [offsetAt_set lt, ← off]
  split
  case isTrue here =>
    rw [resident_set hi, if_pos here] at hn
    rw [ok.evict_offset hev hn, offsetAt, here, hi]
    rfl
  case isFalse => rfl

end
end FunctionalCache

end PromotionCache.Tlb
