import PromotionCache.Tlb.Cache
import PromotionCache.Tlb.Exact

/-!
# What the operations of a cache do

A set and a tag are the low and the high part of a page number, so a cache is a set of page numbers
(`Resident`), with an owner for each: the call that inserted it. An address has one page number as
a 4KB page and another one as a 2MB page, and nothing in a cache tells which of them a line was
inserted for; only the history does (`owner`).

`Valid g c` is the invariant of a cache with geometry `g`. Each operation has one lemma with what
follows when it succeeds.
-/

namespace PromotionCache.Tlb
open Lib

/-- Below the top, `extract` cuts `k` bits out from bit `m` on. -/
lemma extract_bits {wide m k a : Nat} (fits : m + k < 64) :
    extractWith wide (k + m - 1) m a = a / 2 ^ m % 2 ^ k := by
  have hm : 2 ^ m ≤ 2 ^ (m + k) := Nat.pow_le_pow_right (by decide) (Nat.le_add_right m k)
  have hk : 2 ^ (m + k) < 2 ^ 64 := Nat.pow_lt_pow_right (by decide) fits
  have hpos : 0 < 2 ^ m := Nat.two_pow_pos m
  have emax : (shiftedOne wide ((k : Int) + m - 1 + 1) + (2 ^ 64 - 1)) % 2 ^ 64 = 2 ^ (m + k) - 1 := by
    have e : (k : Int) + m - 1 + 1 = ((m + k : Nat) : Int) := by omega
    rw [shiftedOne, e, if_pos (by omega), Int.toNat_natCast]
    omega
  have emin : (shiftedOne wide (m : Int) + (2 ^ 64 - 1)) % 2 ^ 64 = 2 ^ m - 1 := by
    rw [shiftedOne, if_pos (by omega), Int.toNat_natCast]
    omega
  have emask : (2 ^ (m + k) - 1 + (2 ^ 64 - (2 ^ m - 1))) % 2 ^ 64 = 2 ^ (m + k) - 2 ^ m := by omega
  have ehigh : (2 ^ (m + k) - 2 ^ m) >>> m = 2 ^ k - 1 := by
    rw [Nat.shiftRight_eq_div_pow, Nat.pow_add, ← Nat.mul_sub_one, Nat.mul_div_cancel_left _ hpos]
  simp only [extractWith, emax, emin, emask, Int.toNat_natCast]
  rw [Nat.shiftRight_and_distrib, ehigh, Nat.and_two_pow_sub_one_eq_mod, Nat.shiftRight_eq_div_pow]

/-- Up to the top, the shift out of range does no harm, whether it gives 0 or 1. -/
lemma extract_top (wide : Nat) {m a : Nat} (pos : 0 < m) (lt : m < 64) (ho : wide ≤ 1) (ha : a < 2 ^ 64) :
    extractWith wide 63 m a = a / 2 ^ m := by
  have hm : 2 ^ 1 ≤ 2 ^ m := Nat.pow_le_pow_right (by decide) pos
  have hpow : 2 ^ m * 2 ^ (64 - m) = 2 ^ 64 := by rw [← Nat.pow_add]; congr 1; omega
  have hpos : 0 < 2 ^ (64 - m) := Nat.two_pow_pos _
  have emin : (shiftedOne wide (m : Int) + (2 ^ 64 - 1)) % 2 ^ 64 = 2 ^ m - 1 := by
    have : 2 ^ m < 2 ^ 64 := Nat.pow_lt_pow_right (by decide) lt
    rw [shiftedOne, if_pos (by omega), Int.toNat_natCast]
    omega
  have emax : shiftedOne wide ((63 : Int) + 1) = wide := by simp [shiftedOne]
  -- the mask is `2 ^ 64 - 2 ^ m`, perhaps with bit 0 set, which the shift drops
  have ehigh : (((wide + (2 ^ 64 - 1)) % 2 ^ 64 + (2 ^ 64 - (2 ^ m - 1))) % 2 ^ 64) >>> m =
      2 ^ (64 - m) - 1 := by
    have e : ((wide + (2 ^ 64 - 1)) % 2 ^ 64 + (2 ^ 64 - (2 ^ m - 1))) % 2 ^ 64 =
        2 ^ m * (2 ^ (64 - m) - 1) + wide := by
      rw [Nat.mul_sub_one, hpow]
      omega
    rw [e, Nat.shiftRight_eq_div_pow, Nat.mul_add_div (by omega), Nat.div_eq_of_lt (by omega),
      Nat.add_zero]
  simp only [extractWith, emax, emin, Int.toNat_natCast]
  rw [Nat.shiftRight_and_distrib, ehigh, Nat.and_two_pow_sub_one_eq_mod, Nat.shiftRight_eq_div_pow]
  apply Nat.mod_eq_of_lt
  apply Nat.div_lt_of_lt_mul
  rw [hpow]
  exact ha
/-- The tag is what is left of the page number above the `k` bits of the set. -/
lemma extract_tag {wide k m a : Nat} (pos : 0 < m) (fits : k + m < 64) (ho : wide ≤ 1) (ha : a < 2 ^ 64) :
    extractWith wide 63 (k + m) a = a / 2 ^ m / 2 ^ k := by
  have top := extract_top wide (m := k + m) (by omega) fits ho ha
  rw [Int.natCast_add] at top
  rw [top, Nat.div_div_eq_div_mul, ← Nat.pow_add, Nat.add_comm]

namespace CacheSet

/-- No tag is twice in the list, and every line of the list is the one the map returns for its
    tag. -/
def Unambiguous (s : CacheSet) : Prop :=
  s.tags.Nodup ∧ ∀ c ∈ s.recency.getD [], s.addrMap.find (s.line c).addr = some (some c)

/-- A word below the sign bit. -/
lemma int64_of_lt {n : Nat} (h : n < 2 ^ 63) : int64 n = n := by
  apply Int.bmod_eq_of_le_mul_two
  · omega
  · have : (n : Int) * 2 < (2 ^ 63 : Nat) * 2 := by omega
    exact this

/-- What every set of a cache keeps. -/
structure Ok (s : CacheSet) : Prop where
  wf : ∃ ps, s.Wf ps
  pol : s.policy = 0 ∨ s.policy = 2
  pos : 1 ≤ s.associativity
  tags : ∀ t ∈ s.tags, t < 2 ^ 63

section
variable {s s' : CacheSet} {ps : List Ptr} {t o : Nat} {ld : Bool}

/-- A well-formed set holds no tag twice if and only if map and list agree. -/
lemma Wf.exact_iff (wf : s.Wf ps) : s.Unambiguous ↔ s.Exact ps := by
  constructor
  · rintro ⟨_, complete⟩
    refine ⟨wf, ?_⟩
    rw [wf.recency] at complete
    intro c hc
    exact complete c hc
  · intro ex
    refine ⟨ex.tags_nodup, ?_⟩
    rw [wf.recency]
    intro c hc
    exact ex.complete hc

/-- In an unambiguous set a tag is found if and only if a line has it. -/
lemma Unambiguous.bound_iff (un : s.Unambiguous) (ok : s.Ok) : s.Bound t ↔ t ∈ s.tags := by
  obtain ⟨ps, wf⟩ := ok.wf
  exact (wf.exact_iff.mp un).bound_iff

/-- A new set is in order. -/
lemma ok_new {n lineSize policy : Nat} (pos : 1 ≤ n) (pol : policy = 0 ∨ policy = 2) :
    (new n lineSize policy).Ok where
  wf := ⟨[], wf_new n lineSize policy⟩
  pol := pol
  pos := pos
  tags := by simp [(wf_new n lineSize policy).tags_eq]

/-- A new set is unambiguous. -/
lemma unambiguous_new (n lineSize policy : Nat) : (new n lineSize policy).Unambiguous := by
  refine (wf_new n lineSize policy).exact_iff.mpr ⟨wf_new n lineSize policy, ?_⟩
  intro c hc
  cases hc

/-- A new set holds nothing. -/
lemma not_bound_new (n lineSize policy : Nat) : ¬ (new n lineSize policy).Bound t := by
  rintro ⟨c, h⟩
  simp [new] at h

/-- An access finds a tag that is there, and changes no tag. -/
lemma Ok.access {res} (ok : s.Ok) (h : s.access t o ld = some (res, s')) :
    s'.Ok ∧ (res = true ↔ s.Bound t) ∧ (∀ u, s'.Bound u ↔ s.Bound u) ∧
      s'.tags.Perm s.tags ∧ (s.Unambiguous → s'.Unambiguous) := by
  obtain ⟨ps, wf⟩ := ok.wf
  obtain ⟨s'', hacc, hassoc, hpol, hb, qs, wf', perm, ex⟩ := wf.access_bound ok.pol t o ld
  cases h.symm.trans hacc
  refine ⟨⟨⟨qs, wf'⟩, hpol ▸ ok.pol, hassoc ▸ ok.pos, ?_⟩, by simp, hb, perm, ?_⟩
  · intro u hu
    exact ok.tags u (perm.mem_iff.mp hu)
  · intro un
    exact wf'.exact_iff.mpr (ex (wf.exact_iff.mp un))

/-- A lookup that misses changes nothing but the bindings to null. -/
lemma Ok.access_false (ok : s.Ok) (h : s.access t o ld = some (false, s')) : s' = s.missed t := by
  have nb : ¬ s.Bound t := by
    rw [← (ok.access h).2.1]
    exact Bool.false_ne_true
  rw [access_miss (not_bound.mp nb)] at h
  exact (congrArg Prod.snd (Option.some.inj h)).symm

/-- The victim is one of the lines. -/
lemma victim_mem {v} (h : s.victim = some v) : v.addr ∈ s.tags := by
  unfold victim at h
  split at h
  · exact List.mem_map_of_mem (List.mem_of_getLast? h)
  · cases h

/-- An insertion brings in the tag, in the place of the victim if there is one. -/
lemma Ok.insert {out e} (ok : s.Ok) (ht : t < 2 ^ 63) (h : s.insert t o ld out = some (s', e)) :
    s'.Ok ∧ e = s.report out ∧
      (∀ u, s'.Bound u ↔ u = t ∨ (s.Bound u ∧ ∀ v, s.victim = some v → u ≠ v.addr)) ∧
      s'.tags.Perm (t :: s.kept) ∧ (s.Unambiguous → ¬ s.Bound t → s'.Unambiguous) := by
  obtain ⟨ps, wf⟩ := ok.wf
  obtain ⟨s'', hins, hassoc, hpol, hb, qs, wf', perm, ex⟩ :=
    wf.insert_bound ok.pol ok.pos t o ld out
  cases h.symm.trans hins
  refine ⟨⟨⟨qs, wf'⟩, hpol ▸ ok.pol, hassoc ▸ ok.pos, ?_⟩, rfl, hb, perm, ?_⟩
  · intro u hu
    rcases List.mem_cons.mp (perm.mem_iff.mp hu) with rfl | hu
    · exact ht
    · unfold kept at hu
      split at hu
      · exact ok.tags u ((List.dropLast_sublist _).subset hu)
      · exact ok.tags u hu
  · intro un nb
    exact wf'.exact_iff.mpr (ex (wf.exact_iff.mp un) nb)

/-- What the out-parameters held before an insertion does not matter to the set. -/
lemma insert_out {out e} (h : s.insert t o ld out = some (s', e)) (out' : Evicted) :
    ∃ e', s.insert t o ld out' = some (s', e') := by
  simp only [CacheSet.insert, Option.bind_eq_bind, Option.bind_eq_some_iff] at h
  obtain ⟨⟨c, s₁, e₁⟩, htake, s₂, hfill, h⟩ := h
  obtain ⟨rfl, rfl⟩ := Prod.mk.inj (Option.some.inj h)
  have take : ∃ e', (s.lookup t).2.takeLine out' = some (c, s₁, e') := by
    unfold takeLine at htake ⊢
    cases free : (s.lookup t).2.freeEntries with
    | nil =>
      rw [free] at htake
      exact ⟨e₁, htake⟩
    | cons d ds =>
      simp only [free, Option.some.injEq, Prod.mk.injEq] at htake
      obtain ⟨rfl, rfl, _⟩ := htake
      exact ⟨out', rfl⟩
  obtain ⟨e', htake'⟩ := take
  refine ⟨e', ?_⟩
  simp only [CacheSet.insert, htake', hfill, Option.bind_eq_bind, Option.bind_some]

/-- A set with fewer tags than lines has a free one. -/
lemma Ok.exists_free (ok : s.Ok) (room : s.tags.length < s.associativity) : s.freeEntries ≠ [] := by
  obtain ⟨ps, wf⟩ := ok.wf
  have len := wf.length
  have tags : s.tags.length = ps.length := by rw [wf.tags_eq, List.length_map]
  intro e
  rw [e, List.length_nil] at len
  omega

/-- With a free line, an insertion adds its tag to the others. -/
lemma Ok.insert_room {out e} (ok : s.Ok) (room : s.tags.length < s.associativity)
    (h : s.insert t o ld out = some (s', e)) :
    s'.associativity = s.associativity ∧ s'.tags.Perm (t :: s.tags) := by
  obtain ⟨ps, wf⟩ := ok.wf
  obtain ⟨s'', hins, hassoc, _, _, _, _, perm, _⟩ := wf.insert_bound ok.pol ok.pos t o ld out
  cases h.symm.trans hins
  rw [kept, if_neg (ok.exists_free room)] at perm
  exact ⟨hassoc, perm⟩

/-- An eviction takes out the tag, and no other. -/
lemma Ok.evict {d} (ok : s.Ok) (h : s.evict t = some (s', d)) :
    s'.Ok ∧ s.Bound t ∧ (∀ u, s'.Bound u ↔ u ≠ t ∧ s.Bound u) ∧ s.tags.Perm (t :: s'.tags) ∧
      (s.Unambiguous → s'.Unambiguous) := by
  obtain ⟨ps, wf⟩ := ok.wf
  have b : s.Bound t := by
    by_contra nb
    rw [evict_unbound (not_bound.mp nb)] at h
    cases h
  obtain ⟨s'', d', hev, hassoc, hpol, hb, qs, wf', perm, ex⟩ := wf.evict_spec b
  cases h.symm.trans hev
  refine ⟨⟨⟨qs, wf'⟩, hpol ▸ ok.pol, hassoc ▸ ok.pos, ?_⟩, b, hb, perm, ?_⟩
  · intro u hu
    exact ok.tags u (perm.mem_iff.mpr (List.mem_cons_of_mem _ hu))
  · intro un
    exact wf'.exact_iff.mpr (ex (wf.exact_iff.mp un))

/-- An access does not fail. -/
lemma Ok.access_some (ok : s.Ok) (t o : Nat) (ld : Bool) : ∃ r, s.access t o ld = some r := by
  obtain ⟨ps, wf⟩ := ok.wf
  obtain ⟨s', hacc, _⟩ := wf.access_bound ok.pol t o ld
  exact ⟨_, hacc⟩

/-- An insertion does not fail. -/
lemma Ok.insert_some (ok : s.Ok) (t o : Nat) (ld : Bool) (out : Evicted) :
    ∃ r, s.insert t o ld out = some r := by
  obtain ⟨ps, wf⟩ := ok.wf
  obtain ⟨s', hins, _⟩ := wf.insert_bound ok.pol ok.pos t o ld out
  exact ⟨_, hins⟩

/-- An eviction of a tag that is there does not fail. -/
lemma Ok.evict_some (ok : s.Ok) (b : s.Bound t) : ∃ r, s.evict t = some r := by
  obtain ⟨ps, wf⟩ := ok.wf
  obtain ⟨s', d, hev, _⟩ := wf.evict_spec b
  exact ⟨_, hev⟩

/-- The tags of all sets. -/
lemma mapM_getSet {ss : List CacheSet} (ok : ∀ s ∈ ss, s.Ok) :
    ss.mapM getSet = some (ss.map tags) := by
  induction ss with
  | nil => rfl
  | cons s ss ih =>
    obtain ⟨hs, hss⟩ := List.forall_mem_cons.mp ok
    obtain ⟨ps, wf⟩ := hs.wf
    have hset : s.getSet = some s.tags := by rw [wf.getSet, wf.tags_eq]
    simp only [List.mapM_cons, hset, ih hss, Option.bind_eq_bind, Option.bind_some,
      Option.pure_def, List.map_cons]

/-- An eviction leaves the frequencies of the other tags alone. -/
lemma Ok.evict_getFreq {d u} (ok : s.Ok) (h : s.evict t = some (s', d)) (ne : u ≠ t) :
    s'.getFreq u = s.getFreq u := by
  obtain ⟨ps, wf⟩ := ok.wf
  obtain ⟨c, hc⟩ := (ok.evict h).2.1
  obtain ⟨l, hev, _⟩ := wf.evict_bound hc
  cases h.symm.trans hev
  have same : (s.addrMap.erase t).find u = s.addrMap.find u := by
    rw [UnorderedMap.find_erase, if_neg ne]
  simp only [CacheSet.getFreq, CacheSet.evicted, same]

/-- With a free line, nothing is reported. -/
lemma report_free {out} (h : s.victim = none) : s.report out = out := by simp [report, h]

/-- Without one, the victim is reported. -/
lemma Ok.report_full {out v} (ok : s.Ok) (h : s.victim = some v) :
    s.report out = ⟨v.dirty, v.addr, v.offset⟩ := by
  simp only [report, h, int64_of_lt (ok.tags _ (victim_mem h))]

end
end CacheSet

/-- What stays of a cache whatever is called. -/
structure Geometry where
  logSets : Nat
  logLine : Nat
  sets : Nat
  setCount : Int
  deriving DecidableEq

/-- Sets and tags lie within the 64 bits of an address, for both page sizes. -/
structure Geometry.Fits (g : Geometry) : Prop where
  pos : 0 < g.logLine
  line : g.logSets + g.logLine < 64
  huge : g.logSets + 21 < 64

/-- The number of the page of an address. -/
def pageNumber (logLine : Nat) (is2M : Bool) (address : Nat) : Nat :=
  address / 2 ^ (if is2M then 21 else logLine)

/-- The insertion that page number `n` is resident by: its address and page size. -/
def owner (logLine : Nat) (n : Nat) : List Event → Option (Nat × Bool)
  | [] => none
  | .accessed _ _ _ :: h => owner logLine n h
  | .inserted a is2M victim :: h =>
    if pageNumber logLine is2M a = n then some (a, is2M)
    else if victim = some n then none
    else owner logLine n h
  | .evicted a is2M :: h => if pageNumber logLine is2M a = n then none else owner logLine n h

namespace FunctionalCache

/-- What determines how an address is cut. -/
def geometry (c : FunctionalCache) : Geometry :=
  ⟨c.logSetCount, c.logLineSize, c.sets.length, c.setCount⟩

/-- A lookup of page number `n` hits. -/
def Resident (c : FunctionalCache) (n : Nat) : Prop :=
  ∃ s, s ∈ c.sets[n % 2 ^ c.logSetCount]? ∧ s.Bound (n / 2 ^ c.logSetCount)

instance (c : FunctionalCache) (n : Nat) : Decidable (c.Resident n) :=
  inferInstanceAs (Decidable (∃ s, s ∈ c.sets[n % 2 ^ c.logSetCount]? ∧ _))

/-- No set of the cache is ambiguous. -/
def Unambiguous (c : FunctionalCache) : Prop := ∀ s ∈ c.sets, s.Unambiguous

/-- The line that an insertion at `address` evicts. -/
def victim (c : FunctionalCache) (is2M : Bool) (address : Nat) : Option CacheLine :=
  (c.sets[c.setid is2M address]?).bind CacheSet.victim

/-- The number of the page whose entry an insertion at `address` evicts. -/
def victimPage (c : FunctionalCache) (is2M : Bool) (address : Nat) : Option Nat :=
  (c.victim is2M address).map fun l => l.addr * 2 ^ c.logSetCount + c.setid is2M address

/-- What an insertion at `address` leaves in its out-parameters. -/
def reported (c : FunctionalCache) (is2M : Bool) (address : Nat) (out : Evicted) : Evicted :=
  match c.victim is2M address with
  | none => ⟨false, out.evictedTag, out.evictedOffset⟩
  | some l => ⟨l.dirty, Int.bmod (l.addr * c.setCount + c.setid is2M address) (2 ^ 64), l.offset⟩

/-- The invariant of a cache with geometry `g`: its sets are as they should be, and residency and
    the results of the lookups are what the history says. -/
structure Valid (g : Geometry) (c : FunctionalCache) : Prop where
  geometry : c.geometry = g
  ok : ∀ s ∈ c.sets, s.Ok
  tracked : ∀ n, c.Resident n ↔ (owner g.logLine n c.history).isSome
  hits : ∀ later a is2M hit earlier, c.history = later ++ .accessed a is2M hit :: earlier →
    (hit = true ↔ (owner g.logLine (pageNumber g.logLine is2M a) earlier).isSome)

section
variable {g : Geometry} {c c' : FunctionalCache} {a : Nat} {ld is2M : Bool}

/-- The number of bits for the set. -/
lemma Valid.logSets (v : c.Valid g) : c.logSetCount = g.logSets := congrArg Geometry.logSets v.geometry

/-- The number of bits for the offset. -/
lemma Valid.logLine (v : c.Valid g) : c.logLineSize = g.logLine := congrArg Geometry.logLine v.geometry

/-- Set and tag make up the page number. -/
lemma Valid.setid (v : c.Valid g) (fits : g.Fits) (a : Nat) (is2M : Bool) :
    c.setid is2M a = pageNumber g.logLine is2M a % 2 ^ g.logSets := by
  have h := fits.line
  have h' := fits.huge
  have e : hugePageSize.log2 = 21 := by decide
  unfold FunctionalCache.setid extract logPofs pageNumber
  rw [v.logSets, v.logLine, e]
  cases is2M
  · exact extract_bits (by simp; omega)
  · exact extract_bits (by simp; omega)

/-- The tag is the page number without the bits for the set. -/
lemma Valid.tag (v : c.Valid g) (fits : g.Fits) (ha : a < 2 ^ 64) (is2M : Bool) :
    c.tag is2M a = pageNumber g.logLine is2M a / 2 ^ g.logSets := by
  have e : hugePageSize.log2 = 21 := by decide
  unfold FunctionalCache.tag extract logPofs pageNumber
  rw [v.logSets, v.logLine, e]
  cases is2M
  · exact extract_tag fits.pos fits.line (by decide) ha
  · exact extract_tag (m := 21) (by decide) fits.huge (by decide) ha

/-- The tag fits into a signed word. -/
lemma Valid.tag_lt (v : c.Valid g) (fits : g.Fits) (ha : a < 2 ^ 64) (is2M : Bool) :
    c.tag is2M a < 2 ^ 63 := by
  have pos := fits.pos
  have two : 2 ^ 1 ≤ 2 ^ (if is2M then 21 else g.logLine) := by
    apply Nat.pow_le_pow_right (by decide)
    split <;> omega
  rw [v.tag fits ha]
  apply Nat.lt_of_le_of_lt (Nat.div_le_self _ _)
  unfold pageNumber
  apply Nat.lt_of_le_of_lt (Nat.div_le_div_left two (by decide))
  omega

/-- Residency after one set was replaced. -/
lemma resident_set {i : Nat} {s s' : CacheSet} {h : List Event} (hi : c.sets[i]? = some s) (n : Nat) :
    ({ c with sets := c.sets.set i s', history := h } : FunctionalCache).Resident n ↔
      if n % 2 ^ c.logSetCount = i then s'.Bound (n / 2 ^ c.logSetCount) else c.Resident n := by
  have lt : i < c.sets.length := (List.getElem?_eq_some_iff.mp hi).1
  unfold Resident
  simp only [List.getElem?_set]
  by_cases e : n % 2 ^ c.logSetCount = i
  · simp [e, lt]
  · simp [e, Ne.symm e]

/-- A page is in the set that its number names, or nowhere. -/
lemma resident_of_set {i n : Nat} {s : CacheSet} (hi : c.sets[i]? = some s)
    (e : n % 2 ^ c.logSetCount = i) : c.Resident n ↔ s.Bound (n / 2 ^ c.logSetCount) := by
  unfold Resident
  rw [e, hi]
  simp

/-- A call that replaces one set keeps the invariant if it keeps residency and history in step. -/
lemma Valid.set {i : Nat} {s' : CacheSet} {ev : Event} (v : c.Valid g)
    (ok : s'.Ok)
    (hc : c' = { c with sets := c.sets.set i s', history := ev :: c.history })
    (tracked : ∀ n, c'.Resident n ↔ (owner g.logLine n (ev :: c.history)).isSome)
    (hit : ∀ a is2M hit, ev = .accessed a is2M hit →
      (hit = true ↔ c.Resident (pageNumber g.logLine is2M a))) : c'.Valid g := by
  subst hc
  constructor
  case geometry =>
    have e := v.geometry
    simp only [FunctionalCache.geometry, List.length_set] at e ⊢
    exact e
  case ok =>
    intro u hu
    rcases List.mem_or_eq_of_mem_set hu with hu | rfl
    · exact v.ok u hu
    · exact ok
  case tracked => exact tracked
  case hits =>
    intro later a is2M hit' earlier e
    cases later with
    | nil =>
      obtain ⟨rfl, rfl⟩ := List.cons.inj e
      rw [hit a is2M hit' rfl, v.tracked]
    | cons _ later =>
      obtain ⟨_, e⟩ := List.cons.inj e
      exact v.hits later a is2M hit' earlier e

/-- A cache stays unambiguous when the set that changes does. -/
lemma Unambiguous.set {i : Nat} {s' : CacheSet} {h : List Event} (un : c.Unambiguous)
    (un' : s'.Unambiguous) :
    ({ c with sets := c.sets.set i s', history := h } : FunctionalCache).Unambiguous := by
  intro u hu
  rcases List.mem_or_eq_of_mem_set hu with hu | rfl
  · exact un u hu
  · exact un'

/-- A lookup tells whether the page is resident and changes no residency. -/
lemma Valid.access {hit} (v : c.Valid g) (fits : g.Fits) (ha : a < 2 ^ 64)
    (h : c.access a ld is2M = some (hit, c')) :
    c'.Valid g ∧ c'.history = .accessed a is2M hit :: c.history ∧
      (hit = true ↔ c.Resident (pageNumber g.logLine is2M a)) ∧
      (∀ n, c'.Resident n ↔ c.Resident n) ∧ (c.Unambiguous → c'.Unambiguous) := by
  simp only [FunctionalCache.access, Option.bind_eq_bind, Option.bind_eq_some_iff] at h
  obtain ⟨s, hi, ⟨res, s'⟩, hacc, e⟩ := h
  obtain ⟨rfl, rfl⟩ := Prod.mk.inj (Option.some.inj e)
  obtain ⟨ok, hres, hb, _, un⟩ := (v.ok s (List.mem_of_getElem? hi)).access hacc
  have hpage : res = true ↔ c.Resident (pageNumber g.logLine is2M a) := by
    rw [hres, resident_of_set hi (by rw [v.setid fits, v.logSets]), v.tag fits ha, v.logSets]
  have hsame : ∀ n, ({ c with
      sets := c.sets.set (c.setid is2M a) s'
      history := .accessed a is2M res :: c.history } : FunctionalCache).Resident n ↔
        c.Resident n := by
    intro n
    rw [resident_set hi]
    split
    case isTrue e => rw [hb, resident_of_set hi e]
    case isFalse => rfl
  refine ⟨?_, rfl, hpage, hsame, ?_⟩
  · apply v.set ok rfl
    · intro n
      rw [hsame, v.tracked, owner]
    · intro a' is2M' hit' e
      cases e
      exact hpage
  · intro hun
    exact hun.set (un (hun s (List.mem_of_getElem? hi)))

/-- A lookup that misses does not change what an insertion evicts. -/
lemma Valid.access_false_victim (v : c.Valid g) (h : c.access a ld is2M = some (false, c'))
    (f : Bool) (b : Nat) : c'.victim f b = c.victim f b := by
  simp only [FunctionalCache.access, Option.bind_eq_bind, Option.bind_eq_some_iff] at h
  obtain ⟨s, hi, ⟨res, s'⟩, hacc, e⟩ := h
  obtain ⟨rfl, rfl⟩ := Prod.mk.inj (Option.some.inj e)
  obtain rfl := (v.ok s (List.mem_of_getElem? hi)).access_false hacc
  change ((c.sets.set (c.setid is2M a) (s.missed (c.tag is2M a)))[c.setid f b]?).bind
    CacheSet.victim = (c.sets[c.setid f b]?).bind CacheSet.victim
  rw [List.getElem?_set]
  split
  case isTrue e =>
    have lt : c.setid is2M a < c.sets.length := (List.getElem?_eq_some_iff.mp hi).1
    rw [← e, hi, if_pos lt]
    rfl
  case isFalse => rfl

/-- An access that misses changes no victim. -/
lemma Valid.access_false_victimPage (v : c.Valid g) (h : c.access a ld is2M = some (false, c'))
    (f : Bool) (b : Nat) : c'.victimPage f b = c.victimPage f b := by
  have e := v.access_false_victim h f b
  simp only [FunctionalCache.access, Option.bind_eq_bind, Option.bind_eq_some_iff] at h
  obtain ⟨s, _, ⟨res, s'⟩, _, h⟩ := h
  obtain ⟨rfl, rfl⟩ := Prod.mk.inj (Option.some.inj h)
  unfold victimPage
  rw [e]
  rfl

/-- The line of a resident page has a frequency. -/
lemma Valid.getFreq (v : c.Valid g) (fits : g.Fits) (ha : a < 2 ^ 64)
    (h : c.Resident (pageNumber g.logLine is2M a)) : ∃ f, c.getFreq a is2M = some f := by
  obtain ⟨s, hs, p, hp⟩ := h
  rw [v.logSets, ← v.setid fits] at hs
  rw [v.logSets, ← v.tag fits ha] at hp
  obtain ⟨ps, wf⟩ := (v.ok s (List.mem_of_getElem? hs)).wf
  refine ⟨(s.line p).freq, ?_⟩
  unfold FunctionalCache.getFreq
  rw [show c.sets[c.setid is2M a]? = some s from hs]
  exact wf.getFreq_bound hp

/-- A lookup that misses leaves the lists of the sets alone. -/
lemma Valid.access_false_sets (v : c.Valid g) (h : c.access a ld is2M = some (false, c')) :
    ∀ u ∈ c'.sets, ∃ s ∈ c.sets, u.tags = s.tags ∧ u.associativity = s.associativity := by
  simp only [FunctionalCache.access, Option.bind_eq_bind, Option.bind_eq_some_iff] at h
  obtain ⟨s, hi, ⟨res, s'⟩, hacc, e⟩ := h
  obtain ⟨rfl, rfl⟩ := Prod.mk.inj (Option.some.inj e)
  obtain rfl := (v.ok s (List.mem_of_getElem? hi)).access_false hacc
  intro u hu
  rcases List.mem_or_eq_of_mem_set hu with hu | rfl
  · exact ⟨u, hu, rfl, rfl⟩
  · exact ⟨s, List.mem_of_getElem? hi, rfl, rfl⟩

/-- An access that misses changes no report. -/
lemma Valid.access_false_reported (v : c.Valid g) (h : c.access a ld is2M = some (false, c'))
    (f : Bool) (b : Nat) (out : Evicted) : c'.reported f b out = c.reported f b out := by
  have e := v.access_false_victim h f b
  simp only [FunctionalCache.access, Option.bind_eq_bind, Option.bind_eq_some_iff] at h
  obtain ⟨s, _, ⟨res, s'⟩, _, h⟩ := h
  obtain ⟨rfl, rfl⟩ := Prod.mk.inj (Option.some.inj h)
  unfold reported
  rw [e]
  rfl

/-- A page number is known by its set and tag. -/
private lemma eq_page {n t i k : Nat} (hi : i < 2 ^ k) :
    n = t * 2 ^ k + i ↔ n % 2 ^ k = i ∧ n / 2 ^ k = t := by
  have e := Nat.div_add_mod' n (2 ^ k)
  constructor
  · rintro rfl
    refine ⟨Nat.mul_add_mod_of_lt hi, ?_⟩
    rw [Nat.mul_comm, Nat.mul_add_div (Nat.two_pow_pos k), Nat.div_eq_of_lt hi, Nat.add_zero]
  · rintro ⟨rfl, rfl⟩
    exact e.symm

/-- The set is one of those that the bits name. -/
lemma Valid.setid_lt (v : c.Valid g) (fits : g.Fits) (a : Nat) (is2M : Bool) :
    c.setid is2M a < 2 ^ c.logSetCount := by
  rw [v.setid fits, v.logSets]
  exact Nat.mod_lt _ (Nat.two_pow_pos _)

/-- Set and tag make up the page number. -/
lemma Valid.page_iff (v : c.Valid g) (fits : g.Fits) (ha : a < 2 ^ 64) (is2M : Bool) (n : Nat) :
    n = pageNumber g.logLine is2M a ↔
      n % 2 ^ c.logSetCount = c.setid is2M a ∧ n / 2 ^ c.logSetCount = c.tag is2M a := by
  rw [← eq_page (v.setid_lt fits a is2M), v.setid fits, v.tag fits ha, v.logSets, Nat.div_add_mod']

/-- What the code of an insertion makes of the report of the set. -/
private lemma Valid.insert_inv {out out'} (v : c.Valid g) (fits : g.Fits) (ha : a < 2 ^ 64)
    (h : c.insert a ld out is2M = some (c', out')) :
    ∃ s s', c.sets[c.setid is2M a]? = some s ∧
      s.insert (c.tag is2M a) (c.offset is2M a) ld ⟨false, -1, out.evictedOffset⟩ =
        some (s', s.report ⟨false, -1, out.evictedOffset⟩) ∧
      c' = { c with
        sets := c.sets.set (c.setid is2M a) s'
        history := .inserted a is2M (c.victimPage is2M a) :: c.history } ∧
      out' = c.reported is2M a out := by
  simp only [FunctionalCache.insert, Option.bind_eq_bind, Option.bind_eq_some_iff] at h
  obtain ⟨s, hi, ⟨s', e⟩, hins, h⟩ := h
  obtain ⟨rfl, rfl⟩ := Prod.mk.inj (Option.some.inj h)
  have ok := v.ok s (List.mem_of_getElem? hi)
  obtain ⟨_, rfl, _⟩ := ok.insert (v.tag_lt fits ha is2M) hins
  have hv : c.victim is2M a = s.victim := by simp [victim, hi]
  refine ⟨s, s', hi, hins, ?_, ?_⟩
  · cases h : s.victim with
    | none => simp [victimPage, hv, h, CacheSet.report_free h]
    | some l =>
      have ne : (l.addr : Int) ≠ -1 := by omega
      simp [victimPage, hv, h, ok.report_full h, ne]
  · cases h : s.victim with
    | none => simp [reported, hv, h, CacheSet.report_free h]
    | some l =>
      have ne : (l.addr : Int) ≠ -1 := by omega
      simp [reported, hv, h, ok.report_full h, ne]

/-- What the out-parameters held before an insertion matters to its report only. -/
lemma Valid.insert_out {out out'} (v : c.Valid g) (fits : g.Fits) (ha : a < 2 ^ 64)
    (h : c.insert a ld out is2M = some (c', out')) (out₂ : Evicted) :
    c.insert a ld out₂ is2M = some (c', c.reported is2M a out₂) := by
  obtain ⟨s, s', hi, hins, rfl, _⟩ := v.insert_inv fits ha h
  obtain ⟨e', hins₂⟩ := CacheSet.insert_out hins ⟨false, -1, out₂.evictedOffset⟩
  have found : ∃ c₂ e₂, c.insert a ld out₂ is2M = some (c₂, e₂) := by
    simp only [FunctionalCache.insert, hi, hins₂, Option.bind_eq_bind, Option.bind_some,
      Option.some.injEq, Prod.mk.injEq]
    exact ⟨_, _, rfl, rfl⟩
  obtain ⟨c₂, e₂, h₂⟩ := found
  obtain ⟨s₂, s₂', hi₂, hins', rfl, rfl⟩ := v.insert_inv fits ha h₂
  obtain rfl := Option.some.inj (hi.symm.trans hi₂)
  obtain ⟨rfl, _⟩ := Prod.mk.inj (Option.some.inj (hins₂.symm.trans hins'))
  exact h₂

/-- An insertion makes its page resident and evicts at most one other. -/
lemma Valid.insert {out out'} (v : c.Valid g) (fits : g.Fits) (ha : a < 2 ^ 64)
    (h : c.insert a ld out is2M = some (c', out')) :
    c'.Valid g ∧ c'.history = .inserted a is2M (c.victimPage is2M a) :: c.history ∧
      out' = c.reported is2M a out ∧
      (∀ n, c'.Resident n ↔ n = pageNumber g.logLine is2M a ∨
        (c.Resident n ∧ c.victimPage is2M a ≠ some n)) ∧
      (c.Unambiguous → ¬ c.Resident (pageNumber g.logLine is2M a) → c'.Unambiguous) := by
  obtain ⟨s, s', hi, hins, rfl, rfl⟩ := v.insert_inv fits ha h
  have mem := List.mem_of_getElem? hi
  obtain ⟨ok, _, hb, _, un⟩ := (v.ok s mem).insert (v.tag_lt fits ha is2M) hins
  have hv : c.victim is2M a = s.victim := by simp [victim, hi]
  have hres : ∀ n, ({ c with
      sets := c.sets.set (c.setid is2M a) s'
      history := .inserted a is2M (c.victimPage is2M a) :: c.history } : FunctionalCache).Resident n ↔
        n = pageNumber g.logLine is2M a ∨ (c.Resident n ∧ c.victimPage is2M a ≠ some n) := by
    intro n
    rw [resident_set hi, v.page_iff fits ha]
    have hvict : c.victimPage is2M a = some n ↔ ∃ l, s.victim = some l ∧
        n % 2 ^ c.logSetCount = c.setid is2M a ∧ n / 2 ^ c.logSetCount = l.addr := by
      rw [victimPage, hv, Option.map_eq_some_iff]
      apply exists_congr
      intro l
      rw [← eq_page (v.setid_lt fits a is2M), eq_comm (a := n)]
    rw [ne_eq, hvict]
    split
    case isTrue e =>
      rw [hb, resident_of_set hi e]
      simp [e]
    case isFalse ne => simp [ne]
  obtain ⟨hset, htag⟩ := (v.page_iff fits ha is2M _).mp rfl
  refine ⟨?_, rfl, rfl, hres, ?_⟩
  · apply v.set ok rfl
    · intro n
      rw [hres, v.tracked, owner]
      by_cases e : pageNumber g.logLine is2M a = n
      · simp [e]
      · by_cases e' : c.victimPage is2M a = some n
        · simp [e, Ne.symm e, e']
        · simp [e, Ne.symm e, e']
    · intro _ _ _ e
      cases e
  · intro hun nb
    rw [resident_of_set hi hset, htag] at nb
    exact hun.set (un (hun s mem) nb)

/-- Two insertions of one page leave its tag twice in a set that has room for both. -/
lemma Valid.insert_twice {c₂ : FunctionalCache} {out out' e e' : Evicted} {ld' : Bool}
    (v : c.Valid g) (fits : g.Fits) (ha : a < 2 ^ 64)
    (room : ∀ s ∈ c.sets, s.tags.length + 1 < s.associativity)
    (h : c.insert a ld out is2M = some (c', e))
    (h' : c'.insert a ld' out' is2M = some (c₂, e')) : ¬ c₂.Unambiguous := by
  obtain ⟨v', _⟩ := v.insert fits ha h
  obtain ⟨s, s', hi, hins, rfl, rfl⟩ := v.insert_inv fits ha h
  obtain ⟨s₁, s₂, hi', hins', rfl, rfl⟩ := v'.insert_inv fits ha h'
  have mem := List.mem_of_getElem? hi
  have lt : c.setid is2M a < c.sets.length := (List.getElem?_eq_some_iff.mp hi).1
  -- the second insertion finds the set that the first one left
  obtain rfl : s' = s₁ := by
    have e : (c.sets.set (c.setid is2M a) s')[c.setid is2M a]? = some s₁ := hi'
    simpa [lt] using e
  have room₀ := room s mem
  obtain ⟨assoc, perm⟩ := (v.ok s mem).insert_room (by omega) hins
  have len := perm.length_eq
  rw [List.length_cons] at len
  obtain ⟨_, perm'⟩ := (v'.ok s' (List.mem_of_getElem? hi')).insert_room (by omega) hins'
  intro un
  have lt' : c.setid is2M a < (c.sets.set (c.setid is2M a) s').length := by simpa using lt
  have nd := (un s₂ (List.mem_set lt' s₂)).1
  rw [(perm'.trans (perm.cons _)).nodup_iff] at nd
  exact (List.nodup_cons.mp nd).1 List.mem_cons_self

/-- An eviction makes its page, which was resident, not resident. -/
lemma Valid.evict {d} (v : c.Valid g) (fits : g.Fits) (ha : a < 2 ^ 64)
    (h : c.evict a is2M = some (c', d)) :
    c'.Valid g ∧ c'.history = .evicted a is2M :: c.history ∧
      c.Resident (pageNumber g.logLine is2M a) ∧
      (∀ n, c'.Resident n ↔ n ≠ pageNumber g.logLine is2M a ∧ c.Resident n) ∧
      (c.Unambiguous → c'.Unambiguous) := by
  simp only [FunctionalCache.evict, Option.bind_eq_bind, Option.bind_eq_some_iff] at h
  obtain ⟨s, hi, ⟨s', d'⟩, hev, e⟩ := h
  obtain ⟨rfl, rfl⟩ := Prod.mk.inj (Option.some.inj e)
  have mem := List.mem_of_getElem? hi
  obtain ⟨ok, b, hb, _, un⟩ := (v.ok s mem).evict hev
  obtain ⟨hset, htag⟩ := (v.page_iff fits ha is2M _).mp rfl
  have hres : ∀ n, ({ c with
      sets := c.sets.set (c.setid is2M a) s'
      history := .evicted a is2M :: c.history } : FunctionalCache).Resident n ↔
        n ≠ pageNumber g.logLine is2M a ∧ c.Resident n := by
    intro n
    rw [resident_set hi, ne_eq, v.page_iff fits ha]
    split
    case isTrue e => rw [hb, resident_of_set hi e]; simp [e]
    case isFalse ne => simp [ne]
  refine ⟨?_, rfl, ?_, hres, ?_⟩
  · apply v.set ok rfl
    · intro n
      rw [hres, v.tracked, owner]
      by_cases e : pageNumber g.logLine is2M a = n
      · simp [e]
      · simp [e, Ne.symm e]
    · intro _ _ _ e
      cases e
  · rw [resident_of_set hi hset, htag]
    exact b
  · intro hun
    exact hun.set (un (hun s mem))

/-- An eviction leaves the frequencies of the other pages alone. -/
lemma Valid.evict_getFreq {d b is2M'} (v : c.Valid g) (fits : g.Fits) (ha : a < 2 ^ 64)
    (hb : b < 2 ^ 64) (h : c.evict a is2M = some (c', d))
    (ne : pageNumber g.logLine is2M' b ≠ pageNumber g.logLine is2M a) :
    c'.getFreq b is2M' = c.getFreq b is2M' := by
  simp only [FunctionalCache.evict, Option.bind_eq_bind, Option.bind_eq_some_iff] at h
  obtain ⟨s, hi, ⟨s', d'⟩, hev, e⟩ := h
  obtain ⟨rfl, rfl⟩ := Prod.mk.inj (Option.some.inj e)
  have lt : c.setid is2M a < c.sets.length := (List.getElem?_eq_some_iff.mp hi).1
  show ((c.sets.set (c.setid is2M a) s')[c.setid is2M' b]?).bind (·.getFreq (c.tag is2M' b)) =
    (c.sets[c.setid is2M' b]?).bind (·.getFreq (c.tag is2M' b))
  rw [List.getElem?_set]
  split
  case isTrue same =>
    have netag : c.tag is2M' b ≠ c.tag is2M a := by
      intro e
      apply ne
      rw [v.page_iff fits ha, same, ← e]
      exact (v.page_iff fits hb is2M' _).mp rfl
    rw [← same, hi, Option.bind_some, Option.bind_some]
    exact (v.ok s (List.mem_of_getElem? hi)).evict_getFreq hev netag
  case isFalse => rfl

/-- Afterwards the page is not resident, and the others are as before. -/
lemma Valid.invalidate {d d'} (v : c.Valid g) (fits : g.Fits) (ha : a < 2 ^ 64)
    (h : c.invalidate a is2M d = some (c', d')) :
    c'.Valid g ∧ (∀ n, c'.Resident n ↔ n ≠ pageNumber g.logLine is2M a ∧ c.Resident n) ∧
      (c.Unambiguous → c'.Unambiguous) := by
  simp only [FunctionalCache.invalidate, Option.bind_eq_bind, Option.bind_eq_some_iff] at h
  obtain ⟨⟨hit, c₁⟩, hacc, h⟩ := h
  obtain ⟨v₁, _, hhit, hres, un⟩ := v.access fits ha hacc
  split at h
  case isTrue =>
    obtain ⟨v', _, _, hres', un'⟩ := v₁.evict fits ha h
    refine ⟨v', ?_, fun u => un' (un u)⟩
    intro n
    rw [hres', hres]
  case isFalse miss =>
    obtain ⟨rfl, rfl⟩ := Prod.mk.inj (Option.some.inj h)
    refine ⟨v₁, ?_, un⟩
    intro n
    rw [hres]
    constructor
    · intro r
      refine ⟨?_, r⟩
      rintro rfl
      exact miss (hhit.mpr r)
    · exact And.right

/-- The out-parameter that `invalidate` gets makes no difference to the cache. -/
lemma invalidate_out {d d'} (h : c.invalidate a is2M d = some (c', d')) (d₂ : Bool) :
    ∃ d₂', c.invalidate a is2M d₂ = some (c', d₂') := by
  simp only [FunctionalCache.invalidate, Option.bind_eq_bind, Option.bind_eq_some_iff] at h
  obtain ⟨⟨hit, c₁⟩, hacc, h⟩ := h
  simp only [FunctionalCache.invalidate, hacc, Option.bind_eq_bind, Option.bind_some]
  cases hit with
  | true => exact ⟨d', h⟩
  | false =>
    obtain ⟨rfl, rfl⟩ := Prod.mk.inj (Option.some.inj h)
    exact ⟨d₂, rfl⟩

/-- The entries of a cache with at most one set are its pages. -/
lemma Valid.mem_entries {ns : List Nat} (v : c.Valid g) (un : c.Unambiguous) (log : g.logSets = 0)
    (one : g.sets ≤ 1) (h : c.getEntries = some ns) : ns.Nodup ∧ ∀ n, n ∈ ns ↔ c.Resident n := by
  have len : c.sets.length ≤ 1 := by
    rw [← v.geometry] at one
    exact one
  have zero : c.logSetCount = 0 := v.logSets.trans log
  rw [getEntries, CacheSet.mapM_getSet v.ok] at h
  obtain rfl := Option.some.inj h
  match hs : c.sets, len with
  | [], _ => simp [Resident, hs]
  | [s], _ =>
    have ok := v.ok s (by simp [hs])
    have hun := un s (by simp [hs])
    refine ⟨by simpa using hun.1, ?_⟩
    intro n
    rw [resident_of_set (i := 0) (s := s) (by simp [hs]) (by simp [zero, Nat.mod_one]), zero,
      Nat.pow_zero, Nat.div_one, hun.bound_iff ok]
    simp

/-- A cache with all the sets that addresses select has the set of every address. -/
lemma Valid.exists_set (v : c.Valid g) (fits : g.Fits) (sets : 2 ^ g.logSets ≤ g.sets) (a : Nat)
    (is2M : Bool) : ∃ s, c.sets[c.setid is2M a]? = some s := by
  have lt := v.setid_lt fits a is2M
  have len : c.sets.length = g.sets := congrArg Geometry.sets v.geometry
  rw [v.logSets] at lt
  exact ⟨_, List.getElem?_eq_getElem (by omega)⟩

/-- An access does not fail where every set number names a set. -/
lemma Valid.access_some (v : c.Valid g) (fits : g.Fits) (sets : 2 ^ g.logSets ≤ g.sets) (a : Nat)
    (ld is2M : Bool) : ∃ r, c.access a ld is2M = some r := by
  obtain ⟨s, hs⟩ := v.exists_set fits sets a is2M
  obtain ⟨r, hacc⟩ := (v.ok s (List.mem_of_getElem? hs)).access_some (c.tag is2M a)
    (c.offset is2M a) ld
  simp only [FunctionalCache.access, hs, hacc, Option.bind_eq_bind, Option.bind_some]
  exact ⟨_, rfl⟩

/-- Neither does an insertion. -/
lemma Valid.insert_some (v : c.Valid g) (fits : g.Fits) (sets : 2 ^ g.logSets ≤ g.sets) (a : Nat)
    (ld : Bool) (out : Evicted) (is2M : Bool) : ∃ r, c.insert a ld out is2M = some r := by
  obtain ⟨s, hs⟩ := v.exists_set fits sets a is2M
  obtain ⟨r, hins⟩ := (v.ok s (List.mem_of_getElem? hs)).insert_some (c.tag is2M a) (c.offset is2M a)
    ld ⟨false, -1, out.evictedOffset⟩
  simp only [FunctionalCache.insert, hs, hins, Option.bind_eq_bind, Option.bind_some]
  exact ⟨_, rfl⟩

/-- A resident page can be evicted. -/
lemma Valid.evict_some (v : c.Valid g) (fits : g.Fits) (ha : a < 2 ^ 64)
    (h : c.Resident (pageNumber g.logLine is2M a)) : ∃ r, c.evict a is2M = some r := by
  obtain ⟨s, hs, b⟩ := h
  rw [v.logSets, ← v.setid fits] at hs
  rw [v.logSets, ← v.tag fits ha] at b
  have hs : c.sets[c.setid is2M a]? = some s := hs
  obtain ⟨r, hev⟩ := (v.ok s (List.mem_of_getElem? hs)).evict_some b
  simp only [FunctionalCache.evict, hs, hev, Option.bind_eq_bind, Option.bind_some]
  exact ⟨_, rfl⟩

/-- What is evicted was found right before. -/
lemma Valid.invalidate_some (v : c.Valid g) (fits : g.Fits) (sets : 2 ^ g.logSets ≤ g.sets)
    (ha : a < 2 ^ 64) (is2M d : Bool) : ∃ r, c.invalidate a is2M d = some r := by
  obtain ⟨⟨hit, c₁⟩, hacc⟩ := v.access_some fits sets a true is2M
  obtain ⟨v₁, _, hhit, hres, _⟩ := v.access fits ha hacc
  simp only [FunctionalCache.invalidate, hacc, Option.bind_eq_bind, Option.bind_some]
  cases hit with
  | true => exact v₁.evict_some fits ha ((hres _).mpr (hhit.mp rfl))
  | false => exact ⟨_, rfl⟩

/-- The entries of a cache can be listed. -/
lemma Valid.getEntries_some (v : c.Valid g) : ∃ ns, c.getEntries = some ns := by
  simp only [getEntries, CacheSet.mapM_getSet v.ok, Option.bind_eq_bind, Option.bind_some]
  exact ⟨_, rfl⟩

/-- A new cache has empty sets, as many as fit. -/
lemma new_inv {size lineSize policy : Nat} {assoc : Int}
    (h : new size assoc lineSize policy = some c) :
    c.sets = List.replicate c.setCount.toNat (.new assoc.toNat lineSize policy) ∧ c.history = [] ∧
      c.geometry = ⟨c.setCount.toNat.log2, lineSize.log2, c.setCount.toNat, c.setCount⟩ ∧
      c.setCount = (Int.bmod (size / lineSize : Nat) (2 ^ 32)).tdiv assoc := by
  unfold new at h
  split at h
  · cases h
  · obtain rfl := Option.some.inj h
    simp [FunctionalCache.geometry]

/-- A new cache, whose sets have lines. -/
lemma valid_new {size lineSize policy : Nat} {assoc : Int} (pol : policy = 0 ∨ policy = 2)
    (pos : c.setCount.toNat ≠ 0 → 1 ≤ assoc.toNat)
    (h : new size assoc lineSize policy = some c) :
    c.Valid c.geometry ∧ c.Unambiguous ∧ ∀ n, ¬ c.Resident n := by
  obtain ⟨sets, history, _, _⟩ := new_inv h
  have unres : ∀ n, ¬ c.Resident n := by
    rintro n ⟨s, hs, b⟩
    have mem := List.mem_of_getElem? hs
    rw [sets] at mem
    rw [List.eq_of_mem_replicate mem] at b
    exact CacheSet.not_bound_new _ _ _ b
  refine ⟨⟨rfl, ?_, ?_, ?_⟩, ?_, unres⟩
  · intro s hs
    rw [sets] at hs
    obtain ⟨ne, rfl⟩ := List.mem_replicate.mp hs
    exact CacheSet.ok_new (pos ne) pol
  · intro n
    simp [history, owner, unres]
  · intro later a is2M hit earlier e
    simp [history] at e
  · intro s hs
    rw [sets] at hs
    obtain ⟨_, rfl⟩ := List.mem_replicate.mp hs
    exact CacheSet.unambiguous_new _ _ _

end
end FunctionalCache

end PromotionCache.Tlb
