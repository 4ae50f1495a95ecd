import Mathlib.Data.Int.CardIntervalMod
import PromotionCache.Lib.Run
import PromotionCache.Tlb.CacheSpec

/-!
# How much of a cache is used

The constructor of `FunctionalCache` allocates `set_count` sets, while the set of an address is the number in
the `log2(set_count)` bits above its offset. With a power of two as the number of sets these are as many
numbers as there are sets; otherwise the sets from `2 ^ log2(set_count)` on are never used.
-/

namespace PromotionCache.Tlb
open Lib

namespace FunctionalCache

/-- A call of `insert`, whose out-parameters nobody reads. -/
def load (c : FunctionalCache) (address : Nat) : Option FunctionalCache :=
  (c.insert address true ⟨false, -1, 0⟩ false).map Prod.fst

/-- Insertions can make `n` different pages resident. -/
def CanHold (c : FunctionalCache) (n : Nat) : Prop :=
  ∃ addresses : List Nat, (∀ a ∈ addresses, a < 2 ^ 64) ∧ ∃ c', run load c addresses = some c' ∧
    ∃ pages : List Nat, pages.Nodup ∧ pages.length = n ∧ ∀ p ∈ pages, c'.Resident p

/-- `set_count`, from the arguments of the constructor. -/
def setsFor (size : Nat) (assoc : Int) (lineSize : Nat) : Int :=
  (Int.bmod (size / lineSize : Nat) (2 ^ 32)).tdiv assoc

/-- Every set is the one of some address, and a page can be held for every line. -/
def FullyUsed (c : FunctionalCache) (assoc : Nat) : Prop :=
  (∀ i < c.setCount.toNat, ∃ a < 2 ^ 64, c.setid false a = i) ∧ c.CanHold (c.setCount.toNat * assoc)

section
variable {c c' : FunctionalCache} {a assoc m : Nat}

/-- The set is cut out of the page number. -/
lemma setid_page (fits : c.logSetCount + c.logLineSize < 64) (a : Nat) :
    c.setid false a = a / 2 ^ c.logLineSize % 2 ^ c.logSetCount :=
  extract_bits (m := c.logLineSize) (by omega)

/-- It is one of those that the bits name. -/
lemma setid_small (fits : c.logSetCount + c.logLineSize < 64) (a : Nat) :
    c.setid false a < 2 ^ c.logSetCount := by
  rw [setid_page fits]
  exact Nat.mod_lt _ (Nat.two_pow_pos _)

/-- A shift by 64 makes the mask of the tag empty if the tag is the whole address. -/
lemma tag_whole (sets : c.logSetCount = 0) (line : c.logLineSize = 0) (a : Nat) :
    c.tag false a = 0 := by
  simp [FunctionalCache.tag, logPofs, sets, line, extract, extractWith, shiftedOne]

/-- The tag is what is left of the address. -/
lemma tag_cut (fits : c.logSetCount + c.logLineSize < 64) (cut : 0 < c.logSetCount + c.logLineSize)
    (ha : a < 2 ^ 64) : c.tag false a = a / 2 ^ (c.logSetCount + c.logLineSize) := by
  have top := extract_top 1 cut fits (by decide) ha
  rw [Int.natCast_add] at top
  exact top

/-- The tag is what is left of the page number. -/
lemma tag_page (fits : c.logSetCount + c.logLineSize < 64) (cut : 0 < c.logSetCount + c.logLineSize)
    (ha : a < 2 ^ 64) : c.tag false a = a / 2 ^ c.logLineSize / 2 ^ c.logSetCount := by
  rw [tag_cut fits cut ha, Nat.div_div_eq_div_mul, ← Nat.pow_add, Nat.add_comm]

/-- A tag is not negative as an `int64_t`. -/
lemma tag_small (fits : c.logSetCount + c.logLineSize < 64) (ha : a < 2 ^ 64) :
    c.tag false a < 2 ^ 63 := by
  rcases Nat.eq_zero_or_pos (c.logSetCount + c.logLineSize) with none | cut
  · rw [tag_whole (by omega) (by omega)]
    decide
  · have two : 2 ^ 1 ≤ 2 ^ (c.logSetCount + c.logLineSize) := Nat.pow_le_pow_right (by decide) cut
    have half : a / 2 ^ (c.logSetCount + c.logLineSize) ≤ a / 2 := Nat.div_le_div_left two (by decide)
    rw [tag_cut fits cut ha]
    omega

/-- The pages below `m` have been inserted, each into a set with a free line. -/
structure Stocked (assoc m : Nat) (c : FunctionalCache) : Prop where
  sets : c.sets.length = 2 ^ c.logSetCount
  fits : c.logSetCount + c.logLineSize < 64
  ok : ∀ s ∈ c.sets, s.Ok ∧ s.associativity = assoc
  tags : ∀ i s, c.sets[i]? = some s →
    s.tags.length = Nat.count (fun p => p ≡ i [MOD 2 ^ c.logSetCount]) m
  resident : ∀ p < m, c.Resident p

/-- The set of the next page has a line left. -/
lemma Stocked.room {s : CacheSet} (st : c.Stocked assoc m) (more : m < 2 ^ c.logSetCount * assoc)
    (hs : c.sets[m % 2 ^ c.logSetCount]? = some s) : s.tags.length < s.associativity := by
  have pos : 0 < 2 ^ c.logSetCount := Nat.two_pow_pos _
  rw [st.tags _ s hs, Nat.count_modEq_card m pos, Nat.mod_mod, if_neg (Nat.lt_irrefl _), Nat.add_zero,
    (st.ok s (List.mem_of_getElem? hs)).2]
  exact Nat.div_lt_of_lt_mul more

/-- The next page goes into a free line. -/
lemma Stocked.load (st : c.Stocked assoc m) (more : m < 2 ^ c.logSetCount * assoc)
    (word : m * 2 ^ c.logLineSize < 2 ^ 64) (cut : 0 < c.logSetCount + c.logLineSize ∨ m = 0) :
    ∃ c', c.load (m * 2 ^ c.logLineSize) = some c' ∧ c'.Stocked assoc (m + 1) ∧
      c'.logSetCount = c.logSetCount ∧ c'.logLineSize = c.logLineSize := by
  set a := m * 2 ^ c.logLineSize with ha
  have page : a / 2 ^ c.logLineSize = m := Nat.mul_div_cancel _ (Nat.two_pow_pos _)
  have set : c.setid false a = m % 2 ^ c.logSetCount := by rw [setid_page st.fits, page]
  have tag : c.tag false a = m / 2 ^ c.logSetCount := by
    cases cut with
    | inl cut => rw [tag_page st.fits cut word, page]
    | inr zero =>
      rcases Nat.eq_zero_or_pos (c.logSetCount + c.logLineSize) with none | cut
      · rw [tag_whole (by omega) (by omega), zero, Nat.zero_div]
      · rw [tag_page st.fits cut word, page]
  have lt : m % 2 ^ c.logSetCount < c.sets.length := by
    rw [st.sets]
    exact Nat.mod_lt _ (Nat.two_pow_pos _)
  obtain ⟨s, hs⟩ : ∃ s, c.sets[m % 2 ^ c.logSetCount]? = some s := ⟨_, List.getElem?_eq_getElem lt⟩
  obtain ⟨ok, hassoc⟩ := st.ok s (List.mem_of_getElem? hs)
  have room := st.room more hs
  obtain ⟨⟨s', e⟩, hins⟩ :=
    ok.insert_some (c.tag false a) (c.offset false a) true ⟨false, -1, 0⟩
  obtain ⟨ok', _, bound, _, _⟩ := ok.insert (tag_small st.fits word) hins
  obtain ⟨hassoc', perm⟩ := ok.insert_room room hins
  have unevicted : s.victim = none := if_neg (ok.exists_free room)
  simp only [FunctionalCache.load, FunctionalCache.insert, set, hs, hins, Option.bind_eq_bind, Option.bind_some,
    Option.map_some]
  refine ⟨_, rfl, ?_, rfl, rfl⟩
  constructor
  case sets => simpa using st.sets
  case fits => exact st.fits
  case ok =>
    intro u hu
    cases List.mem_or_eq_of_mem_set hu with
    | inl hu => exact st.ok u hu
    | inr hu =>
      rw [hu]
      exact ⟨ok', hassoc'.trans hassoc⟩
  case tags =>
    intro i u hu
    dsimp only at hu ⊢
    have small : i < 2 ^ c.logSetCount := by
      have lt' := (List.getElem?_eq_some_iff.mp hu).1
      rwa [List.length_set, st.sets] at lt'
    rw [Nat.count_succ]
    rw [List.getElem?_set] at hu
    split at hu
    case isTrue here =>
      obtain rfl := Option.some.inj hu
      have own : m ≡ i [MOD 2 ^ c.logSetCount] := by
        rw [← here]
        exact (Nat.mod_modEq m _).symm
      rw [if_pos own, perm.length_eq, List.length_cons, st.tags _ s (here ▸ hs)]
    case isFalse other =>
      have apart : ¬ m ≡ i [MOD 2 ^ c.logSetCount] := by
        intro e
        have e : m % 2 ^ c.logSetCount = i % 2 ^ c.logSetCount := e
        exact other (e.trans (Nat.mod_eq_of_lt small))
      rw [if_neg apart, Nat.add_zero]
      exact st.tags i u hu
  case resident =>
    intro p hp
    rw [resident_set hs]
    rcases Nat.lt_succ_iff_lt_or_eq.mp hp with before | now
    · have held := st.resident p before
      split
      case isTrue here =>
        rw [resident_of_set hs here] at held
        rw [bound, unevicted]
        exact .inr ⟨held, fun v e => by cases e⟩
      case isFalse => exact held
    · rw [now, if_pos rfl, bound, tag]
      exact .inl rfl

/-- Page after page, the cache is filled. -/
lemma Stocked.fill (st : c.Stocked assoc 0) {n : Nat} (le : n ≤ 2 ^ c.logSetCount * assoc)
    (word : n * 2 ^ c.logLineSize ≤ 2 ^ 64) (cut : 0 < c.logSetCount + c.logLineSize ∨ n ≤ 1) :
    ∃ c', run FunctionalCache.load c ((List.range n).map (· * 2 ^ c.logLineSize)) = some c' ∧ c'.Stocked assoc n ∧
      c'.logSetCount = c.logSetCount ∧ c'.logLineSize = c.logLineSize := by
  induction n with
  | zero => exact ⟨c, rfl, st, rfl, rfl⟩
  | succ n ih =>
    have step : n * 2 ^ c.logLineSize < (n + 1) * 2 ^ c.logLineSize := by
      rw [Nat.succ_mul]
      exact Nat.lt_add_of_pos_right (Nat.two_pow_pos _)
    obtain ⟨c₁, hrun, st₁, sets, line⟩ := ih (by omega) (by omega) (by omega)
    have cut' : 0 < c₁.logSetCount + c₁.logLineSize ∨ n = 0 := by omega
    rw [← sets] at le
    rw [← line] at step word
    obtain ⟨c₂, hload, st₂, sets', line'⟩ := st₁.load (by omega) (by omega) cut'
    refine ⟨c₂, ?_, st₂, sets'.trans sets, line'.trans line⟩
    rw [List.range_succ, List.map_append, List.map_singleton]
    rw [line] at hload
    exact run_snoc.mpr ⟨c₁, hrun, hload⟩

/-- The numbers of a new cache, in terms of the arguments of the constructor. -/
lemma new_counts {size k policy : Nat} {assoc : Int} (line : 2 ^ k < 2 ^ 31) (pos : 0 < assoc)
    (h : new size assoc (2 ^ k) policy = some c) :
    c.logLineSize = k ∧ c.logSetCount = c.setCount.toNat.log2 ∧
      c.setCount.toNat * assoc.toNat < 2 ^ 31 ∧ c.logSetCount + c.logLineSize < 64 := by
  obtain ⟨_, _, geo, count⟩ := new_inv h
  have hline : c.logLineSize = k := by
    have e : c.logLineSize = (2 ^ k).log2 := congrArg Geometry.logLine geo
    rw [e, Nat.log2_two_pow]
  have hsets : c.logSetCount = c.setCount.toNat.log2 := congrArg Geometry.logSets geo
  have small : k < 31 := (Nat.pow_lt_pow_iff_right (by decide)).mp line
  have lines : c.setCount.toNat * assoc.toNat < 2 ^ 31 := by
    set n := Int.bmod (size / 2 ^ k : Nat) (2 ^ 32) with hn
    have lt : n < 2 ^ 31 := Int.bmod_lt (by decide)
    rcases Int.le_total 0 n with nonneg | neg
    · have le := Int.tdiv_mul_le n (b := assoc) (by omega)
      rw [if_pos nonneg, ← count] at le
      have nonneg' : 0 ≤ c.setCount := by
        rw [count]
        exact Int.tdiv_nonneg nonneg pos.le
      zify
      rw [Int.toNat_of_nonneg nonneg', Int.toNat_of_nonneg pos.le]
      omega
    · have nonpos : c.setCount ≤ 0 := by
        have nonneg := Int.tdiv_nonneg (Int.neg_nonneg_of_nonpos neg) pos.le
        rw [Int.neg_tdiv, ← count] at nonneg
        omega
      rw [Int.toNat_eq_zero.mpr nonpos, Nat.zero_mul]
      decide
  refine ⟨hline, hsets, lines, ?_⟩
  have bits : c.setCount.toNat.log2 < 31 := by
    rcases Nat.eq_zero_or_pos c.setCount.toNat with none | some
    · rw [none]
      decide
    · rw [Nat.log2_lt some.ne']
      exact Nat.lt_of_le_of_lt (Nat.le_mul_of_pos_right _ (by omega)) lines
  omega

/-- With a number of sets that is no power of two, there is a set that no address selects. -/
lemma unselected {size k policy : Nat} {assoc : Int} (line : 2 ^ k < 2 ^ 31) (pos : 0 < assoc)
    (h : new size assoc (2 ^ k) policy = some c) (ne : c.setCount.toNat ≠ 2 ^ c.logSetCount)
    (some : 0 < c.setCount) : ¬ c.FullyUsed assoc.toNat := by
  obtain ⟨_, hsets, _, fits⟩ := new_counts line pos h
  rintro ⟨selected, _⟩
  have le : 2 ^ c.logSetCount ≤ c.setCount.toNat := by
    rw [hsets]
    exact Nat.log2_self_le (by omega)
  obtain ⟨a, _, e⟩ := selected (2 ^ c.logSetCount) (by omega)
  have lt := setid_small fits a
  omega

/-- A cache whose addresses all have tag 0 holds one page at most. -/
lemma held_whole (sets : c.logSetCount = 0) (line : c.logLineSize = 0)
    (fresh : ∀ s ∈ c.sets, s.Ok ∧ ∀ u, ¬ s.Bound u) {n : Nat} (h : c.CanHold n) : n ≤ 1 := by
  obtain ⟨addresses, _, c', hrun, pages, nodup, rfl, held⟩ := h
  have inv : (c'.logSetCount = 0 ∧ c'.logLineSize = 0) ∧
      ∀ s ∈ c'.sets, s.Ok ∧ ∀ u, s.Bound u → u = 0 := by
    have rule := @run_inv _ _ load c fun c => (c.logSetCount = 0 ∧ c.logLineSize = 0) ∧
      ∀ s ∈ c.sets, s.Ok ∧ ∀ u, s.Bound u → u = 0
    refine rule ?_ ?_ hrun
    · refine ⟨⟨sets, line⟩, fun s hs => ⟨(fresh s hs).1, fun u b => absurd b ((fresh s hs).2 u)⟩⟩
    · intro c a c' inv hload
      obtain ⟨⟨sets, line⟩, inv⟩ := inv
      simp only [load, FunctionalCache.insert, Option.bind_eq_bind, Option.map_eq_some_iff,
        Option.bind_eq_some_iff] at hload
      obtain ⟨_, ⟨s, hs, ⟨s', e⟩, hins, h⟩, rfl⟩ := hload
      obtain rfl := Option.some.inj h
      obtain ⟨ok, zero⟩ := inv s (List.mem_of_getElem? hs)
      rw [tag_whole sets line] at hins
      obtain ⟨ok', _, bound, _, _⟩ := ok.insert (by decide) hins
      refine ⟨⟨sets, line⟩, ?_⟩
      intro u hu
      cases List.mem_or_eq_of_mem_set hu with
      | inl hu => exact inv u hu
      | inr hu =>
        rw [hu]
        refine ⟨ok', ?_⟩
        intro t b
        cases (bound t).mp b with
        | inl same => exact same
        | inr old => exact zero t old.1
  obtain ⟨⟨sets', _⟩, zero⟩ := inv
  have same : ∀ p ∈ pages, p = 0 := by
    intro p mem
    obtain ⟨s, hs, b⟩ := held p mem
    rw [sets', Nat.pow_zero, Nat.div_one] at b
    exact (zero s (List.mem_of_getElem? hs)).2 p b
  rw [List.eq_replicate_of_mem same] at nodup
  exact List.nodup_replicate.mp nodup

/-- A new cache without sets, or with a power of two of them, is used to its full size. -/
lemma fullyUsed_of {size k : Nat} {assoc : Int} (line : 2 ^ k < 2 ^ 31) (pos : 0 < assoc)
    (h : new size assoc (2 ^ k) 0 = some c)
    (shape : c.setCount ≤ 0 ∨ ∃ j : Nat, c.setCount = 2 ^ j ∧ (0 < j + k ∨ assoc = 1)) :
    c.FullyUsed assoc.toNat := by
  obtain ⟨hline, hsets, lines, fits⟩ := new_counts line pos h
  obtain ⟨sets, _, _, _⟩ := new_inv h
  obtain nonpos | ⟨j, count, cut⟩ := shape
  · have none : c.setCount.toNat = 0 := Int.toNat_eq_zero.mpr nonpos
    rw [FullyUsed, none, Nat.zero_mul]
    refine ⟨fun i lt => absurd lt (Nat.not_lt_zero i), ?_⟩
    refine ⟨[], fun a mem => absurd mem List.not_mem_nil, c, rfl, [], List.nodup_nil, rfl, ?_⟩
    exact fun p mem => absurd mem List.not_mem_nil
  · have count : c.setCount.toNat = 2 ^ j := by
      rw [count]
      exact Int.toNat_natCast (2 ^ j)
    have log : c.logSetCount = j := by rw [hsets, count, Nat.log2_two_pow]
    have stocked : c.Stocked assoc.toNat 0 := by
      constructor
      case sets => rw [sets, List.length_replicate, count, log]
      case fits => exact fits
      case ok =>
        intro s hs
        rw [sets] at hs
        rw [List.eq_of_mem_replicate hs]
        exact ⟨CacheSet.ok_new (by omega) (.inl rfl), rfl⟩
      case tags =>
        intro i s hs
        rw [sets] at hs
        rw [List.eq_of_mem_replicate (List.mem_of_getElem? hs), (CacheSet.wf_new _ _ _).tags_eq]
        rfl
      case resident =>
        intro p lt
        cases lt
    rw [count] at lines
    have word : 2 ^ j * assoc.toNat * 2 ^ c.logLineSize ≤ 2 ^ 64 := by
      rw [hline]
      calc 2 ^ j * assoc.toNat * 2 ^ k ≤ 2 ^ 31 * 2 ^ 31 := Nat.mul_le_mul lines.le line.le
        _ ≤ 2 ^ 64 := by decide
    rw [FullyUsed, count]
    refine ⟨?_, ?_⟩
    · intro i lt
      have le : i ≤ 2 ^ j * assoc.toNat :=
        Nat.le_trans lt.le (Nat.le_mul_of_pos_right _ (by omega))
      refine ⟨i * 2 ^ k, ?_, ?_⟩
      · calc i * 2 ^ k ≤ 2 ^ 31 * 2 ^ 31 := Nat.mul_le_mul (by omega) line.le
          _ < 2 ^ 64 := by decide
      · rw [setid_page fits, hline, Nat.mul_div_cancel _ (Nat.two_pow_pos k), log, Nat.mod_eq_of_lt lt]
    · have cut' : 0 < c.logSetCount + c.logLineSize ∨ 2 ^ j * assoc.toNat ≤ 1 := by
        rw [log, hline]
        rcases Nat.eq_zero_or_pos (j + k) with none | some
        · obtain rfl : j = 0 := by omega
          exact .inr (by omega)
        · exact .inl some
      obtain ⟨c', hrun, st, _, _⟩ := stocked.fill (by rw [log]) word cut'
      refine ⟨_, ?_, c', hrun, List.range (2 ^ j * assoc.toNat), List.nodup_range, List.length_range, ?_⟩
      · intro a mem
        obtain ⟨n, hn, rfl⟩ := List.mem_map.mp mem
        have lt := (Nat.mul_lt_mul_right (Nat.two_pow_pos c.logLineSize)).mpr (List.mem_range.mp hn)
        exact Nat.lt_of_lt_of_le lt word
      · intro p mem
        exact st.resident p (List.mem_range.mp mem)

/-- A new cache is used to its full size if and only if the number of its sets is a power of two, apart from a
    cache with one set of several one-byte lines, whose addresses have no tag. -/
theorem fullyUsed_iff {size k : Nat} {assoc : Int} (line : 2 ^ k < 2 ^ 31) (pos : 0 < assoc) :
    (∃ c, new size assoc (2 ^ k) 0 = some c ∧ c.FullyUsed assoc.toNat) ↔
      setsFor size assoc (2 ^ k) ≤ 0 ∨
        ∃ j : Nat, setsFor size assoc (2 ^ k) = 2 ^ j ∧ (0 < j + k ∨ assoc = 1) := by
  obtain ⟨c, hc⟩ : ∃ c, new size assoc (2 ^ k) 0 = some c := by
    rw [new, if_neg (by omega)]
    exact ⟨_, rfl⟩
  obtain ⟨hline, hsets, _, _⟩ := new_counts line pos hc
  obtain ⟨sets, _, _, count⟩ := new_inv hc
  have count : setsFor size assoc (2 ^ k) = c.setCount := count.symm
  rw [count]
  constructor
  · rintro ⟨c', hc', used⟩
    obtain rfl := Option.some.inj (hc.symm.trans hc')
    refine or_iff_not_imp_left.mpr fun some => ?_
    have some : 0 < c.setCount := Int.not_le.mp some
    have power : c.setCount.toNat = 2 ^ c.logSetCount := by
      by_contra ne
      exact unselected line pos hc ne some used
    refine ⟨c.logSetCount, by zify at power; omega, ?_⟩
    by_contra whole
    obtain ⟨none, several⟩ := not_or.mp whole
    have log : c.logSetCount = 0 := by omega
    have fresh : ∀ s ∈ c.sets, s.Ok ∧ ∀ u, ¬ s.Bound u := by
      intro s hs
      rw [sets] at hs
      rw [List.eq_of_mem_replicate hs]
      exact ⟨CacheSet.ok_new (by omega) (.inl rfl), fun u => CacheSet.not_bound_new _ _ _⟩
    have le := held_whole log (by omega) fresh used.2
    rw [power, log, Nat.pow_zero, Nat.one_mul] at le
    omega
  · intro shape
    exact ⟨c, hc, fullyUsed_of line pos hc shape⟩

/-- The 4KB L1 TLB: 64 entries, 4 to a set. -/
theorem fullyUsed_iff_l1 : ∃ c, new (64 * 2 ^ 12) 4 (2 ^ 12) 0 = some c ∧ c.FullyUsed 4 :=
  (fullyUsed_iff (by decide) (by decide)).mpr (.inr ⟨4, by decide, .inl (by decide)⟩)

/-- The L2 TLB has 170 sets, of which addresses select the first 128. -/
theorem sets_unused : ∃ c, new (1024 * 2 ^ 12) 6 (2 ^ 12) 0 = some c ∧ ¬ c.FullyUsed 6 := by
  have built : (new (1024 * 2 ^ 12) 6 (2 ^ 12) 0).any
      (fun c => decide (c.setCount = 170 ∧ c.logSetCount = 7)) = true := by decide +kernel
  obtain ⟨c, hc, e⟩ := (Option.any_eq_true _ _).mp built
  obtain ⟨count, log⟩ := of_decide_eq_true e
  refine ⟨c, hc, unselected (by decide) (by decide) hc ?_ ?_⟩
  · rw [count, log]
    decide
  · rw [count]
    decide

end
end FunctionalCache

end PromotionCache.Tlb
