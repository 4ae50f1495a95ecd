import PromotionCache.Hawkeye.Hawkeye
import Mathlib.Algebra.Order.Floor.Ring
import Mathlib.Data.Rat.Floor
import Mathlib.Data.Finset.Card
import Mathlib.Tactic.Linarith
import Mathlib.Tactic.NormNum

/-!
# What `summarize` does

The first loop puts every region in `coverage` into the bucket of its new average, and it stays within
the array of the buckets as long as no old average has reached 500. The second loop leaves the buckets
alone.
-/

namespace PromotionCache.Hawkeye
open Lib Tlb Pcc

/-- A region with average `e` is in its bucket, once, and in no other. -/
structure Placed (p : Platform) (s : State) (base : Nat) (e : ℚ) : Prop where
  ema : s.ema.find base = some e
  kept : p.rnd e = e
  nonneg : 0 ≤ e
  le : e ≤ 512
  count : ∀ b : Fin numBuckets,
    (s.buckets b).count base = if (b : Int) = min 9 ⌊e / 50⌋ then 1 else 0

/-- A region is in no bucket and has no average, or one of zero: a read past the end of a bucket may leave
    that behind. -/
structure Absent (s : State) (base : Nat) : Prop where
  ema : s.ema.get base 0 = 0
  count : ∀ b : Fin numBuckets, (s.buckets b).count base = 0

/-- What is known about a region between two iterations of the first loop. -/
def Known (p : Platform) (s : State) (base : Nat) : Prop := (∃ e, Placed p s base e) ∨ Absent s base

/-- The regions in buckets are in `coverage`. -/
def Inv (p : Platform) (s : State) : Prop :=
  ∀ base, (base ∈ s.coverage ∧ ∃ e, Placed p s base e) ∨ Absent s base

/-- Two states do not differ in what they say about a region. -/
structure Same (s t : State) (base : Nat) : Prop where
  ema : t.ema.find base = s.ema.find base
  count : ∀ b, (t.buckets b).count base = (s.buckets b).count base

section
variable {p : Platform} {s t u : State} {base r : Nat} {e : ℚ}

/-- The conversion to `int` rounds a number down that is not negative. -/
lemma toInt_nonneg {x : ℚ} (h : 0 ≤ x) : toInt x = ⌊x⌋ := by
  have num : 0 ≤ x.num := Rat.num_nonneg.mpr h
  rw [toInt, Int.tdiv_eq_ediv_of_nonneg num, Rat.floor_def']

/-- What is not negative stays so when it is rounded. -/
lemma rnd_nonneg {x : ℚ} (h : 0 ≤ x) : 0 ≤ p.rnd x := by
  have zero : p.rnd 0 = 0 := by exact_mod_cast p.natCast 0 (Nat.zero_le _)
  have le := p.mono 0 x le_rfl h
  rwa [zero] at le

/-- The bucket of an average is the one that it has without rounding. -/
lemma bucketOf_nonneg (kept : p.rnd e = e) (h : 0 ≤ e) (le : e ≤ 512) : bucketOf p e = ⌊e / 50⌋ := by
  have quotient : 0 ≤ p.rnd (e / bucketSize) := rnd_nonneg (div_nonneg h (by norm_num [bucketSize]))
  rw [bucketOf, toInt_nonneg quotient]
  exact p.floor e h (by exact_mod_cast le) kept

/-- An average that is not negative has a bucket number that is not. -/
lemma floor_nonneg (h : 0 ≤ e) : 0 ≤ ⌊e / 50⌋ := Int.floor_nonneg.mpr (by linarith)

/-- There is a bucket for an average below 500. -/
lemma floor_lt : ⌊e / 50⌋ < 10 ↔ e < 500 := by
  rw [Int.floor_lt]
  constructor <;> intro h <;> norm_num at h ⊢ <;> linarith

/-- The bucket of an index that is in range. -/
lemma index_eq_some {i : Int} {b : Fin numBuckets} : index i = some b ↔ i = b := by
  unfold index
  split
  case isTrue h =>
    rw [Option.some_inj, Fin.ext_iff]
    show i.toNat = b.val ↔ _
    omega
  case isFalse h =>
    have lt := b.isLt
    constructor
    · intro e
      cases e
    · intro e
      rw [e] at h
      exact absurd ⟨by omega, by omega⟩ h

/-- The indices of the ten buckets. -/
lemma index_isSome {i : Int} : (∃ b, index i = some b) ↔ 0 ≤ i ∧ i < 10 := by
  constructor
  · intro ⟨b, h⟩
    have lt := b.isLt
    rw [index_eq_some.mp h]
    unfold numBuckets at lt
    omega
  · intro h
    exact ⟨⟨i.toNat, by unfold numBuckets; omega⟩, index_eq_some.mpr (by simp; omega)⟩

/-- How often a region stands in the buckets after one entry has been taken out. -/
lemma count_erase (f : Fin numBuckets → List Nat) (o b : Fin numBuckets) :
    (Function.update f o ((f o).erase base) b).count r =
      (f b).count r - if r = base ∧ b = o then 1 else 0 := by
  rw [Function.update_apply]
  split
  case isTrue same =>
    rw [same, List.count_erase]
    exact congrArg _ (if_congr (by simp [eq_comm (a := r)]) rfl rfl)
  case isFalse other => simp [other]

/-- How often a region stands in the buckets after it has been put at the end of one. -/
lemma count_push (f : Fin numBuckets → List Nat) (n b : Fin numBuckets) :
    (Function.update f n (f n ++ [base]) b).count r =
      (f b).count r + if r = base ∧ b = n then 1 else 0 := by
  rw [Function.update_apply]
  split
  case isTrue same =>
    rw [same, List.count_append, List.count_singleton]
    exact congrArg _ (if_congr (by simp [eq_comm (a := r)]) rfl rfl)
  case isFalse other => simp [other]

/-- The new bucket of a region is never negative, and at most the top one. -/
lemma changeBucket_eq {old new : Int} (nonneg : 0 ≤ new) : changeBucket s base old new =
    (index old).bind fun o => (index (min 9 new)).bind fun n =>
      let buckets := Function.update s.buckets o ((s.buckets o).erase base)
      some { s with buckets := Function.update buckets n (buckets n ++ [base]) } := by
  have clamp : (if new > (numBuckets : Int) - 1 then (numBuckets : Int) - 1 else new) =
      min 9 new := by
    unfold numBuckets
    split <;> omega
  simp only [changeBucket, if_neg (Int.not_lt.mpr nonneg), clamp, Option.bind_eq_bind]

/-- A region is taken out of the old bucket, if it is there, and put into the new one. -/
lemma changeBucket_spec {old new : Int} (nonneg : 0 ≤ new)
    (h : changeBucket s base old new = some t) :
    (0 ≤ old ∧ old < 10) ∧ t = { s with buckets := t.buckets } ∧
      (∀ b : Fin numBuckets, (t.buckets b).count base =
        (s.buckets b).count base - (if (b : Int) = old then 1 else 0) +
          if (b : Int) = min 9 new then 1 else 0) ∧
      ∀ b r, r ≠ base → (t.buckets b).count r = (s.buckets b).count r := by
  rw [changeBucket_eq nonneg] at h
  obtain ⟨o, ho, h⟩ := Option.bind_eq_some_iff.mp h
  obtain ⟨n, hn, h⟩ := Option.bind_eq_some_iff.mp h
  obtain rfl := Option.some.inj h
  have old_eq := index_eq_some.mp ho
  have new_eq := index_eq_some.mp hn
  refine ⟨index_isSome.mp ⟨o, ho⟩, rfl, ?_, ?_⟩
  · intro b
    refine (count_push _ n b).trans ?_
    rw [count_erase, old_eq, new_eq]
    simp [Fin.ext_iff]
  · intro b r ne
    refine (count_push _ n b).trans ?_
    rw [count_erase]
    simp [ne]

/-- A region can change its bucket if both numbers are in range. -/
lemma changeBucket_isSome {old new : Int} (nonneg : 0 ≤ new) (le : 0 ≤ old) (lt : old < 10) :
    ∃ t, changeBucket s base old new = some t := by
  obtain ⟨o, ho⟩ := index_isSome.mpr ⟨le, lt⟩
  obtain ⟨n, hn⟩ : ∃ n, index (min 9 new) = some n := index_isSome.mpr (by omega)
  rw [changeBucket_eq nonneg, ho, hn]
  exact ⟨_, rfl⟩

/-- The average of a placed region. -/
lemma Placed.get (placed : Placed p s base e) : s.ema.get base 0 = e := by
  rw [UnorderedMap.get, placed.ema, Option.getD_some]

/-- Every region has an average between 0 and 512. -/
lemma Known.get (known : Known p s base) : 0 ≤ s.ema.get base 0 ∧ s.ema.get base 0 ≤ 512 ∧
    p.rnd (s.ema.get base 0) = s.ema.get base 0 := by
  cases known with
  | inl placed =>
    obtain ⟨e, placed⟩ := placed
    rw [placed.get]
    exact ⟨placed.nonneg, placed.le, placed.kept⟩
  | inr absent =>
    rw [absent.ema]
    exact ⟨le_rfl, by norm_num, by exact_mod_cast p.natCast 0 (Nat.zero_le _)⟩

/-- A region has 512 pages. -/
lemma card_pages (s : State) (base : Nat) : (s.pages base).card ≤ 512 := by
  have le := Finset.card_le_univ (s.pages base)
  rwa [Fintype.card_fin] at le

/-- The weights of a mean are not negative. -/
lemma weights_nonneg (p : Platform) : 0 ≤ p.rnd alpha ∧ 0 ≤ p.rnd (1 - p.rnd alpha) := by
  have le : p.rnd alpha ≤ p.rnd (1 : ℕ) := p.mono alpha (1 : ℕ) (by norm_num [alpha]) (by norm_num [alpha])
  rw [p.natCast 1 (by decide), Nat.cast_one] at le
  exact ⟨rnd_nonneg (by norm_num [alpha]), rnd_nonneg (by linarith)⟩

/-- A mean of values between 0 and 512 is one of them. -/
lemma mean_spec {n : ℕ} (nonneg : 0 ≤ e) (le : e ≤ 512) (pages : n ≤ 512) :
    0 ≤ mean p e n ∧ mean p e n ≤ 512 ∧ p.rnd (mean p e n) = mean p e n := by
  obtain ⟨old, new⟩ := weights_nonneg p
  have first : 0 ≤ p.rnd alpha * e := mul_nonneg old nonneg
  have second : 0 ≤ p.rnd (1 - p.rnd alpha) * n := mul_nonneg new (Nat.cast_nonneg n)
  have sum : 0 ≤ p.rnd (p.rnd alpha * e) + p.rnd (p.rnd (1 - p.rnd alpha) * n) :=
    add_nonneg (rnd_nonneg first) (rnd_nonneg second)
  refine ⟨rnd_nonneg sum, ?_, p.idem _ sum⟩
  -- the mean grows with both values
  calc mean p e n ≤ mean p numBasePages numBasePages := by
        refine p.mono _ _ sum (add_le_add (p.mono _ _ first ?_) (p.mono _ _ second ?_))
        · exact mul_le_mul_of_nonneg_left (by exact_mod_cast le) old
        · exact mul_le_mul_of_nonneg_left (by exact_mod_cast pages) new
    _ = 512 := p.full

/-- New averages are between 0 and 512. -/
lemma Known.accEma (known : Known p s base) :
    0 ≤ Hawkeye.accEma p s base ∧ Hawkeye.accEma p s base ≤ 512 ∧
      p.rnd (Hawkeye.accEma p s base) = Hawkeye.accEma p s base := by
  obtain ⟨nonneg, le, _⟩ := known.get
  have pages := card_pages s base
  unfold Hawkeye.accEma
  split
  · exact mean_spec nonneg le pages
  · exact ⟨Nat.cast_nonneg _, by exact_mod_cast pages, p.natCast _ pages⟩

/-- A region gets its new average first, and then changes its bucket. -/
lemma updateRegion_eq : updateRegion p s base =
    changeBucket { s with ema := s.ema.set base (accEma p s base) } base
      (bucketOf p (s.ema.get base 0)) (bucketOf p (accEma p s base)) := by
  simp only [updateRegion, UnorderedMap.set_subscript, UnorderedMap.get_subscript,
    UnorderedMap.get_set_self]

/-- An iteration moves its region into the bucket of the new average. -/
lemma updateRegion_spec (known : Known p s base) (h : updateRegion p s base = some t) :
    s.ema.get base 0 < 500 ∧ t = { s with ema := t.ema, buckets := t.buckets } ∧
      Placed p t base (accEma p s base) ∧ ∀ r, r ≠ base → Same s t r := by
  obtain ⟨nonneg, le, kept⟩ := known.get
  obtain ⟨nonneg', le', kept'⟩ := known.accEma
  rw [updateRegion_eq, bucketOf_nonneg kept nonneg le, bucketOf_nonneg kept' nonneg' le'] at h
  obtain ⟨⟨_, lt⟩, e, count, others⟩ := changeBucket_spec (floor_nonneg nonneg') h
  have find : ∀ r, t.ema.find r = (s.ema.set base (accEma p s base)).find r := by
    intro r
    rw [e]
  refine ⟨floor_lt.mp lt, ?_, ⟨?_, kept', nonneg', le', ?_⟩, ?_⟩
  · rw [e]
  · rw [find, UnorderedMap.find_set, if_pos rfl]
  · intro b
    rw [count]
    -- nothing is left of the region after it has been taken out of its old bucket
    have out : (s.buckets b).count base -
        (if (b : Int) = ⌊s.ema.get base 0 / 50⌋ then 1 else 0) = 0 := by
      cases known with
      | inl placed =>
        obtain ⟨e, placed⟩ := placed
        rw [placed.count, placed.get]
        rw [placed.get] at lt
        rw [min_eq_right (by omega), Nat.sub_self]
      | inr absent => rw [absent.count, Nat.zero_sub]
    rw [out, Nat.zero_add]
  · intro r ne
    refine ⟨?_, fun b => others b r ne⟩
    rw [find, UnorderedMap.find_set, if_neg ne]

/-- The update of a known region comes to its end if its average is below 500. -/
lemma updateRegion_isSome (known : Known p s base) (lt : s.ema.get base 0 < 500) :
    ∃ t, updateRegion p s base = some t := by
  obtain ⟨nonneg, le, kept⟩ := known.get
  obtain ⟨nonneg', le', kept'⟩ := known.accEma
  rw [updateRegion_eq, bucketOf_nonneg kept nonneg le, bucketOf_nonneg kept' nonneg' le']
  exact changeBucket_isSome (floor_nonneg nonneg') (floor_nonneg nonneg) (floor_lt.mpr lt)

/-- What two states agree on includes the average. -/
lemma Same.get (same : Same s t r) : t.ema.get r 0 = s.ema.get r 0 := by
  rw [UnorderedMap.get, UnorderedMap.get, same.ema]

/-- What two steps leave alone, both together leave alone. -/
lemma Same.trans (h : Same s t r) (h' : Same t u r) : Same s u r where
  ema := h'.ema.trans h.ema
  count b := (h'.count b).trans (h.count b)

/-- A region stays placed where nothing changes for it. -/
lemma Same.placed (same : Same s t r) (placed : Placed p s r e) : Placed p t r e where
  ema := same.ema.trans placed.ema
  kept := placed.kept
  nonneg := placed.nonneg
  le := placed.le
  count b := (same.count b).trans (placed.count b)

/-- A region stays absent where nothing changes for it. -/
lemma Same.absent (same : Same s t r) (absent : Absent s r) : Absent t r where
  ema := same.get.trans absent.ema
  count b := (same.count b).trans (absent.count b)

/-- A region stays known where nothing changes for it. -/
lemma Same.known (same : Same s t r) (known : Known p s r) : Known p t r := by
  cases known with
  | inl placed =>
    obtain ⟨e, placed⟩ := placed
    exact .inl ⟨e, same.placed placed⟩
  | inr absent => exact .inr (same.absent absent)

/-- The next average of a region depends on its own data alone. -/
lemma Same.accEma (same : Same s t r) (cov : t.coverage = s.coverage) :
    Hawkeye.accEma p t r = Hawkeye.accEma p s r := by
  unfold Hawkeye.accEma State.pages
  rw [same.get, cov, UnorderedMap.contains, UnorderedMap.contains, same.ema]

/-- The iterations up to the end, over the regions `bases`. -/
lemma run_updateRegion_spec {bases : List Nat} (nodup : bases.Nodup)
    (known : ∀ base ∈ bases, Known p s base) (h : run (updateRegion p) s bases = some t) :
    t = { s with ema := t.ema, buckets := t.buckets } ∧
      (∀ base ∈ bases, s.ema.get base 0 < 500 ∧ Placed p t base (accEma p s base)) ∧
      ∀ r ∉ bases, Same s t r := by
  induction bases generalizing s with
  | nil =>
    obtain rfl := Option.some.inj h
    exact ⟨rfl, fun _ mem => absurd mem List.not_mem_nil, fun r _ => ⟨rfl, fun _ => rfl⟩⟩
  | cons base bases ih =>
    obtain ⟨u, hu, h⟩ := Option.bind_eq_some_iff.mp h
    obtain ⟨new, nodup⟩ := List.nodup_cons.mp nodup
    obtain ⟨lt, e, placed, others⟩ := updateRegion_spec (known base List.mem_cons_self) hu
    have cov : u.coverage = s.coverage := by rw [e]
    have other : ∀ r ∈ bases, Same s u r := by
      intro r mem
      apply others
      rintro rfl
      exact new mem
    obtain ⟨e', rest, same⟩ := ih nodup
      (fun r mem => (other r mem).known (known r (List.mem_cons_of_mem base mem))) h
    refine ⟨?_, ?_, ?_⟩
    · rw [e', e]
    · intro r mem
      cases List.mem_cons.mp mem with
      | inl first =>
        rw [first]
        exact ⟨lt, (same base new).placed placed⟩
      | inr mem =>
        obtain ⟨lt, placed⟩ := rest r mem
        rw [(other r mem).get] at lt
        rw [(other r mem).accEma cov] at placed
        exact ⟨lt, placed⟩
    · intro r not
      rw [List.mem_cons, not_or] at not
      exact (others r not.1).trans (same r not.2)

/-- The updates of known regions come to their end if all averages are below 500. -/
lemma run_updateRegion_isSome {bases : List Nat} (nodup : bases.Nodup)
    (known : ∀ base ∈ bases, Known p s base) (lt : ∀ base ∈ bases, s.ema.get base 0 < 500) :
    ∃ t, run (updateRegion p) s bases = some t := by
  induction bases generalizing s with
  | nil => exact ⟨s, rfl⟩
  | cons base bases ih =>
    obtain ⟨new, nodup⟩ := List.nodup_cons.mp nodup
    have first := known base List.mem_cons_self
    obtain ⟨u, hu⟩ := updateRegion_isSome first (lt base List.mem_cons_self)
    obtain ⟨_, _, _, others⟩ := updateRegion_spec first hu
    have other : ∀ r ∈ bases, Same s u r := by
      intro r mem
      apply others
      rintro rfl
      exact new mem
    rw [run_cons, hu]
    apply ih nodup
    · intro r mem
      exact (other r mem).known (known r (List.mem_cons_of_mem base mem))
    · intro r mem
      rw [(other r mem).get]
      exact lt r (List.mem_cons_of_mem base mem)

/-- The regions are visited that have been accessed. -/
lemma mem_order : base ∈ p.order s.coverage.keys ↔ base ∈ s.coverage :=
  (p.perm _).mem_iff

/-- No region is visited twice. -/
lemma nodup_order : (p.order s.coverage.keys).Nodup :=
  (p.perm _).nodup_iff.mpr s.coverage.nodupKeys

/-- Under the invariant, every region is known. -/
lemma Inv.known (inv : Inv p s) : Known p s base := by
  cases inv base with
  | inl placed => exact .inl placed.2
  | inr absent => exact .inr absent

/-- Under the invariant, a region that has not been accessed is in no bucket. -/
lemma Inv.absent (inv : Inv p s) (not : base ∉ s.coverage) : Absent s base := by
  cases inv base with
  | inl placed => exact absurd placed.1 not
  | inr absent => exact absent

/-- The first loop leaves every region of `coverage` in its bucket, and no other region in any. -/
theorem updateRegions_spec (inv : Inv p s) (h : updateRegions p s = some t) :
    t = { s with ema := t.ema, buckets := t.buckets } ∧
      (∀ base ∈ s.coverage, s.ema.get base 0 < 500 ∧ Placed p t base (accEma p s base)) ∧
      ∀ base ∉ s.coverage, Absent t base := by
  obtain ⟨e, placed, same⟩ := run_updateRegion_spec nodup_order (fun base _ => inv.known) h
  refine ⟨e, ?_, ?_⟩
  · intro base mem
    exact placed base (mem_order.mpr mem)
  · intro base not
    exact (same base fun mem => not (mem_order.mp mem)).absent (inv.absent not)

/-- The first loop leaves the array of the buckets if and only if an old average has reached 500. -/
theorem updateRegions_isSome (inv : Inv p s) :
    (∃ t, updateRegions p s = some t) ↔ ∀ base ∈ s.coverage, s.ema.get base 0 < 500 := by
  constructor
  · intro ⟨t, h⟩ base mem
    exact ((updateRegions_spec inv h).2.1 base mem).1
  · intro lt
    apply run_updateRegion_isSome nodup_order (fun base _ => inv.known)
    intro base mem
    exact lt base (mem_order.mp mem)

/-- The loop over the regions keeps the invariant. -/
lemma updateRegions_inv (inv : Inv p s) (h : updateRegions p s = some t) : Inv p t := by
  obtain ⟨e, placed, absent⟩ := updateRegions_spec inv h
  have cov : t.coverage = s.coverage := by rw [e]
  intro base
  by_cases mem : base ∈ s.coverage
  · rw [cov]
    exact .inl ⟨mem, _, (placed base mem).2⟩
  · exact .inr (absent base mem)

/-- What the second loop leaves alone. -/
structure Scanned (s t : State) : Prop where
  coverage : t.coverage = s.coverage
  buckets : t.buckets = s.buckets
  tracking : t.tracking = s.tracking
  currNumAccesses : t.currNumAccesses = s.currNumAccesses
  find : ∀ r e, s.ema.find r = some e → t.ema.find r = some e
  get : ∀ r, t.ema.get r 0 = s.ema.get r 0

/-- A scan of nothing. -/
lemma Scanned.refl (s : State) : Scanned s s := ⟨rfl, rfl, rfl, rfl, fun _ _ h => h, fun _ => rfl⟩

/-- Two scans, one after the other. -/
lemma Scanned.trans (h : Scanned s t) (h' : Scanned t u) : Scanned s u where
  coverage := h'.coverage.trans h.coverage
  buckets := h'.buckets.trans h.buckets
  tracking := h'.tracking.trans h.tracking
  currNumAccesses := h'.currNumAccesses.trans h.currNumAccesses
  find r e known := h'.find r e (h.find r e known)
  get r := (h'.get r).trans (h.get r)

/-- A scan moves no region to another bucket. -/
lemma Scanned.placed (scanned : Scanned s t) (placed : Placed p s r e) : Placed p t r e where
  ema := scanned.find r e placed.ema
  kept := placed.kept
  nonneg := placed.nonneg
  le := placed.le
  count b := by rw [scanned.buckets, placed.count]

/-- A scan brings no region into a bucket. -/
lemma Scanned.absent (scanned : Scanned s t) (absent : Absent s r) : Absent t r where
  ema := (scanned.get r).trans absent.ema
  count b := by rw [scanned.buckets, absent.count]

/-- A scan keeps the invariant. -/
lemma Scanned.inv (scanned : Scanned s t) (inv : Inv p s) : Inv p t := by
  intro base
  cases inv base with
  | inl placed =>
    obtain ⟨mem, e, placed⟩ := placed
    rw [scanned.coverage]
    exact .inl ⟨mem, e, scanned.placed placed⟩
  | inr absent => exact .inr (scanned.absent absent)

/-- There is an entry at position `idx` of a bucket. -/
def InBucket (s : State) (bucketIdx : Int) (idx : Nat) : Prop :=
  ∃ b, index bucketIdx = some b ∧ idx < (s.buckets b).length

/-- The entries that are left depend on the buckets alone. -/
lemma entriesFrom_congr (h : t.buckets = s.buckets) (n idx : Nat) :
    t.entriesFrom n idx = s.entriesFrom n idx := by
  induction n generalizing idx with
  | zero => simp only [State.entriesFrom, h]
  | succ n ih => simp only [State.entriesFrom, h, ih]

/-- One entry less is left after the one at a position. -/
lemma entriesFrom_succ {n idx : Nat} (here : InBucket s n idx) :
    s.entriesFrom n idx = s.entriesFrom n (idx + 1) + 1 := by
  obtain ⟨b, hb, lt⟩ := here
  cases n with
  | zero =>
    have hb : index 0 = some b := hb
    simp only [State.entriesFrom, hb, Option.elim_some]
    omega
  | succ n =>
    simp only [State.entriesFrom, hb, Option.elim_some]
    omega

/-- The inner loop stops before the first bucket or at the next entry, and passes over empty buckets only. -/
lemma skipFrom_spec (s : State) {n : Nat} (idx : Nat) (lt : n < 10) :
    ∃ i j, skipFrom s n idx = some (i, j) ∧
    (i = -1 ∨ ∃ m : Nat, i = m ∧ m ≤ n ∧ InBucket s m j ∧
      s.entriesFrom m j = s.entriesFrom n idx) := by
  induction n generalizing idx with
  | zero =>
    obtain ⟨b, hb⟩ : ∃ b, index 0 = some b := index_isSome.mpr (by omega)
    rw [skipFrom, hb]
    rcases Nat.lt_or_ge idx (s.buckets b).length with here | past
    · exact ⟨0, idx, by simp [Nat.not_le.mpr here], .inr ⟨0, rfl, Nat.le_refl 0, ⟨b, hb, here⟩, rfl⟩⟩
    · exact ⟨-1, 0, by simp [past], .inl rfl⟩
  | succ n ih =>
    obtain ⟨b, hb⟩ : ∃ b, index (n + 1 : Nat) = some b := index_isSome.mpr (by omega)
    rw [skipFrom, hb]
    rcases Nat.lt_or_ge idx (s.buckets b).length with here | past
    · exact ⟨_, idx, by simp [Nat.not_le.mpr here],
        .inr ⟨n + 1, rfl, Nat.le_refl _, ⟨b, hb, here⟩, rfl⟩⟩
    · obtain ⟨i, j, e, stop⟩ := ih 0 (by omega)
      refine ⟨i, j, by simp [past, e], ?_⟩
      cases stop with
      | inl none => exact .inl none
      | inr next =>
        obtain ⟨m, hm, le, here, left⟩ := next
        refine .inr ⟨m, hm, by omega, here, ?_⟩
        rw [left, State.entriesFrom, hb, Option.elim_some]
        omega

/-- A candidate does not change any average. -/
lemma scanned_promote (s : State) (base : Nat) (bucketIdx : Int) :
    Scanned s (s.promote base bucketIdx) where
  coverage := rfl
  buckets := rfl
  tracking := rfl
  currNumAccesses := rfl
  find r e known := by
    show (s.ema.subscript base 0).find r = some e
    rw [UnorderedMap.find_subscript]
    split
    case isTrue same => rw [UnorderedMap.get, ← same, known, Option.getD_some]
    case isFalse => exact known
  get r := UnorderedMap.get_subscript _ _ _ _

/-- An iteration of the scan that gets something to read ends the loop or moves on to the next entry. -/
lemma scanStep_spec {c : Scan} {n : Nat} (here : c.bucketIdx = n) (lt : n < 10)
    (read : readBucket p c.sim c.bucketIdx c.idx = some base) :
    (∃ t, scanStep p c = some (.inl t) ∧ Scanned c.sim t) ∨
      ∃ c' m, scanStep p c = some (.inr c') ∧ Scanned c.sim c'.sim ∧ c'.bucketIdx = (m : Nat) ∧
        m < 10 ∧ InBucket c'.sim m c'.idx ∧
        c'.sim.entriesFrom m c'.idx = c.sim.entriesFrom n (c.idx + 1) := by
  have scanned := scanned_promote c.sim base c.bucketIdx
  obtain ⟨i, j, hskip, stop⟩ :=
    skipFrom_spec (c.sim.promote base c.bucketIdx) (c.idx + 1) lt
  have hskip : skip (c.sim.promote base c.bucketIdx) c.bucketIdx (c.idx + 1) = some (i, j) := by
    rw [here] at hskip ⊢
    exact hskip
  simp only [scanStep, read, hskip, Option.bind_eq_bind, Option.bind_some]
  cases stop with
  | inl none =>
    rw [none]
    exact .inl ⟨_, rfl, scanned.trans ⟨rfl, rfl, rfl, rfl, fun _ _ h => h, fun _ => rfl⟩⟩
  | inr next =>
    obtain ⟨m, rfl, le, entry, left⟩ := next
    have left' := left.trans (entriesFrom_congr scanned.buckets n (c.idx + 1))
    rw [if_neg (by omega)]
    exact .inr ⟨_, m, rfl, scanned, rfl, by omega, entry, left'⟩

/-- An entry that is there is read. -/
lemma readBucket_of_inBucket {bucketIdx : Int} {idx : Nat} (here : InBucket s bucketIdx idx) :
    ∃ base, readBucket p s bucketIdx idx = some base := by
  obtain ⟨b, hb, lt⟩ := here
  simp only [readBucket, hb, Option.bind_eq_bind, Option.bind_some, List.getElem?_eq_getElem lt]
  exact ⟨_, rfl⟩

/-- From an entry on, the scan ends, and it survives. -/
lemma scanLoop_isSome {fuel : Nat} {c : Scan} {n : Nat} (here : c.bucketIdx = n) (lt : n < 10)
    (entry : InBucket c.sim n c.idx) (enough : c.sim.entriesFrom n c.idx < fuel) :
    ∃ t, scanLoop p fuel c = some t := by
  induction fuel generalizing c n with
  | zero => omega
  | succ fuel ih =>
    rw [scanLoop]
    split
    case isFalse => exact ⟨_, rfl⟩
    case isTrue =>
      obtain ⟨base, read⟩ := readBucket_of_inBucket (p := p) entry
      rw [← here] at read
      rcases scanStep_spec here lt read with ⟨t, e, _⟩ | ⟨c', m, e, _, here', lt', entry', left⟩
      · rw [e]
        exact ⟨t, rfl⟩
      · rw [e]
        apply ih here' lt' entry'
        rw [entriesFrom_succ entry] at enough
        omega

/-- The scan ends, and it survives if its first read does. -/
theorem scan_isSome (read : readBucket p s 9 0 = some base) : ∃ t, scan p s = some t := by
  rw [scan, scanLoop]
  split
  case isFalse => exact ⟨_, rfl⟩
  case isTrue =>
    have here : (scanStart s).bucketIdx = (9 : Nat) := rfl
    rcases scanStep_spec here (by omega) read with ⟨t, e, _⟩ | ⟨c', m, e, _, here', lt', entry', left⟩
    · rw [e]
      exact ⟨t, rfl⟩
    · rw [e]
      apply scanLoop_isSome here' lt' entry'
      rw [left]
      have le : s.entriesFrom 9 (0 + 1) ≤ s.entriesFrom 9 0 := by
        simp only [State.entriesFrom]
        omega
      exact Nat.lt_succ_of_le le

/-- The state after an iteration. -/
def Scan.after : State ⊕ Scan → State
  | .inl s => s
  | .inr c => c.sim

/-- A step of the scan changes nothing but what is promoted and printed. -/
lemma scanStep_scanned {c : Scan} {r : State ⊕ Scan} (h : scanStep p c = some r) :
    Scanned c.sim (Scan.after r) := by
  simp only [scanStep, Option.bind_eq_bind, Option.bind_eq_some_iff] at h
  obtain ⟨base, _, next, _, h⟩ := h
  have scanned := scanned_promote c.sim base c.bucketIdx
  split at h
  · obtain rfl := Option.some.inj h
    exact scanned.trans ⟨rfl, rfl, rfl, rfl, fun _ _ h => h, fun _ => rfl⟩
  · obtain rfl := Option.some.inj h
    exact scanned

/-- Neither does the whole scan. -/
lemma scanLoop_scanned {fuel : Nat} {c : Scan} (h : scanLoop p fuel c = some t) :
    Scanned c.sim t := by
  induction fuel generalizing c with
  | zero => cases h
  | succ fuel ih =>
    rw [scanLoop] at h
    split at h
    · obtain ⟨r, hr, h⟩ := Option.bind_eq_some_iff.mp h
      have scanned := scanStep_scanned hr
      cases r with
      | inl u =>
        obtain rfl := Option.some.inj h
        exact scanned
      | inr c' => exact scanned.trans (ih h)
    · obtain rfl := Option.some.inj h
      exact Scanned.refl _

/-- The second loop keeps the buckets and the averages. -/
theorem scan_scanned (h : scan p s = some t) : Scanned s t := scanLoop_scanned h

/-- The header of a window is printed. -/
def State.header (s : State) : State := { s with cout := s.cout ++ [.regions s.totalNumAccesses] }

/-- The regions are updated first, and then scanned. -/
lemma summarize_eq : summarize p s = (updateRegions p s.header).bind (scan p) := rfl

/-- The invariant holds on where no region changes. -/
lemma Inv.mono (inv : Inv p s) (cov : ∀ r, r ∈ s.coverage → r ∈ t.coverage)
    (same : ∀ r, Same s t r) : Inv p t := by
  intro r
  cases inv r with
  | inl placed =>
    obtain ⟨mem, e, placed⟩ := placed
    exact .inl ⟨cov r mem, e, (same r).placed placed⟩
  | inr absent => exact .inr ((same r).absent absent)

/-- The header that is printed does not touch the invariant. -/
lemma Inv.header (inv : Inv p s) : Inv p s.header :=
  inv.mono (fun _ mem => mem) fun _ => ⟨rfl, fun _ => rfl⟩

/-- Every region of `coverage` has been put into its bucket, and everything else of the sampling is
    unchanged. -/
theorem summarize_spec (inv : Inv p s) (h : summarize p s = some t) :
    Inv p t ∧ t.coverage = s.coverage ∧ t.tracking = s.tracking ∧
      t.currNumAccesses = s.currNumAccesses ∧
      ∀ base ∈ s.coverage, s.ema.get base 0 < 500 ∧ Placed p t base (accEma p s base) := by
  obtain ⟨u, hu, hscan⟩ := Option.bind_eq_some_iff.mp h
  have scanned := scan_scanned hscan
  obtain ⟨e, placed, _⟩ := updateRegions_spec inv.header hu
  refine ⟨scanned.inv (updateRegions_inv inv.header hu), ?_, ?_, ?_, ?_⟩
  · rw [scanned.coverage, e]
    rfl
  · rw [scanned.tracking, e]
    rfl
  · rw [scanned.currNumAccesses, e]
    rfl
  · intro base mem
    obtain ⟨lt, placed⟩ := placed base mem
    exact ⟨lt, scanned.placed placed⟩

/-- The scan starts at the top bucket, which holds the regions with an average of at least 450. -/
lemma inBucket_iff (inv : Inv p s) (h : updateRegions p s = some t) :
    InBucket t 9 0 ↔ ∃ base ∈ s.coverage, 450 ≤ accEma p s base := by
  obtain ⟨_, placed, absent⟩ := updateRegions_spec inv h
  obtain ⟨b, hb⟩ : ∃ b, index 9 = some b := index_isSome.mpr (by omega)
  have nine : (b : Int) = 9 := (index_eq_some.mp hb).symm
  -- whether a region is in the top bucket
  have top : ∀ base, base ∈ t.buckets b ↔ base ∈ s.coverage ∧ 450 ≤ accEma p s base := by
    intro base
    by_cases mem : base ∈ s.coverage
    · obtain ⟨_, placed⟩ := placed base mem
      have floor : 9 ≤ ⌊accEma p s base / 50⌋ ↔ 450 ≤ accEma p s base := by
        rw [Int.le_floor]
        constructor <;> intro h <;> norm_num at h ⊢ <;> linarith
      rw [← List.count_pos_iff, placed.count, nine, ← floor]
      split <;> simp [mem] <;> omega
    · refine iff_of_false ?_ fun h => mem h.1
      exact List.count_eq_zero.mp ((absent base mem).count b)
  constructor
  · intro ⟨c, hc, pos⟩
    obtain rfl := Option.some.inj (hb.symm.trans hc)
    obtain ⟨base, mem⟩ := List.exists_mem_of_length_pos pos
    exact ⟨base, (top base).mp mem⟩
  · intro ⟨base, high⟩
    exact ⟨b, hb, List.length_pos_of_mem ((top base).mpr high)⟩

/-- `summarize` survives if no average has reached 500 before and one is at least 450 now. -/
lemma summarize_isSome (inv : Inv p s) (lt : ∀ base ∈ s.coverage, s.ema.get base 0 < 500)
    (high : ∃ base ∈ s.coverage, 450 ≤ accEma p s base) : ∃ t, summarize p s = some t := by
  obtain ⟨u, hu⟩ := (updateRegions_isSome (p := p) inv.header).mpr lt
  obtain ⟨base, read⟩ := readBucket_of_inBucket (p := p) ((inBucket_iff inv.header hu).mpr high)
  obtain ⟨t, ht⟩ := scan_isSome read
  exact ⟨t, by rw [summarize_eq, hu]; exact ht⟩

end
end PromotionCache.Hawkeye
