import PromotionCache.Hawkeye.Windows
import Mathlib.Algebra.BigOperators.Group.Finset.Piecewise
import Mathlib.Algebra.BigOperators.Fin

/-!
# The buckets over whole runs

What `summarize` keeps up from window to window. A region with an average of 500 or more is put into the
top bucket and looked for in the one after it, and the scan reads the top bucket before it has asked
whether there is anything in it.
-/

namespace PromotionCache.Hawkeye
open Lib Tlb Pcc

/-- Every region of `coverage` is in the buckets once, in the bucket of its average. -/
def Consistent (s : State) : Prop :=
  ∀ base ∈ s.coverage, ∑ b, (s.buckets b).count base = 1 ∧
    ∃ e, s.ema.find base = some e ∧ 0 ≤ e ∧ e ≤ 512 ∧
      ∃ b : Fin numBuckets, (b : Int) = min 9 ⌊e / 50⌋ ∧ base ∈ s.buckets b

/-- At every call of `summarize` the first loop stays within the array of the buckets, and the buckets are
    consistent afterwards. -/
def BucketInvariant (p : Platform) (cfg : Config) (as : List UInt64) : Prop :=
  ∀ pre a s m, pre ++ [a] <+: as → simulate p cfg pre = some s → Summarizes cfg s a m →
    (∃ u, updateRegions p m.header = some u) ∧ ∀ t, summarize p m = some t → Consistent t

/-- The values of the variables when an iteration of the scan begins. -/
inductive Iteration (p : Platform) (u : State) : Scan → Prop where
  | start : Iteration p u (scanStart u)
  | next {c c' : Scan} (before : Iteration p u c) (lt : c.numPromotions < maxNumPromotions)
      (st : scanStep p c = some (.inr c')) : Iteration p u c'

/-- The scan reads entries of buckets only. -/
def ReadsInBounds (p : Platform) (u : State) : Prop :=
  ∀ c, Iteration p u c → c.numPromotions < maxNumPromotions →
    (0 ≤ c.bucketIdx ∧ c.bucketIdx < numBuckets) ∧ InBucket c.sim c.bucketIdx c.idx

/-- At every call of `summarize`, `buckets[bucket_idx][idx]` is an entry of a bucket whenever it is read. -/
def ScanInBounds (p : Platform) (cfg : Config) (as : List UInt64) : Prop :=
  ∀ pre a s m u, pre ++ [a] <+: as → simulate p cfg pre = some s → Summarizes cfg s a m →
    updateRegions p m.header = some u → ∀ c, Iteration p u c → c.numPromotions < maxNumPromotions →
      (0 ≤ c.bucketIdx ∧ c.bucketIdx < numBuckets) ∧ InBucket c.sim c.bucketIdx c.idx

section
variable {p : Platform} {cfg : Config} {s t m u : State} {a : UInt64} {as : List UInt64}
  {base r v : Nat} {e : ℚ}

/-- A placed region stands in one bucket, that of its average. -/
lemma Placed.consistent (placed : Placed p s base e) : ∑ b, (s.buckets b).count base = 1 ∧
    ∃ e, s.ema.find base = some e ∧ 0 ≤ e ∧ e ≤ 512 ∧
      ∃ b : Fin numBuckets, (b : Int) = min 9 ⌊e / 50⌋ ∧ base ∈ s.buckets b := by
  have nonneg := floor_nonneg placed.nonneg
  obtain ⟨b, hb⟩ : ∃ b, index (min 9 ⌊e / 50⌋) = some b := index_isSome.mpr (by omega)
  have bucket := index_eq_some.mp hb
  have count : ∀ c, (s.buckets c).count base = if b = c then 1 else 0 := by
    intro c
    rw [placed.count, bucket]
    simp [Fin.ext_iff, eq_comm]
  refine ⟨?_, e, placed.ema, placed.nonneg, placed.le, b, bucket.symm, ?_⟩
  · simp only [count, Finset.sum_ite_eq, Finset.mem_univ, if_true]
  · rw [← List.count_pos_iff, count, if_pos rfl]
    exact Nat.one_pos

/-- The buckets keep their invariant if and only if no region is in `coverage` with an average of 500 or more
    when `summarize` is called. -/
theorem bucketInvariant_iff : BucketInvariant p cfg as ↔
    ∀ pre a s m, pre ++ [a] <+: as → simulate p cfg pre = some s → Summarizes cfg s a m →
      ∀ base ∈ m.coverage, m.ema.get base 0 < 500 := by
  constructor
  · intro keeps pre a s m hpre hs summarizes
    have inv := summarizes.inv (simulate_valid hs)
    exact (updateRegions_isSome inv.header).mp (keeps pre a s m hpre hs summarizes).1
  · intro low pre a s m hpre hs summarizes
    have inv := summarizes.inv (simulate_valid hs)
    refine ⟨(updateRegions_isSome inv.header).mpr (low pre a s m hpre hs summarizes), ?_⟩
    intro t ht base mem
    obtain ⟨_, cov, _, _, placed⟩ := summarize_spec inv ht
    rw [cov] at mem
    exact (placed base mem).2.consistent

/-- A platform without rounding. -/
def ideal : Platform := { plain with toArithmetic := exactly }

/-- A region of which all 512 pages are touched in the first window goes into bucket 9. In the second one it is
    looked for in bucket 10. -/
theorem bucket_out_of_range : ¬ BucketInvariant ideal ⟨128, 1, 512, 0.9⟩ (sweep 511 1536) := by
  intro keeps
  have period : (⟨128, 1, 512, 0.9⟩ : Config).period = 512 := rfl
  have interval : (⟨128, 1, 512, 0.9⟩ : Config).accessInterval.toNat = 512 := rfl
  obtain ⟨s, hs, _, _, after⟩ : ∃ s, simulate ideal ⟨128, 1, 512, 0.9⟩ (sweep 511 1535) = some s ∧ _ :=
    simulate_sweep (by omega) (by omega) (by omega) (by omega) (by omega)
  have clock := simulate_clock (by omega) hs
  rw [length_sweep] at clock
  obtain ⟨d, hd⟩ := clock.due_isSome (.inr (by omega))
  obtain rfl : d = true := (clock.due (by omega) hd).mpr ⟨1, by omega⟩
  obtain ⟨mem, known⟩ := after (by omega)
  obtain ⟨m, summarizes⟩ : ∃ m, Summarizes ⟨128, 1, 512, 0.9⟩ s
    (UInt64.ofNat (pageSize * min 1535 511)) m := ⟨_, hd, rfl⟩
  have inv := summarizes.inv (simulate_valid hs)
  have survives := (keeps _ _ s m (by rw [← sweep_succ]) hs summarizes).1
  have here : 0 ∈ m.coverage := by
    rw [summarizes.2]
    exact mem_cover.mpr (.inr mem)
  have lt : m.ema.get 0 0 < 500 := (updateRegions_isSome inv.header).mp survives 0 here
  rw [summarizes.ema, UnorderedMap.get, known] at lt
  norm_num at lt

/-- Every iteration after the first begins at an entry. -/
lemma Iteration.inBucket {c : Scan} (h : Iteration p u c) :
    ∃ n : Nat, c.bucketIdx = n ∧ n < 10 ∧ (c = scanStart u ∨ InBucket c.sim n c.idx) := by
  induction h with
  | start => exact ⟨9, rfl, by omega, .inl rfl⟩
  | @next c c' _ _ st ih =>
    obtain ⟨n, here, lt, _⟩ := ih
    obtain ⟨base, read, _⟩ := Option.bind_eq_some_iff.mp st
    rcases scanStep_spec here lt read with ⟨t, e, _⟩ | ⟨d, m, e, _, here', lt', entry, _⟩
    · rw [st] at e
      cases e
    · rw [st] at e
      obtain rfl := Sum.inr.inj (Option.some.inj e)
      exact ⟨m, here', lt', .inr entry⟩

/-- All depends on the first read. -/
lemma readsInBounds_iff : ReadsInBounds p u ↔ InBucket u 9 0 := by
  constructor
  · exact fun bounds => (bounds _ .start (Nat.zero_lt_succ 7)).2
  · intro top c iter _
    obtain ⟨n, here, lt, start | entry⟩ := iter.inBucket
    · rw [start]
      exact ⟨⟨Int.le.intro 9 rfl, Int.lt.intro (n := 0) rfl⟩, top⟩
    · rw [here]
      exact ⟨⟨by omega, by unfold numBuckets; omega⟩, entry⟩

/-- The scan reads entries of buckets only if and only if, whenever it starts, some region has an average of at
    least 450. -/
theorem scanInBounds_iff : ScanInBounds p cfg as ↔
    ∀ pre a s m u, pre ++ [a] <+: as → simulate p cfg pre = some s → Summarizes cfg s a m →
      updateRegions p m.header = some u → ∃ base ∈ m.coverage, 450 ≤ accEma p m base := by
  constructor
  · intro bounds pre a s m u hpre hs summarizes hu
    have inv := summarizes.inv (simulate_valid hs)
    have first := (bounds pre a s m u hpre hs summarizes hu _ .start (Nat.zero_lt_succ 7)).2
    exact (inBucket_iff inv.header hu).mp first
  · intro high pre a s m u hpre hs summarizes hu
    have inv := summarizes.inv (simulate_valid hs)
    exact readsInBounds_iff.mpr ((inBucket_iff inv.header hu).mpr (high pre a s m u hpre hs summarizes hu))

/-- After a single access of a window of one access all buckets but the first are empty. -/
theorem read_past_end : ¬ ScanInBounds plain ⟨128, 1, 1, 0.9⟩ [0] := by
  intro bounds
  obtain ⟨m, summarizes⟩ : ∃ m, Summarizes ⟨128, 1, 1, 0.9⟩ init 0 m := ⟨_, rfl, rfl⟩
  have inv := summarizes.inv (p := plain) simulate_nil_inv
  have low : ∀ base ∈ m.coverage, m.ema.get base 0 < 500 := by
    intro base _
    rw [summarizes.ema]
    show (0 : ℚ) < 500
    norm_num
  obtain ⟨u, hu⟩ := (updateRegions_isSome (p := plain) inv.header).mpr low
  have first := (bounds [] 0 init m u (List.prefix_refl _) rfl summarizes hu _ .start
    (Nat.zero_lt_succ 7)).2
  obtain ⟨base, _, high⟩ := (inBucket_iff inv.header hu).mp first
  -- one page at most has been touched
  have card : (m.pages base).card ≤ 1 := by
    rw [summarizes.2, pages_cover]
    split
    · exact Finset.card_insert_le _ _
    · exact Nat.zero_le _
  have le : ((m.pages base).card : ℚ) ≤ 1 := by exact_mod_cast card
  have average : accEma plain m.header base = (m.pages base).card := by
    rw [accEma, if_neg]
    · rfl
    · have ema : m.header.ema = UnorderedMap.empty := summarizes.ema
      rw [ema]
      exact Bool.false_ne_true
  rw [average] at high
  linarith

end
end PromotionCache.Hawkeye
