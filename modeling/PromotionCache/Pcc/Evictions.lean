import PromotionCache.Pcc.TrackSpec
import PromotionCache.Tlb.LineUses

/-!
# The addresses of evicted lines

Of the caches of a thread all but the L2 TLB have a power of two as the number of sets, so that `insert` puts
the address of the line that it evicts together as it was cut. In the L2 TLB, with 170 sets of which 128 are
selected, that goes wrong for every line with a tag other than 0.
-/

namespace PromotionCache.Pcc
open Lib Tlb

/-- The caches that `promotion_cache_init` builds. -/
def Core.caches (c : Core) : List FunctionalCache :=
  [c.l1Tlb4k, c.l1Tlb2m, c.l2Tlb, c.promotionCache]

/-- `*evictedAddr * line_size + *evictedOffset` is the address `b`. -/
def NamesUse (lineSize : Nat) (e : Evicted) (b : Nat) : Prop :=
  e.evictedTag * lineSize + e.evictedOffset = b

section
variable {cfg : Config} {core : Core} {c c' : FunctionalCache} {g : Geometry}

/-- A valid cache that holds nothing yet. -/
lemma sound_of_new {size lineSize policy : Nat} {assoc : Int} (valid : c.Valid g)
    (h : FunctionalCache.new size assoc lineSize policy = some c) :
    Traced.Sound g ⟨c, fun _ _ => 0⟩ := by
  obtain ⟨sets, _, _, _⟩ := FunctionalCache.new_inv h
  refine ⟨valid, ?_⟩
  intro i s hs p mem
  have hs : c.sets[i]? = some s := hs
  rw [sets] at hs
  rw [List.eq_of_mem_replicate (List.mem_of_getElem? hs), (CacheSet.wf_new _ _ _).recency] at mem
  cases mem

/-- What the constructor has stored as the size of a line. -/
lemma new_lineSize {size lineSize policy : Nat} {assoc : Int}
    (h : FunctionalCache.new size assoc lineSize policy = some c) : c.cacheLineSize = lineSize := by
  unfold FunctionalCache.new at h
  split at h
  · cases h
  · obtain rfl := Option.some.inj h
    rfl

/-- A cache that evicts has sets. -/
lemma sets_of_evicts {t : Traced} {a : UInt64} {b : Nat} (sound : t.Sound g)
    (evicts : t.evictedUse a = some b) : g.sets ≠ 0 := by
  simp only [Traced.evictedUse, Option.bind_eq_bind, Option.bind_eq_some_iff] at evicts
  obtain ⟨s, hs, _⟩ := evicts
  have lt := (List.getElem?_eq_some_iff.mp hs).1
  have len : t.cache.sets.length = g.sets := congrArg Geometry.sets sound.valid.geometry
  omega

/-- What an insertion reports names the last use of the evicted line if and only if the number of sets is the
    power of two that addresses are cut by, or the line has tag 0. -/
lemma namesUse_iff_of {uses : List Use} {t : Traced} {a : UInt64} {ld : Bool} {out e : Evicted} {b : Nat}
    (fits : g.Fits) (sound : Traced.Sound g ⟨c, fun _ _ => 0⟩) (line : c.cacheLineSize = 2 ^ g.logLine)
    (two : 2 ≤ g.logLine)
    (count : g.sets ≠ 0 → 2 ^ g.logSets ≤ g.setCount ∧ g.setCount < 2 * 2 ^ g.logSets)
    (hrun : run Traced.step ⟨c, fun _ _ => 0⟩ uses = some t)
    (ins : t.cache.insert a.toNat ld out false = some (c', e)) (evicts : t.evictedUse a = some b) :
    NamesUse c.cacheLineSize e b ↔ g.setCount = 2 ^ g.logSets ∨ b / 2 ^ g.logLine / 2 ^ g.logSets = 0 := by
  have sound' := sound.run fits hrun
  obtain ⟨lt, off, tag⟩ := sound'.reports fits ins evicts
  obtain ⟨le, less⟩ := count (sets_of_evicts sound' evicts)
  rw [NamesUse, off, tag, line, ← Traced.joined_iff lt two le less, Int.natCast_pow]
  rfl

/-- After every run of lookups and insertions of one of the caches, what an insertion reports of the line that
    it evicts is the address of the last use of this line, unless the cache is the L2 TLB and the address is
    not one of the first 128 pages. -/
theorem namesUse_iff (init : initCore cfg = some core) (mem : c ∈ core.caches) {uses : List Use} {t : Traced}
    (hrun : run Traced.step ⟨c, fun _ _ => 0⟩ uses = some t) {a : UInt64} {ld : Bool} {out e : Evicted}
    (ins : t.cache.insert a.toNat ld out false = some (c', e)) {b : Nat}
    (evicts : t.evictedUse a = some b) :
    NamesUse c.cacheLineSize e b ↔ c ≠ core.l2Tlb ∨ b < 128 * pageSize := by
  obtain ⟨⟨g, valid⟩, _, _⟩ := initCore_spec (initCore_pos init) init
  simp only [initCore, Option.bind_eq_bind, Option.bind_eq_some_iff] at init
  obtain ⟨c4k, h4k, c2m, h2m, cL2, hL2, cPcc, hPcc, init⟩ := init
  obtain rfl := Option.some.inj init
  have countL2 : cL2.setCount = 170 := congrArg Geometry.setCount valid.l2Tlb.geometry
  -- in the caches with a power of two of sets, all is well
  have others : ∀ {g : Geometry}, c.setCount ≠ 170 → (NamesUse c.cacheLineSize e b ↔
      g.setCount = 2 ^ g.logSets ∨ b / 2 ^ g.logLine / 2 ^ g.logSets = 0) → g.setCount = 2 ^ g.logSets →
      (NamesUse c.cacheLineSize e b ↔ c ≠ cL2 ∨ b < 128 * pageSize) := by
    intro g ne iff power
    refine iff_of_true (iff.mpr (.inl power)) (.inl ?_)
    rintro rfl
    exact ne countL2
  simp only [Core.caches, List.mem_cons, List.not_mem_nil, or_false] at mem
  obtain rfl | rfl | rfl | rfl := mem
  · have count : c.setCount = 16 := congrArg Geometry.setCount valid.l1Tlb4k.geometry
    refine others (g := geometry4k) (by omega) ?_ rfl
    exact namesUse_iff_of fits4k (sound_of_new valid.l1Tlb4k h4k) (new_lineSize h4k) (by decide)
      (fun _ => by decide) hrun ins evicts
  · have count : c.setCount = 8 := congrArg Geometry.setCount valid.l1Tlb2m.geometry
    refine others (g := geometry2m) (by omega) ?_ rfl
    exact namesUse_iff_of fits2m (sound_of_new valid.l1Tlb2m h2m) (new_lineSize h2m) (by decide)
      (fun _ => by decide) hrun ins evicts
  · rw [namesUse_iff_of fitsL2 (sound_of_new valid.l2Tlb hL2) (new_lineSize hL2) (by decide)
      (fun _ => by decide) hrun ins evicts]
    have small : b / 2 ^ geometryL2.logLine / 2 ^ geometryL2.logSets = 0 ↔ b < 128 * pageSize := by
      rw [Nat.div_div_eq_div_mul, Nat.div_eq_zero_iff_lt (by decide)]
      rfl
    rw [small]
    exact or_congr_left (iff_of_false (by decide) fun ne => ne rfl)
  · have sound := sound_of_new valid.promotionCache hPcc
    have count : c.setCount = g.setCount := congrArg Geometry.setCount valid.promotionCache.geometry
    have one := valid.geometry.setCount (sets_of_evicts (sound.run valid.geometry.fits hrun) evicts)
    have log := valid.geometry.logSets
    have line := valid.geometry.logLine
    refine others (g := g) (by omega) ?_ (by rw [one, log]; rfl)
    exact namesUse_iff_of valid.geometry.fits sound (by rw [new_lineSize hPcc, line]; rfl) (by omega)
      (fun _ => by rw [one, log]; decide) hrun ins evicts

/-- Insertions of the addresses `stride`, `2 * stride` and so on. -/
def strides (stride : Nat) (n : Nat) : List Use :=
  (List.range n).map fun i => .insert (.ofNat ((i + 1) * stride)) true ⟨false, -1, 0⟩

/-- After `n` insertions, what the next one leaves and reports, and the last use of the line that it evicts. -/
def nextEviction (c : FunctionalCache) (stride n : Nat) :
    Option (Traced × (FunctionalCache × Evicted) × Nat) := do
  let t ← run Traced.step ⟨c, fun _ _ => 0⟩ (strides stride n)
  let a := UInt64.ofNat ((n + 1) * stride)
  let r ← t.cache.insert a.toNat true ⟨false, -1, 0⟩ false
  let b ← t.evictedUse a
  some (t, r, b)

/-- The eviction that is found is one of the run over the strides. -/
lemma nextEviction_inv {stride n : Nat} {t : Traced} {r : FunctionalCache × Evicted} {b : Nat}
    (h : nextEviction c stride n = some (t, r, b)) :
    run Traced.step ⟨c, fun _ _ => 0⟩ (strides stride n) = some t ∧
      t.cache.insert (UInt64.ofNat ((n + 1) * stride)).toNat true ⟨false, -1, 0⟩ false = some r ∧
      t.evictedUse (.ofNat ((n + 1) * stride)) = some b := by
  simp only [nextEviction, Option.bind_eq_bind, Option.bind_eq_some_iff, Option.some.injEq,
    Prod.mk.injEq] at h
  obtain ⟨_, hrun, _, ins, _, evicts, rfl, rfl, rfl⟩ := h
  exact ⟨hrun, ins, evicts⟩

/-- In the 4KB L1 TLB the fifth page of a set evicts the first one. -/
theorem namesUse_iff_l1 : ∃ core t c e b, initCore shipped = some core ∧
    nextEviction core.l1Tlb4k (16 * pageSize) 4 = some (t, (c, e), b) ∧
      (NamesUse core.l1Tlb4k.cacheLineSize e b ↔ core.l1Tlb4k ≠ core.l2Tlb ∨ b < 128 * pageSize) := by
  have evicts : ((initCore shipped).bind fun core =>
      nextEviction core.l1Tlb4k (16 * pageSize) 4).isSome = true := by decide +kernel
  obtain ⟨⟨t, ⟨c, e⟩, b⟩, h⟩ := Option.isSome_iff_exists.mp evicts
  obtain ⟨core, init, h⟩ := Option.bind_eq_some_iff.mp h
  obtain ⟨hrun, ins, use⟩ := nextEviction_inv h
  exact ⟨core, t, c, e, b, init, h, namesUse_iff init List.mem_cons_self hrun ins use⟩

/-- In the L2 TLB the seventh page of a set evicts the first one, which is page 128, and reports page 170. -/
theorem evicted_address_wrong : ∃ core t c e b, initCore shipped = some core ∧
    nextEviction core.l2Tlb (128 * pageSize) 6 = some (t, (c, e), b) ∧
      ¬ NamesUse core.l2Tlb.cacheLineSize e b := by
  have evicts : ((initCore shipped).bind fun core =>
      (nextEviction core.l2Tlb (128 * pageSize) 6).map fun r => (core.l2Tlb.cacheLineSize, r.2.1.2, r.2.2)) =
        some (pageSize, ⟨false, 170, 0⟩, 128 * pageSize) := by decide +kernel
  obtain ⟨core, init, h⟩ := Option.bind_eq_some_iff.mp evicts
  obtain ⟨⟨t, ⟨c, e⟩, b⟩, h, found⟩ := Option.map_eq_some_iff.mp h
  obtain ⟨line, found⟩ := Prod.mk.inj found
  obtain ⟨report, use⟩ := Prod.mk.inj found
  refine ⟨core, t, c, e, b, init, h, ?_⟩
  dsimp only at line report use
  rw [NamesUse, line, report, use]
  decide

end

end PromotionCache.Pcc
