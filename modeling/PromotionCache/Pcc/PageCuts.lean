import PromotionCache.Pcc.Evictions

/-!
# Sets and tags

The operations of `FunctionalCache` cut set and tag out of an address, each with a text of its own and all with the
shift `1 << 64`, which has no value in C++. Where the product `PROMOTION_CACHE_SIZE*PAGE_SIZE` fits into its 32 bits
they agree, find a set, and tell all pages apart (`cutsPages_iff`); elsewhere the promotion cache is built without
sets.
-/

namespace PromotionCache.Tlb.FunctionalCache

/-- The operations that look for the set of an address. -/
inductive Operation where
  | access
  | insert
  | evict
  | getFreq

/-- `tag` and `setid` in an operation, where `wide` is the value of `1 << 64`. -/
def cut (wide : Nat) (c : FunctionalCache) (op : Operation) (address : Nat) (is2M : Bool) : Nat × Nat :=
  let logPofs := c.logPofs is2M
  let setid :=
    match op with
    | .access => extractWith wide (c.logSetCount + logPofs - 1) logPofs address
    | .insert | .evict | .getFreq => extractWith wide (c.logSetCount - 1 + logPofs) logPofs address
  (extractWith wide 63 (c.logSetCount + logPofs) address, setid)

/-- The size of the pages that an operation looks at. -/
def pageBytes (c : FunctionalCache) (is2M : Bool) : Nat := if is2M then hugePageSize else c.cacheLineSize

/-- All operations cut an address into the same tag and the number of a set, and these are the same for two
    addresses if and only if the addresses lie in one page. -/
structure CutsPages (c : FunctionalCache) : Prop where
  alike : ∀ {wide wide'}, wide ≤ 1 → wide' ≤ 1 → ∀ (op op' : Operation) (a : UInt64) (is2M : Bool),
    c.cut wide op a.toNat is2M = c.cut wide' op' a.toNat is2M
  inRange : ∀ {wide}, wide ≤ 1 → ∀ (op : Operation) (a : UInt64) (is2M : Bool),
    (c.cut wide op a.toNat is2M).2 < c.sets.length
  pages : ∀ {wide}, wide ≤ 1 → ∀ (op : Operation) (a b : UInt64) (is2M : Bool),
    c.cut wide op a.toNat is2M = c.cut wide op b.toNat is2M ↔
      a.toNat / c.pageBytes is2M = b.toNat / c.pageBytes is2M

section
variable {g : Geometry} {c : FunctionalCache} {wide : Nat} {op : Operation} {is2M : Bool}

/-- The texts differ in the order of an addition. -/
lemma cut_setid (op : Operation) (a : Nat) : (c.cut wide op a is2M).2 =
    extractWith wide (c.logSetCount + c.logPofs is2M - 1) (c.logPofs is2M) a := by
  have order : (c.logSetCount : Int) - 1 + c.logPofs is2M = c.logSetCount + c.logPofs is2M - 1 := by omega
  cases op with
  | access => rfl
  | insert | evict | getFreq =>
    rw [← order]
    rfl

/-- Tag and set make up the page number, whatever the shift out of range gives. -/
lemma Valid.cut (v : c.Valid g) (fits : g.Fits) (ho : wide ≤ 1) (op : Operation) {a : Nat} (ha : a < 2 ^ 64) :
    c.cut wide op a is2M =
      (pageNumber g.logLine is2M a / 2 ^ g.logSets, pageNumber g.logLine is2M a % 2 ^ g.logSets) := by
  have h := fits.line
  have h' := fits.huge
  have e : hugePageSize.log2 = 21 := by decide
  refine Prod.ext ?_ ?_
  · show extractWith wide 63 (c.logSetCount + c.logPofs is2M) a = _
    unfold logPofs pageNumber
    rw [v.logSets, v.logLine, e]
    cases is2M
    · exact extract_tag fits.pos h ho ha
    · exact extract_tag (m := 21) (by decide) h' ho ha
  · rw [cut_setid]
    unfold logPofs pageNumber
    rw [v.logSets, v.logLine, e]
    cases is2M
    · exact extract_bits (by simp; omega)
    · exact extract_bits (by simp; omega)

/-- A cache with enough sets, and with a power of two as the size of its lines. -/
lemma Valid.cutsPages (v : c.Valid g) (fits : g.Fits) (sets : 2 ^ g.logSets ≤ g.sets)
    (line : c.cacheLineSize = 2 ^ g.logLine) : c.CutsPages where
  alike ho ho' op op' a is2M := by
    rw [v.cut fits ho op a.toNat_lt, v.cut fits ho' op' a.toNat_lt]
  inRange ho op a is2M := by
    have len : c.sets.length = g.sets := congrArg Geometry.sets v.geometry
    rw [v.cut fits ho op a.toNat_lt, len]
    exact Nat.lt_of_lt_of_le (Nat.mod_lt _ (Nat.two_pow_pos _)) sets
  pages ho op a b is2M := by
    have number : ∀ a, a / c.pageBytes is2M = pageNumber g.logLine is2M a := by
      intro a
      unfold pageBytes pageNumber
      rw [line]
      cases is2M <;> rfl
    rw [v.cut fits ho op a.toNat_lt, v.cut fits ho op b.toNat_lt, number, number, Prod.mk.injEq]
    constructor
    · rintro ⟨tag, setid⟩
      rw [← Nat.div_add_mod (pageNumber g.logLine is2M a.toNat) (2 ^ g.logSets), tag, setid, Nat.div_add_mod]
    · intro e
      rw [e]
      exact ⟨rfl, rfl⟩

end
end PromotionCache.Tlb.FunctionalCache

namespace PromotionCache.Pcc
open Lib Tlb

section
variable {cfg : Config} {core : Core}

/-- The promotion cache has a set if and only if its size in bytes is a number of 32 bits. -/
lemma pcc_sets (init : initCore cfg = some core) :
    core.promotionCache.sets.length = if cfg.promotionCacheSize.toNat < 2 ^ 20 then 1 else 0 := by
  have pos := initCore_pos init
  have lt := cfg.promotionCacheSize.toNat_lt
  simp only [initCore, Option.bind_eq_bind, Option.bind_eq_some_iff] at init
  obtain ⟨_, _, _, _, _, _, cPcc, hPcc, init⟩ := init
  obtain rfl := Option.some.inj init
  obtain ⟨sets, _, _, count⟩ := FunctionalCache.new_inv hPcc
  dsimp only
  rw [sets, List.length_replicate]
  rcases pccCount pos lt rfl count with ⟨big, zero⟩ | ⟨small, one, _⟩
  · rw [if_neg (Nat.not_lt.mpr big), zero]
  · rw [if_pos small, one]
    rfl

/-- The caches of `promotion_cache_init` cut addresses into pages if and only if the size of the promotion cache in
    bytes is a number of 32 bits. -/
theorem cutsPages_iff (init : initCore cfg = some core) :
    (∀ c ∈ core.caches, c.CutsPages) ↔ cfg.promotionCacheSize.toNat < 2 ^ 20 := by
  have count := pcc_sets init
  obtain ⟨⟨g, valid⟩, _, _⟩ := initCore_spec (initCore_pos init) init
  have len : core.promotionCache.sets.length = g.sets := congrArg Geometry.sets valid.promotionCache.geometry
  constructor
  · intro cuts
    have inRange := (cuts core.promotionCache (by simp [Core.caches])).inRange (Nat.zero_le 1) .access 0 false
    by_contra big
    rw [if_neg big] at count
    omega
  · intro small
    rw [if_pos small, len] at count
    have log := valid.geometry.logSets
    have line := valid.geometry.logLine
    simp only [initCore, Option.bind_eq_bind, Option.bind_eq_some_iff] at init
    obtain ⟨c4k, h4k, c2m, h2m, cL2, hL2, cPcc, hPcc, init⟩ := init
    obtain rfl := Option.some.inj init
    intro c mem
    simp only [Core.caches, List.mem_cons, List.not_mem_nil, or_false] at mem
    obtain rfl | rfl | rfl | rfl := mem
    · exact valid.l1Tlb4k.cutsPages fits4k (by decide) (new_lineSize h4k)
    · exact valid.l1Tlb2m.cutsPages fits2m (by decide) (new_lineSize h2m)
    · exact valid.l2Tlb.cutsPages fitsL2 (by decide) (new_lineSize hL2)
    · exact valid.promotionCache.cutsPages valid.geometry.fits (by rw [log, count]; decide)
        (by rw [new_lineSize hPcc, line]; rfl)

/-- The promotion cache of 128 lines. -/
theorem cutsPages_iff_shipped : ∃ core, initCore shipped = some core ∧
    ((∀ c ∈ core.caches, c.CutsPages) ↔ shipped.promotionCacheSize.toNat < 2 ^ 20) := by
  cases init : initCore shipped with
  | none => exact absurd init (by decide +kernel)
  | some core => exact ⟨core, rfl, cutsPages_iff init⟩

/-- The values of `common.h`, with a promotion cache of `2 ^ 20` lines. -/
def vast : Config := { shipped with promotionCacheSize := 1048576 }

/-- `2 ^ 20` lines of `2 ^ 12` bytes are `2 ^ 32` bytes, which 32 bits say as 0: the cache has no set. -/
theorem vast_not_cutsPages : ∃ core, initCore vast = some core ∧ ¬ ∀ c ∈ core.caches, c.CutsPages := by
  cases init : initCore vast with
  | none => exact absurd init (by decide +kernel)
  | some core =>
    refine ⟨core, rfl, fun cuts => ?_⟩
    have inRange := (cuts core.promotionCache (by simp [Core.caches])).inRange (Nat.zero_le 1) .access 0 false
    rw [pcc_sets init, if_neg (by decide)] at inRange
    exact Nat.not_lt_zero _ inRange

end
end PromotionCache.Pcc
