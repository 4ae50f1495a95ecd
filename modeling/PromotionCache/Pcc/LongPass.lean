import PromotionCache.Pcc.Shootdown
import PromotionCache.Pcc.Candidates
import PromotionCache.Tlb.SetTrail

/-!
# A pass with more than 512 candidates

A short trace promotes region 0, brings its translation back, and has region 1 enter the promotion cache
under number 0. Then 512 regions are accessed at two pages each. Every one of them enters the promotion
cache in front of number 0 (`Filled`), which is why the next pass demotes region 0 at position 512.
-/

namespace PromotionCache.Pcc.Single
open Lib Tlb Sim

section
variable {g : Geometry} {s t : Sim} {a : UInt64} {base n k m : Nat}

/-- A miss of a region that is not promoted brings its 4KB page into the TLBs, and nothing else. -/
lemma tlbHierarchy_unpromoted {miss : Bool} {a : Nat} (val : s.toCore.Valid g) (ha : a < 2 ^ 64)
    (misses : s.MissesTlbs a) (unprom : s.promoted (a / hugePageSize) = false)
    (h : s.tlbHierarchy a = some (miss, t)) :
    (∀ n, t.l1Tlb2m.Resident n ↔ s.l1Tlb2m.Resident n) ∧
      ∀ n, t.l2Tlb.Resident n → n = a / pageSize ∨ s.l2Tlb.Resident n := by
  obtain ⟨u, val₁, look, path⟩ := tlbHierarchy_path val ha h
  obtain ⟨missL1, miss4k, miss2m⟩ := misses
  cases path with
  | l1Hit hits => exact absurd hits missL1
  | l2Hit4k _ hits => exact absurd hits miss4k
  | l2Hit2m _ _ hits => exact absurd hits miss2m
  | miss _ hfill =>
    have prom : u.promoted (a / hugePageSize) = false := by
      rw [← unprom, Sim.promoted, look.frame.pccPromotions]
      rfl
    simp only [fillTlbs, prom, Bool.false_eq_true, if_false, Option.bind_eq_bind,
      Option.bind_eq_some_iff] at hfill
    obtain ⟨u₁, hl2, u₂, hins, hins'⟩ := hfill
    have missU : ¬ u.HitsL2 a false := by
      rw [look.hitsL2]
      exact miss4k
    obtain ⟨val₂, _, _, eq2m⟩ := insertL2Tlb_spec val₁ ha missU hl2
    obtain ⟨val₃, _, eq2m₁, eqL2₁, _⟩ := insertL1Tlb4k_spec val₂ ha hins
    obtain ⟨_, _, eq2m₂, eqL2₂, _⟩ := insertL1Tlb4k_spec val₃ ha hins'
    constructor
    · intro n
      rw [eq2m₂, eq2m₁, eq2m]
      exact look.l1Tlb2m n
    · intro n hn
      rw [eqL2₂, eqL2₁] at hn
      simp only [insertL2Tlb, Option.bind_eq_bind, Option.bind_eq_some_iff] at hl2
      obtain ⟨⟨c, e⟩, hc, hl2⟩ := hl2
      obtain rfl := Option.some.inj hl2
      obtain ⟨_, _, _, res, _⟩ := val₁.l2Tlb.insert fitsL2 ha hc
      exact ((res n).mp hn).imp_right fun old => (look.l2Tlb n).mp old.1

/-- After the miss of a known region the promotion cache holds it, with one line more in front of the
    one that is not used again if it did not hold it before. -/
lemma trackMiss_trails {alpha : Float} {now lines : Nat} (val : s.toCore.Valid g) (hb : base < 2 ^ 43)
    (unprom : s.promoted base = false) (ne : base ≠ 0)
    (trails : s.promotionCache.Trails lines 0 k m) (room : m < lines)
    (h : s.trackMiss alpha now base = some t) :
    t.reuseMap.contains base = true ∧
      if s.reuseMap.contains base = true then
        t.promotionCache.Resident base ∧
          if s.promotionCache.Resident base then t.promotionCache.Trails lines 0 k m
          else t.promotionCache.Trails lines 0 (k + 1) (m + 1)
      else t.promotionCache = s.promotionCache := by
  have fits := val.geometry.fits
  have one := val.geometry.logSets
  have ha := region_address_lt hb
  have page : s.pccPage base = base := by
    rw [pccPage, unprom]
    rfl
  have pageA : pageNumber g.logLine (s.promoted base) (base * pageSize) = base := by
    rw [pageNumber_pcc val, page]
  unfold trackMiss at h
  split at h
  case isTrue known =>
    rw [if_pos known]
    simp only [Option.bind_eq_bind, Option.bind_eq_some_iff] at h
    obtain ⟨u, hlogic, h⟩ := h
    obtain ⟨r, hr⟩ := u.trackReuse_spec alpha now base
    rw [hr] at h
    obtain rfl := Option.some.inj h
    refine ⟨by simp [UnorderedMap.contains], ?_⟩
    obtain ⟨hit, c, hacc, cases⟩ := promotionCacheLogic_inv hb hlogic
    obtain ⟨v, _, res, same, _⟩ := val.promotionCache.access fits ha hacc
    have trails₁ := trails.access val.promotionCache fits one ha (by rw [pageA]; exact ne) hacc
    rw [pageA] at res
    rcases cases with ⟨rfl, rfl⟩ | ⟨rfl, c', e, q, hins, rfl⟩
    · have held := res.mp rfl
      rw [if_pos held]
      exact ⟨(same base).mpr held, trails₁⟩
    · have free : ¬ s.promotionCache.Resident base := fun held => by cases res.mpr held
      have freeC : ¬ c.Resident (pageNumber g.logLine (s.promoted base) (base * pageSize)) := by
        rw [pageA, same]
        exact free
      obtain ⟨_, _, _, res', _⟩ := v.insert fits ha hins
      have trails₂ := trails₁.insert v fits one ha freeC room hins
      rw [if_neg free, resetEvicted_toCore]
      exact ⟨(res' base).mpr (.inl pageA.symm), trails₂⟩
  case isFalse unknown =>
    obtain rfl := Option.some.inj h
    rw [if_neg unknown]
    exact ⟨by simp [UnorderedMap.contains], rfl⟩

/-- What is left of a state when an access to a region that is not promoted misses in all TLBs. -/
structure Missed (base page : Nat) (s t : Sim) : Prop where
  promotions : t.pccPromotions = s.pccPromotions
  total : t.totalNumAccesses = s.totalNumAccesses
  l1Tlb4k : ∀ n, t.l1Tlb4k.Resident n → n = page ∨ s.l1Tlb4k.Resident n
  l1Tlb2m : ∀ n, t.l1Tlb2m.Resident n ↔ s.l1Tlb2m.Resident n
  l2Tlb : ∀ n, t.l2Tlb.Resident n → n = page ∨ s.l2Tlb.Resident n
  promotionCache : ∀ n, t.promotionCache.Resident n → n = base ∨ s.promotionCache.Resident n
  known : t.reuseMap.contains base = true

/-- Such an access succeeds. -/
lemma exists_missed {lines : Nat} (alpha : Float) (now : Nat) (val : s.toCore.Valid g) (sets : 1 ≤ g.sets)
    (misses : s.MissesTlbs a.toNat) (unprom : s.promoted (a.toNat / hugePageSize) = false)
    (ne : a.toNat / hugePageSize ≠ 0) (trails : s.promotionCache.Trails lines 0 k m) (room : m < lines) :
    ∃ t, s.trackAccess alpha now a.toNat = some t ∧ t.toCore.Valid g ∧
      Missed (a.toNat / hugePageSize) (a.toNat / pageSize) s t ∧
      if s.reuseMap.contains (a.toNat / hugePageSize) = true then
        t.promotionCache.Resident (a.toNat / hugePageSize) ∧
          if s.promotionCache.Resident (a.toNat / hugePageSize) then t.promotionCache.Trails lines 0 k m
          else t.promotionCache.Trails lines 0 (k + 1) (m + 1)
      else t.promotionCache = s.promotionCache := by
  obtain ⟨t, ht⟩ := trackAccess_some val sets alpha now a
  obtain ⟨val', prom, total, _, _, only4k, onlyPcc⟩ := trackAccess_spec val ht
  obtain ⟨miss, u, hh, htail⟩ := trackAccess_inv ht
  obtain ⟨val₁, frame, missed, _⟩ := tlbHierarchy_spec val a.toNat_lt hh
  obtain ⟨same2m, onlyL2⟩ := tlbHierarchy_unpromoted val a.toNat_lt misses unprom hh
  rw [if_pos (missed.mpr misses)] at htail
  have unpromU : u.promoted (a.toNat / hugePageSize) = false := by
    rw [← unprom, Sim.promoted, frame.pccPromotions]
    rfl
  have page : s.pccPage (a.toNat / hugePageSize) = a.toNat / hugePageSize := by
    rw [pccPage, unprom]
    rfl
  rw [← frame.promotionCache] at trails
  obtain ⟨known, pcc⟩ := trackMiss_trails val₁ (region_lt a) unpromU ne trails room htail
  obtain ⟨_, frame₂, _⟩ := trackMiss_spec val₁ (region_lt a) htail
  rw [frame.promotionCache, frame.reuseMap] at pcc
  refine ⟨t, ht, val', ?_, pcc⟩
  constructor
  case promotions => exact prom
  case total => exact total
  case l1Tlb4k =>
    intro n hn
    exact (only4k n hn).symm.imp_left And.left
  case l1Tlb2m =>
    intro n
    rw [frame₂.l1Tlb2m]
    exact same2m n
  case l2Tlb =>
    intro n hn
    rw [frame₂.l2Tlb] at hn
    exact onlyL2 n hn
  case promotionCache =>
    intro n hn
    rw [← page]
    exact (onlyPcc n hn).symm.imp_left And.left
  case known => exact known

/-- Regions 0 and 1 are promoted by the thirteenth access. The next one takes region 1 into the promotion cache
    under number 0, and the one after it brings back the translation of region 0. -/
def opening : List UInt64 :=
  [pageOf 1 2, pageOf 1 2, pageOf 1 2, pageOf 1 2, pageOf 1 2, pageOf 1 2, pageOf 1 3, pageOf 1 4, pageOf 0 1,
    pageOf 0 17, pageOf 0 33, pageOf 2 5, pageOf 2 6, pageOf 1 7, pageOf 0 50]

/-- Two pages of a region that the opening does not use. -/
def visit (k : Nat) : List UInt64 := [pageOf (4096 + .ofNat k) 0, pageOf (4096 + .ofNat k) 1]

/-- The opening, and two pages of each of `k` other regions. -/
def crowded (k : Nat) : List UInt64 := opening ++ (List.range k).flatMap visit

/-- One more region of the crowd has two accesses. -/
lemma crowded_succ (k : Nat) :
    crowded (k + 1) =
      crowded k ++ [pageOf (4096 + .ofNat k) 0] ++ [pageOf (4096 + .ofNat k) 1] := by
  simp only [crowded, List.range_succ, List.flatMap_append, List.flatMap_singleton, visit,
    List.append_assoc, List.cons_append, List.nil_append]

/-- `PROMOTION_CACHE_SIZE`, `FACTOR` and `ACCESS_INTERVAL`: the first pass comes with access 13, the second
    with access 1040. -/
def sparse : Config := ⟨520, 80, 13, 0.9⟩

/-- After `n` accesses the TLBs hold no page from `p` on, except that region 0, which is promoted, has a
    2MB translation. -/
structure Ahead (g : Geometry) (n p : Nat) (s : Sim) : Prop where
  valid : s.toCore.Valid g
  sets : 1 ≤ g.sets
  total : s.totalNumAccesses = n
  promoted : s.promoted 0 = true
  unpromoted : ∀ j, j < 512 → s.promoted (4096 + j) = false
  translated : s.l1Tlb2m.Resident 0
  l1Tlb2m : ∀ b, s.l1Tlb2m.Resident b → b < 4096
  l1Tlb4k : ∀ b, s.l1Tlb4k.Resident b → b < p
  l2Tlb : ∀ b, s.l2Tlb.Resident b → b < 4096 ∨ 2097152 ≤ b ∧ b < p

/-- After the visits of `k` regions, each has a line in front of number 0. -/
structure Filled (g : Geometry) (k : Nat) (s : Sim) : Prop extends
    Ahead g (15 + 2 * k) (2097152 + 512 * k) s where
  trails : s.promotionCache.Trails 520 0 k (k + 2)
  listed : ∀ b, s.promotionCache.Resident b → b < 4096 + k

/-- The addresses of the crowd. -/
lemma pageOf_toNat {k : Nat} {i : UInt64} (hk : k < 512) (hi : i.toNat < 512) :
    (pageOf (4096 + .ofNat k) i).toNat = (4096 + k) * 2097152 + i.toNat * 4096 := by
  have ofNat : (UInt64.ofNat k).toNat = k := UInt64.toNat_ofNat_of_lt (hk.trans (by decide))
  simp only [pageOf, UInt64.toNat_add, UInt64.toNat_mul, UInt64.toNat_ofNat, ofNat]
  omega

/-- No pass comes between the two. -/
lemma sparse_not_due {n : Nat} (lo : 13 < n) (hi : n < 1040) : passDue sparse n = false := by
  apply Bool.eq_false_of_not_eq_true
  rw [passDue_iff]
  have period : sparse.period = 1040 := by decide
  have interval : sparse.accessInterval.toNat = 13 := by decide
  rw [period, interval]
  omega

/-- The access to the next page of the next region. -/
lemma Ahead.access {n p r : Nat} {i : UInt64} (ahead : Ahead g n p s) (lo : 13 ≤ n) (hi : n < 1039)
    (hr : r < 512) (hi' : i.toNat < 512) (next : p ≤ (4096 + r) * 512 + i.toNat)
    (trails : s.promotionCache.Trails 520 0 k m) (room : m < 520) :
    ∃ t, pccTrackAccess sparse s (pageOf (4096 + .ofNat r) i) = some t ∧
      Ahead g (n + 1) ((4096 + r) * 512 + i.toNat + 1) t ∧
      t.reuseMap.contains (4096 + r) = true ∧
      (∀ b, t.promotionCache.Resident b → b = 4096 + r ∨ s.promotionCache.Resident b) ∧
      if s.reuseMap.contains (4096 + r) = true then
        t.promotionCache.Resident (4096 + r) ∧
          if s.promotionCache.Resident (4096 + r) then t.promotionCache.Trails 520 0 k m
          else t.promotionCache.Trails 520 0 (k + 1) (m + 1)
      else t.promotionCache = s.promotionCache := by
  have addr := pageOf_toNat hr hi'
  have region : (pageOf (4096 + .ofNat r) i).toNat / hugePageSize = 4096 + r := by
    rw [addr, hugePageSize]
    omega
  have page : (pageOf (4096 + .ofNat r) i).toNat / pageSize = (4096 + r) * 512 + i.toNat := by
    rw [addr, pageSize]
    omega
  have total : (counted s).totalNumAccesses = n + 1 := by
    show word (s.totalNumAccesses + 1) = n + 1
    rw [ahead.total, word_of_lt (by omega)]
  have count : countAccess sparse s = some (counted s) := by
    have due : passDue sparse (word (s.totalNumAccesses + 1)) = false := by
      rw [show word (s.totalNumAccesses + 1) = n + 1 from total]
      exact sparse_not_due (by omega) (by omega)
    have period : sparse.period ≠ 0 := by decide
    simp only [countAccess, due, if_neg period, Bool.false_eq_true, if_false]
    rfl
  have misses : (counted s).MissesTlbs (pageOf (4096 + .ofNat r) i).toNat := by
    refine ⟨?_, ?_, ?_⟩
    · rintro (held | held)
      · rw [page] at held
        have below := ahead.l1Tlb4k _ held
        omega
      · rw [region] at held
        have below := ahead.l1Tlb2m _ held
        omega
    · intro held
      simp only [HitsL2, Bool.false_eq_true, if_false, page] at held
      have below := ahead.l2Tlb _ held
      omega
    · intro held
      simp only [HitsL2, if_true, region] at held
      have below := ahead.l2Tlb _ held
      omega
  have unprom : (counted s).promoted ((pageOf (4096 + .ofNat r) i).toNat / hugePageSize) = false := by
    rw [region]
    exact ahead.unpromoted r hr
  have nonzero : (pageOf (4096 + .ofNat r) i).toNat / hugePageSize ≠ 0 := by
    rw [region]
    omega
  have valid : (counted s).toCore.Valid g := ahead.valid
  obtain ⟨t, ht, val, missed, pcc⟩ := exists_missed sparse.alpha (counted s).totalNumAccesses
    valid ahead.sets misses unprom nonzero trails room
  rw [region] at pcc
  rw [region, page] at missed
  have prom : ∀ b, t.promoted b = s.promoted b := by
    intro b
    rw [Sim.promoted, missed.promotions]
    rfl
  refine ⟨t, ?_, ?_, missed.known, missed.promotionCache, pcc⟩
  · simp only [pccTrackAccess, count, Option.bind_eq_bind, Option.bind_some]
    exact ht
  constructor
  case valid => exact val
  case sets => exact ahead.sets
  case total => exact missed.total.trans total
  case promoted => exact (prom 0).trans ahead.promoted
  case unpromoted =>
    intro j hj
    rw [prom]
    exact ahead.unpromoted j hj
  case translated => exact (missed.l1Tlb2m 0).mpr ahead.translated
  case l1Tlb2m =>
    intro b hb
    exact ahead.l1Tlb2m b ((missed.l1Tlb2m b).mp hb)
  case l1Tlb4k =>
    intro b hb
    rcases missed.l1Tlb4k b hb with rfl | hb
    · omega
    · have below := ahead.l1Tlb4k b hb
      omega
  case l2Tlb =>
    intro b hb
    rcases missed.l2Tlb b hb with rfl | hb
    · omega
    · have below := ahead.l2Tlb b hb
      omega

/-- The visit of a region puts a line in front of number 0, at its first page if the region is known, and
    at the second otherwise. -/
lemma Filled.visit {k : Nat} (filled : Filled g k s) (hk : k < 512) :
    ∃ t u, pccTrackAccess sparse s (pageOf (4096 + .ofNat k) 0) = some t ∧
      pccTrackAccess sparse t (pageOf (4096 + .ofNat k) 1) = some u ∧ Filled g (k + 1) u := by
  have zero : (0 : UInt64).toNat = 0 := rfl
  have one : (1 : UInt64).toNat = 1 := rfl
  have fresh : ¬ s.promotionCache.Resident (4096 + k) := fun held => by
    have below := filled.listed _ held
    omega
  obtain ⟨t, ht, ahead, known, only, pcc⟩ := filled.toAhead.access (i := 0) (by omega) (by omega) hk
    (by rw [zero]; omega) (by rw [zero]; omega) filled.trails (by omega)
  have grown : ∃ u, pccTrackAccess sparse t (pageOf (4096 + .ofNat k) 1) = some u ∧
      Ahead g (15 + 2 * k + 1 + 1) ((4096 + k) * 512 + 1 + 1) u ∧
      (∀ b, u.promotionCache.Resident b → b = 4096 + k ∨ t.promotionCache.Resident b) ∧
      u.promotionCache.Trails 520 0 (k + 1) (k + 2 + 1) := by
    by_cases old : s.reuseMap.contains (4096 + k) = true
    · rw [if_pos old] at pcc
      obtain ⟨held, trails⟩ := pcc
      rw [if_neg fresh] at trails
      obtain ⟨u, hu, ahead', _, only', pcc'⟩ := ahead.access (i := 1) (by omega) (by omega) hk
        (by rw [one]; omega) (by rw [zero, one]) trails (by omega)
      rw [if_pos known, if_pos held] at pcc'
      exact ⟨u, hu, ahead', only', pcc'.2⟩
    · rw [if_neg old] at pcc
      have trails : t.promotionCache.Trails 520 0 k (k + 2) := by
        rw [pcc]
        exact filled.trails
      obtain ⟨u, hu, ahead', _, only', pcc'⟩ := ahead.access (i := 1) (by omega) (by omega) hk
        (by rw [one]; omega) (by rw [zero, one]) trails (by omega)
      rw [if_pos known, if_neg (by rw [pcc]; exact fresh)] at pcc'
      exact ⟨u, hu, ahead', only', pcc'.2⟩
  obtain ⟨u, hu, ahead', only', trails⟩ := grown
  refine ⟨t, u, ht, hu, ?_⟩
  have listed : ∀ b, u.promotionCache.Resident b → b < 4096 + (k + 1) := by
    intro b hb
    rcases only' b hb with rfl | hb
    · omega
    rcases only b hb with rfl | hb
    · omega
    · have below := filled.listed b hb
      omega
  have moved : Ahead g (15 + 2 * (k + 1)) (2097152 + 512 * (k + 1)) u := by
    constructor
    case valid => exact ahead'.valid
    case sets => exact ahead'.sets
    case total =>
      rw [ahead'.total]
      omega
    case promoted => exact ahead'.promoted
    case unpromoted => exact ahead'.unpromoted
    case translated => exact ahead'.translated
    case l1Tlb2m => exact ahead'.l1Tlb2m
    case l1Tlb4k =>
      intro b hb
      have below := ahead'.l1Tlb4k b hb
      omega
    case l2Tlb =>
      intro b hb
      have below := ahead'.l2Tlb b hb
      omega
  exact { toAhead := moved, trails := trails, listed := listed }

/-- The pages that were inserted lie below a bound. -/
def insertedBelow (logLine m : Nat) (h : List Event) : Bool :=
  h.all fun
    | .inserted a is2M _ => decide (pageNumber logLine is2M a < m)
    | _ => true

/-- What is bound to a tag has been inserted. -/
lemma owner_below {logLine b : Nat} {h : List Event} (below : insertedBelow logLine m h = true)
    (own : (owner logLine b h).isSome) : b < m := by
  induction h with
  | nil => cases own
  | cons e h ih =>
    obtain ⟨first, rest⟩ := Bool.and_eq_true_iff.mp below
    cases e with
    | accessed a is2M hit => exact ih rest own
    | inserted a is2M victim =>
      rw [owner] at own
      split at own
      case isTrue page =>
        rw [← page]
        exact of_decide_eq_true first
      case isFalse =>
        split at own
        case isTrue => cases own
        case isFalse => exact ih rest own
    | evicted a is2M =>
      rw [owner] at own
      split at own
      case isTrue => cases own
      case isFalse => exact ih rest own

/-- What is checked of the state after the opening. -/
def opened (s : Sim) : Bool :=
  s.totalNumAccesses == 15 && s.promoted 0 && (List.range 512).all (fun j => !s.promoted (4096 + j)) &&
    decide (s.l1Tlb2m.Resident 0) && insertedBelow 21 4096 s.l1Tlb2m.history &&
    insertedBelow 12 4096 s.l1Tlb4k.history && insertedBelow 12 4096 s.l2Tlb.history &&
    insertedBelow 12 4096 s.promotionCache.history &&
    match s.promotionCache.sets with
    | [w] => w.policy == 2 && w.associativity == 520 &&
      decide (w.contents = [⟨0, 4096, false, 0⟩, ⟨2, 0, false, 0⟩])
    | _ => false

/-- After the opening, the caches are filled as the crowd needs it. -/
lemma opening_filled : ∃ g s, simulate sparse opening = some s ∧ Filled g 0 s := by
  have run : (simulate sparse opening).map opened = some true := by decide +kernel
  obtain ⟨s, h, checked⟩ := Option.map_eq_some_iff.mp run
  obtain ⟨g, val⟩ := simulate_valid (simulate_pos h) h
  simp only [opened, Bool.and_eq_true, beq_iff_eq, List.all_eq_true, List.mem_range, Bool.not_eq_true',
    decide_eq_true_eq] at checked
  obtain ⟨⟨⟨⟨⟨⟨⟨⟨total, prom⟩, unprom⟩, translated⟩, below2m⟩, below4k⟩, belowL2⟩, belowPcc⟩, set⟩ := checked
  have pcc : ∃ w, s.promotionCache.sets = [w] ∧ w.policy = 2 ∧ w.associativity = 520 ∧
      w.contents = [⟨0, 4096, false, 0⟩, ⟨2, 0, false, 0⟩] := by
    split at set
    case h_1 w sets =>
      simp only [Bool.and_eq_true, beq_iff_eq, decide_eq_true_eq] at set
      obtain ⟨⟨pol, assoc⟩, contents⟩ := set
      exact ⟨w, sets, pol, assoc, contents⟩
    case h_2 => cases set
  obtain ⟨w, sets, pol, assoc, contents⟩ := pcc
  have one : g.sets = 1 := by
    rw [← val.promotionCache.geometry]
    show s.promotionCache.sets.length = 1
    rw [sets]
    rfl
  have mem : w ∈ s.promotionCache.sets := by
    rw [sets]
    exact List.mem_singleton_self w
  have trails : w.Trails 0 0 2 := by
    obtain ⟨ps, wf⟩ := (val.promotionCache.ok w mem).wf
    have ex := wf.exact_iff.mp (val.clearPcc w mem)
    rw [wf.contents_eq] at contents
    have two : ps.length = 2 := by
      have len := congrArg List.length contents
      rwa [List.length_map] at len
    obtain ⟨z, y, rfl⟩ := List.length_eq_two.mp two
    obtain ⟨first, _⟩ := List.cons.inj contents
    refine ⟨pol, [], z, [y], ex, ?_, ?_, Nat.le_refl 0, rfl⟩
    · rw [first]
    · rw [first]
  refine ⟨g, s, h, ?_⟩
  constructor
  case toAhead =>
    constructor
    case valid => exact val
    case sets => exact one.ge
    case total => exact total
    case promoted => exact prom
    case unpromoted => exact unprom
    case translated => exact translated
    case l1Tlb2m =>
      intro b hb
      exact owner_below below2m ((val.l1Tlb2m.tracked b).mp hb)
    case l1Tlb4k =>
      intro b hb
      have below := owner_below below4k ((val.l1Tlb4k.tracked b).mp hb)
      omega
    case l2Tlb =>
      intro b hb
      exact .inl (owner_below belowL2 ((val.l2Tlb.tracked b).mp hb))
  case trails => exact ⟨w, sets, assoc, trails⟩
  case listed =>
    intro b hb
    have own := (val.promotionCache.tracked b).mp hb
    rw [val.geometry.logLine] at own
    exact owner_below belowPcc own

/-- Every prefix of the visits succeeds, by induction on the number of regions. -/
lemma crowded_filled {k : Nat} (hk : k ≤ 512) :
    ∃ g s, simulate sparse (crowded k) = some s ∧ Filled g k s := by
  induction k with
  | zero => exact opening_filled
  | succ k ih =>
    obtain ⟨g, s, h, filled⟩ := ih (by omega)
    obtain ⟨t, u, ht, hu, filled'⟩ := filled.visit (by omega)
    refine ⟨g, u, ?_, filled'⟩
    rw [crowded_succ]
    exact simulate_snoc.mpr ⟨t, simulate_snoc.mpr ⟨s, h, ht⟩, hu⟩

/-- The turn of a candidate leaves the 2MB translation of region 0 in the L1 TLB, if neither the candidate
    nor the region in which its page lies is region 0. -/
lemma summarizeEntry_translated {i : Nat} (val : s.toCore.Valid g) (pos : 0 < base)
    (small : base + i / 512 < 2 ^ 43) (h : summarizeEntry s i base = some t)
    (held : s.l1Tlb2m.Resident 0) : t.l1Tlb2m.Resident 0 := by
  obtain ⟨f, u, _, hstep, hev⟩ := summarizeEntry_eq_some.mp h
  have val₁ := valid_afterListing base f (s.promoted base) val
  simp only [evictCandidate, Option.bind_eq_bind, Option.bind_eq_some_iff] at hev
  obtain ⟨_, _, hev⟩ := hev
  obtain rfl := Option.some.inj hev
  show u.l1Tlb2m.Resident 0
  unfold branch at hstep
  split at hstep
  case isTrue =>
    simp only [demote, Option.bind_eq_bind, Option.bind_eq_some_iff] at hstep
    obtain ⟨⟨c, d⟩, hinv, ⟨c', d'⟩, _, hstep⟩ := hstep
    obtain rfl := Option.some.inj hstep
    obtain ⟨_, res, _⟩ := val₁.l1Tlb2m.invalidate fits2m (word_lt _) hinv
    simp only [pageNumber_true, demote_region base i] at res
    refine (res 0).mpr ⟨?_, held⟩
    rw [Nat.mod_eq_of_lt small]
    omega
  case isFalse =>
    split at hstep
    case isTrue =>
      obtain ⟨_, frame, _⟩ := promote_flushes val₁ hstep
      rw [frame.l1Tlb2m]
      exact held
    case isFalse =>
      obtain rfl := Option.some.inj hstep
      exact held

/-- The turns of several candidates. -/
lemma summarizeFrom_translated {i : Nat} {bases : List Nat} (val : s.toCore.Valid g)
    (pos : ∀ b ∈ bases, 0 < b) (small : ∀ b ∈ bases, b < 2 ^ 42) (len : i + bases.length ≤ 2 ^ 42)
    (h : summarizeFrom s i bases = some t) (held : s.l1Tlb2m.Resident 0) : t.l1Tlb2m.Resident 0 := by
  induction bases generalizing s i with
  | nil =>
    obtain rfl := Option.some.inj h
    exact held
  | cons base bases ih =>
    simp only [summarizeFrom, Option.bind_eq_bind, Option.bind_eq_some_iff] at h
    obtain ⟨u, hentry, h⟩ := h
    obtain ⟨posB, pos⟩ := List.forall_mem_cons.mp pos
    obtain ⟨smallB, small⟩ := List.forall_mem_cons.mp small
    rw [List.length_cons] at len
    obtain ⟨val₁, _⟩ := summarizeEntry_spec val hentry
    exact ih val₁ pos small (by omega) h (summarizeEntry_translated val posB (by omega) hentry held)

/-- When an access after the visits of `k` regions is counted, a pass gets to the turn of region 0, at position `k` or
    later, with the 2MB translation of region 0 in the L1 TLB. -/
lemma Filled.turn {k : Nat} (filled : Filled g k s) (hk : k ≤ 512) :
    ∃ xs ys v w, (counted s).promotionCache.getEntries = some (xs ++ 0 :: ys) ∧ k ≤ xs.length ∧
      summarizeFrom (passStart (counted s)) 0 xs = some v ∧ summarizeEntry v xs.length 0 = some w ∧
      v.toCore.Valid g ∧ v.promoted 0 = true ∧ v.l1Tlb2m.Resident 0 ∧ xs.length < 2 ^ 43 := by
  have val := filled.valid
  obtain ⟨xs, ys, hget, late⟩ := filled.trails.entries val.promotionCache
  obtain ⟨nodup, mem⟩ := val.entries hget
  obtain ⟨nodupX, _, disjoint⟩ := List.nodup_append'.mp nodup
  have heldX : ∀ b ∈ xs, (passStart (counted s)).promotionCache.Resident b :=
    fun b hb => (mem b).mp (List.mem_append_left _ hb)
  have fresh : 0 ∉ xs := fun hb => disjoint hb List.mem_cons_self
  have valP : (passStart (counted s)).toCore.Valid g := val
  obtain ⟨v, hv, res⟩ := summarizeFrom_some (i := 0) valP nodupX heldX
  obtain ⟨valV, _⟩ := summarizeFrom_spec valP hv
  have held : v.promotionCache.Resident 0 :=
    (res 0).mpr ⟨fresh, (mem 0).mp (List.mem_append_right _ List.mem_cons_self)⟩
  obtain ⟨w, hw⟩ := summarizeEntry_some (i := xs.length) valV held
  have small : ∀ b ∈ xs, b < 4608 := by
    intro b hb
    have below := filled.listed b (heldX b hb)
    omega
  have len := length_le_of_nodup nodupX small
  obtain ⟨_, _, others⟩ := summarizeFrom_exact valP nodupX (fun b hb => (small b hb).trans (by decide)) hv
  have promV : v.promoted 0 = true := (others 0 fresh).trans filled.promoted
  refine ⟨xs, ys, v, w, hget, late, hv, hw, valV, promV, ?_, by omega⟩
  apply summarizeFrom_translated valP ?_ ?_ (by omega) hv filled.translated
  · intro b hb
    exact Nat.pos_of_ne_zero fun e => fresh (e ▸ hb)
  · intro b hb
    have below := small b hb
    omega

/-- After 512 visits region 0 stands behind 512 candidates when the pass of the next access comes. Its demotion
    removes nothing of it: what it looks up is an address in region 1. -/
theorem demotion_behind_crowd :
    ∃ s m xs ys v w, simulate sparse (crowded 512) = some s ∧ countAccess sparse s = some m ∧
      summarizePromotions (counted s) = some m ∧
      (counted s).promotionCache.getEntries = some (xs ++ 0 :: ys) ∧ s.promoted 0 = true ∧
      summarizeFrom (passStart (counted s)) 0 xs = some v ∧ summarizeEntry v xs.length 0 = some w ∧
      ¬ Untranslated w 0 := by
  obtain ⟨g, s, h, filled⟩ := crowded_filled (Nat.le_refl 512)
  obtain ⟨xs, ys, v, w, hget, late, hv, hw, valV, promV, translated, short⟩ :=
    filled.turn (Nat.le_refl 512)
  have valid : (counted s).toCore.Valid g := filled.valid
  obtain ⟨m, hm, _⟩ := summarizePromotions_effect valid
  -- the pass is that of access 1040
  have total : (counted s).totalNumAccesses = 1040 := by
    show word (s.totalNumAccesses + 1) = 1040
    rw [filled.total]
    decide
  have due : countAccess sparse s = some m := by
    rw [← hm, countAccess_due (by decide) (by rw [total]; decide)]
  refine ⟨s, m, xs, ys, v, w, h, due, hm, hget, filled.promoted, hv, hw, ?_⟩
  rw [summarizeEntry_untranslated valV (by decide) short promV hw]
  rintro (early | ⟨gone, _⟩)
  · omega
  · exact gone translated

end
end PromotionCache.Pcc.Single
