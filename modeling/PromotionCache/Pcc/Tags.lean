import PromotionCache.Pcc.Candidates
import PromotionCache.Pcc.PassEffect
import PromotionCache.Tlb.Offsets

/-!
# Which region a line stands for

A region is looked up in the promotion cache under its own number, or under that of the 2MB page its
number lies in once it is promoted, and the line keeps the rest of the number as an offset. So one line
may stand for several regions: the one it was inserted for and the one it was last used for need not be
the same. `Keyed` says of every line that both are looked up under its tag. From it follows what an
eviction resets (`resets_victim_iff`) and which regions a pass demotes (`own_demotions`).
-/

namespace PromotionCache.Pcc.Single
open Lib Tlb Sim

/-- Every line of the promotion cache was inserted for a region and last used for one, each with the
    page size that goes with its promotion. -/
structure Keyed (s : Sim) : Prop where
  recorded : s.promotionCache.Recorded 12
  inserted : ∀ n, s.promotionCache.Resident n →
    ∃ r < 2 ^ 43, owner 12 n s.promotionCache.history = some (r * pageSize, s.promoted r)
  used : ∀ n, s.promotionCache.Resident n →
    ∃ q < 2 ^ 43, lastUse 12 n s.promotionCache.history = some (q * pageSize, s.promoted q)

section
variable {cfg : Config} {g : Geometry} {s t : Sim} {as : List UInt64} {n : Nat}

/-- The owner of a tag is an address in its page. -/
lemma owner_page {logLine n a : Nat} {is2M : Bool} {h : List Event}
    (own : owner logLine n h = some (a, is2M)) : pageNumber logLine is2M a = n := by
  induction h with
  | nil => cases own
  | cons e h ih =>
    cases e with
    | accessed => exact ih own
    | inserted =>
      rw [owner] at own
      split at own
      case isTrue e =>
        cases own
        exact e
      case isFalse =>
        split at own
        case isTrue => cases own
        case isFalse => exact ih own
    | evicted =>
      rw [owner] at own
      split at own
      case isTrue => cases own
      case isFalse => exact ih own

/-- The last use of a tag is an address in its page. -/
lemma lastUse_page {logLine n a : Nat} {is2M : Bool} {h : List Event}
    (use : lastUse logLine n h = some (a, is2M)) : pageNumber logLine is2M a = n := by
  induction h with
  | nil => cases use
  | cons e h ih =>
    cases e with
    | evicted => exact ih use
    | accessed =>
      rw [lastUse] at use
      split at use
      case isTrue e =>
        cases use
        exact e
      case isFalse => exact ih use
    | inserted =>
      rw [lastUse] at use
      split at use
      case isTrue e =>
        cases use
        exact e
      case isFalse => exact ih use

/-- The page number that the promotion cache has for a region. -/
lemma page_region_pcc (s : Sim) (r : Nat) :
    pageNumber 12 (s.promoted r) (r * pageSize) = s.pccPage r := pageNumber_region r _

/-- An empty promotion cache is keyed. -/
lemma Keyed.of_empty (empty : ∀ n, ¬ s.promotionCache.Resident n) : Keyed s where
  recorded := fun n hn => absurd hn (empty n)
  inserted := fun n hn => absurd hn (empty n)
  used := fun n hn => absurd hn (empty n)

/-- The condition is about the promotion cache and the promotions only. -/
lemma Keyed.congr (keyed : Keyed s) (pcc : t.promotionCache = s.promotionCache)
    (prom : t.pccPromotions = s.pccPromotions) : Keyed t := by
  have same : ∀ b, t.promoted b = s.promoted b := by
    intro b
    rw [Sim.promoted, prom]
    rfl
  constructor
  case recorded =>
    rw [pcc]
    exact keyed.recorded
  case inserted =>
    intro n hn
    rw [pcc] at hn ⊢
    obtain ⟨r, lt, own⟩ := keyed.inserted n hn
    exact ⟨r, lt, by rw [same, own]⟩
  case used =>
    intro n hn
    rw [pcc] at hn ⊢
    obtain ⟨q, lt, use⟩ := keyed.used n hn
    exact ⟨q, lt, by rw [same, use]⟩

/-- A lookup of a region uses its line for the region. -/
lemma Keyed.access {base : Nat} {hit : Bool} {c : FunctionalCache} (keyed : Keyed s)
    (val : s.toCore.Valid g) (hb : base < 2 ^ 43)
    (h : s.promotionCache.access (base * pageSize) true (s.promoted base) = some (hit, c)) :
    Keyed { s with promotionCache := c } := by
  have line := val.geometry.logLine
  have fits := val.geometry.fits
  obtain ⟨v, hist, _, same, _⟩ := val.promotionCache.access fits (region_address_lt hb) h
  have offsets := keyed.recorded
  rw [← line] at offsets
  constructor
  case recorded =>
    rw [← line]
    exact offsets.access val.promotionCache fits (region_address_lt hb) h
  case inserted =>
    intro n hn
    obtain ⟨r, lt, own⟩ := keyed.inserted n ((same n).mp hn)
    refine ⟨r, lt, ?_⟩
    show owner 12 n c.history = _
    rw [hist]
    exact own
  case used =>
    intro n hn
    show ∃ q < 2 ^ 43, lastUse 12 n c.history = _
    rw [hist, lastUse]
    split
    case isTrue => exact ⟨base, hb, rfl⟩
    case isFalse => exact keyed.used n ((same n).mp hn)

/-- So does an insertion. -/
lemma Keyed.insert {base : Nat} {out e : Evicted} {c : FunctionalCache} (keyed : Keyed s)
    (val : s.toCore.Valid g) (hb : base < 2 ^ 43)
    (h : s.promotionCache.insert (base * pageSize) true out (s.promoted base) = some (c, e)) :
    Keyed { s with promotionCache := c } := by
  have line := val.geometry.logLine
  have fits := val.geometry.fits
  obtain ⟨v, hist, _, res, _⟩ := val.promotionCache.insert fits (region_address_lt hb) h
  have offsets := keyed.recorded
  rw [← line] at offsets
  rw [line] at res
  constructor
  case recorded =>
    rw [← line]
    exact offsets.insert val.promotionCache fits (region_address_lt hb) h
  case inserted =>
    intro n hn
    show ∃ r < 2 ^ 43, owner 12 n c.history = _
    rw [hist, owner]
    split
    case isTrue => exact ⟨base, hb, rfl⟩
    case isFalse ne =>
      obtain ⟨old, stays⟩ := ((res n).mp hn).resolve_left (Ne.symm ne)
      rw [if_neg stays]
      exact keyed.inserted n old
  case used =>
    intro n hn
    show ∃ q < 2 ^ 43, lastUse 12 n c.history = _
    rw [hist, lastUse]
    split
    case isTrue => exact ⟨base, hb, rfl⟩
    case isFalse ne => exact keyed.used n (((res n).mp hn).resolve_left (Ne.symm ne)).1

/-- A miss keeps the promotion cache keyed. -/
lemma Keyed.trackMiss {alpha : Float} {now base : Nat} (keyed : Keyed s) (val : s.toCore.Valid g)
    (hb : base < 2 ^ 43) (h : s.trackMiss alpha now base = some t) : Keyed t := by
  unfold Sim.trackMiss at h
  split at h
  case isTrue =>
    simp only [Option.bind_eq_bind, Option.bind_eq_some_iff] at h
    obtain ⟨u, hlogic, h⟩ := h
    obtain ⟨e, he⟩ := u.trackReuse_spec alpha now base
    rw [he] at h
    obtain rfl := Option.some.inj h
    obtain ⟨hit, c, hacc, ⟨_, rfl⟩ | ⟨_, c', e', m, hins, rfl⟩⟩ := promotionCacheLogic_inv hb hlogic
    · exact (keyed.access val hb hacc).congr rfl rfl
    · have val₁ : Core.Valid g { s.toCore with promotionCache := c } := by
        obtain ⟨v, _, _, same, un⟩ :=
          val.promotionCache.access val.geometry.fits (region_address_lt hb) hacc
        exact { val with
          promotionCache := v
          clearPcc := un val.clearPcc
          small := fun n hn => val.small n ((same n).mp hn) }
      have keyed₁ := keyed.access val hb hacc
      have keyed₂ := keyed₁.insert (s := { s with promotionCache := c }) val₁ hb hins
      apply keyed₂.congr
      · rw [show _ = _ from congrArg Core.promotionCache (resetEvicted_toCore _)]
      · exact (resetEvicted_frame _).pccPromotions
  case isFalse =>
    obtain rfl := Option.some.inj h
    exact keyed.congr rfl rfl

/-- So does an access. -/
lemma Keyed.trackAccess {alpha : Float} {now : Nat} {a : UInt64} (keyed : Keyed s)
    (val : s.toCore.Valid g) (h : s.trackAccess alpha now a.toNat = some t) : Keyed t := by
  obtain ⟨miss, u, hh, htail⟩ := trackAccess_inv h
  obtain ⟨val₁, frame, _⟩ := tlbHierarchy_spec val a.toNat_lt hh
  have keyed₁ := keyed.congr frame.promotionCache frame.pccPromotions
  split at htail
  case isTrue => exact keyed₁.trackMiss val₁ (region_lt a) htail
  case isFalse =>
    obtain rfl := Option.some.inj htail
    exact keyed₁

/-- A pass empties the promotion cache; without one, counting leaves the caches alone. -/
lemma countAccess_empty (val : s.toCore.Valid g) (h : countAccess cfg s = some t) :
    (passDue cfg (counted s).totalNumAccesses = true ∧ ∀ n, ¬ t.promotionCache.Resident n) ∨
      t = counted s := by
  obtain ⟨_, h⟩ := countAccess_inv h
  split at h
  case isTrue due =>
    have val' : (counted s).toCore.Valid g := val
    obtain ⟨t', ht, _, _, empty, _⟩ := summarizePromotions_effect val'
    obtain rfl := Option.some.inj (h.symm.trans ht)
    exact .inl ⟨due, empty⟩
  case isFalse => exact .inr (Option.some.inj h).symm

/-- So does a pass. -/
lemma Keyed.countAccess (keyed : Keyed s) (val : s.toCore.Valid g) (h : countAccess cfg s = some t) :
    Keyed t := by
  rcases countAccess_empty val h with ⟨_, empty⟩ | rfl
  · exact Keyed.of_empty empty
  · exact keyed.congr rfl rfl

/-- The lines are keyed after every trace. -/
lemma simulate_keyed (h : simulate cfg as = some s) : Keyed s := by
  have pos := simulate_pos h
  refine simulate_inv (fun _ s => Keyed s) ?_ ?_ h
  · intro s hinit
    obtain ⟨_, _, fresh, _⟩ := promotionCacheInit_spec pos hinit
    exact Keyed.of_empty fresh.promotionCache
  · intro bs a _ u v hu keyed st
    obtain ⟨m, hm, htrack⟩ := pccTrackAccess_inv st
    obtain ⟨g, val⟩ := simulate_valid pos hu
    obtain ⟨val', _⟩ := countAccess_spec val hm
    exact (keyed.countAccess val hm).trackAccess val' htrack

/-- Between `s` and `t` the promotion cache takes in a line and evicts the one under number `n`. -/
def EvictsPage (s t : Sim) (n : Nat) : Prop :=
  ∃ a is2M e, t.promotionCache.history =
    .inserted a is2M (some n) :: e :: s.promotionCache.history

/-- The region that the line under number `n` was last used for. -/
def usedFor (s : Sim) (n : Nat) : Option Nat :=
  (lastUse 12 n s.promotionCache.history).map fun o => o.1 / pageSize

/-- A line inserted for region `r` and last used for region `q` names `r` by its tag and offset. -/
def Names (s : Sim) (r q : Nat) : Prop :=
  (s.promoted r = false ∧ (s.promoted q = false ∨ q = 512 * r)) ∨
    (s.promoted r = true ∧ s.promoted q = true ∧ ((r = q ∧ r < 512) ∨ (r = 512 ∧ q = 1023)))

/-- When the number in the promotion cache is the region that it stands for. -/
lemma names_iff {r q : Nat} (hr : s.pccPage r = n) (hq : s.pccPage q = n) :
    Names s r q ↔ n + (if s.promoted q then q % 512 else 0) = r := by
  unfold Sim.pccPage at hr hq
  unfold Names
  by_cases same : r = q
  · subst same
    cases prom : s.promoted r with
    | true =>
      simp only [prom, if_true] at hr
      simp only [Bool.true_eq_false, false_and, false_or, true_and, if_true]
      omega
    | false =>
      simp only [prom, Bool.false_eq_true, if_false] at hr
      simp [hr]
  · cases hpr : s.promoted r with
    | true =>
      cases hpq : s.promoted q with
      | true =>
        simp only [hpr, hpq, if_true] at hr hq
        simp only [Bool.true_eq_false, false_and, false_or, true_and, if_true]
        omega
      | false =>
        simp only [hpr, hpq, if_true, Bool.false_eq_true, if_false] at hr hq
        simp only [Bool.true_eq_false, Bool.false_eq_true, false_and, and_false, or_self, if_false,
          false_iff]
        -- a region that is the page of its own number is region 0
        intro e
        exact same (by omega)
    | false =>
      cases hpq : s.promoted q with
      | true =>
        simp only [hpr, hpq, if_true, Bool.false_eq_true, if_false] at hr hq
        simp only [Bool.true_eq_false, Bool.false_eq_true, false_and, false_or, or_false, true_and,
          if_true]
        omega
      | false =>
        simp only [hpr, hpq, Bool.false_eq_true, if_false] at hr hq
        exact absurd (hr.trans hq.symm) same

/-- What the line under the number of a region was inserted for. -/
lemma Keyed.held {r : Nat} (keyed : Keyed s) (hn : s.promotionCache.Resident n)
    (held : heldUnder s n = some r) : s.pccPage r = n ∧ r < 2 ^ 43 := by
  obtain ⟨r', lt, own⟩ := keyed.inserted n hn
  rw [heldUnder, own, Option.map_some, Nat.mul_div_cancel _ (by decide : 0 < pageSize)] at held
  obtain rfl := Option.some.inj held
  exact ⟨(page_region_pcc s r').symm.trans (owner_page own), lt⟩

/-- A resident number has been used for some region, and last for that. -/
lemma Keyed.usedFor (keyed : Keyed s) (hn : s.promotionCache.Resident n) :
    ∃ q, usedFor s n = some q ∧ s.pccPage q = n ∧ q < 2 ^ 43 ∧
      lastUse 12 n s.promotionCache.history = some (q * pageSize, s.promoted q) := by
  obtain ⟨q, lt, use⟩ := keyed.used n hn
  refine ⟨q, ?_, (page_region_pcc s q).symm.trans (lastUse_page use), lt, use⟩
  rw [Single.usedFor, use, Option.map_some, Nat.mul_div_cancel _ (by decide : 0 < pageSize)]

/-- The line that makes room for a region is resident and has the offset of its latest use. -/
lemma pccLine_offset {base : Nat} {l : CacheLine} (val : s.toCore.Valid g) (h : pccLine s base = some l) :
    s.promotionCache.Resident l.addr ∧ s.promotionCache.offsetAt l.addr = some l.offset := by
  have pcc := val.promotionCache
  have zero : s.promotionCache.logSetCount = 0 := pcc.logSets.trans val.geometry.logSets
  have set : s.promotionCache.setid (s.promoted base) (base * pageSize) = 0 := by
    rw [pcc.setid val.geometry.fits, val.geometry.logSets]
    exact Nat.mod_one _
  obtain ⟨w, hw, hl⟩ := Option.bind_eq_some_iff.mp h
  rw [set] at hw
  have mem := List.mem_of_getElem? hw
  obtain ⟨bound, off⟩ := (pcc.ok w mem).victim_offset (val.clearPcc w mem) hl
  have here : l.addr % 2 ^ s.promotionCache.logSetCount = 0 := by
    rw [zero]
    exact Nat.mod_one _
  constructor
  · rw [FunctionalCache.resident_of_set hw here, zero, Nat.pow_zero, Nat.div_one]
    exact bound
  · rw [FunctionalCache.offsetAt, here, hw, zero, Nat.pow_zero, Nat.div_one]
    exact off

/-- The region that tag and offset of the line name. -/
lemma evictedAddrOf_line {base : Nat} {l : CacheLine} (val : s.toCore.Valid g) (keyed : Keyed s)
    (h : pccLine s base = some l) :
    ∃ q, usedFor s l.addr = some q ∧ s.pccPage q = l.addr ∧
      evictedAddrOf ⟨l.dirty, l.addr, l.offset⟩ = l.addr + if s.promoted q then q % 512 else 0 := by
  obtain ⟨held, off⟩ := pccLine_offset val h
  obtain ⟨q, hq, page, _, use⟩ := keyed.usedFor held
  obtain ⟨a, is2M, use', off'⟩ := keyed.recorded _ held
  obtain ⟨rfl, rfl⟩ := Prod.mk.inj (Option.some.inj (use.symm.trans use'))
  have offset := Option.some.inj (off.symm.trans off')
  have small := val.small _ held
  refine ⟨q, hq, page, ?_⟩
  rw [evictedAddrOf, offset]
  cases s.promoted q with
  | true =>
    simp only [if_true, pageSize]
    omega
  | false =>
    simp only [Bool.false_eq_true, if_false, pageSize]
    omega

/-- The global variable for the region that is reset. -/
lemma promotionCacheLogic_evictedAddr {base r : Nat} (val : s.toCore.Valid g) (hb : base < 2 ^ 43)
    (h : s.promotionCacheLogic base = some t) (reset : s.resetRegion base = some r) :
    t.evictedAddr = r := by
  have ha := region_address_lt hb
  unfold resetRegion at reset
  split at reset
  case isTrue => cases reset
  case isFalse misses =>
    obtain ⟨hit, c, hacc, ⟨rfl, _⟩ | ⟨rfl, c', e, m, hins, rfl⟩⟩ := promotionCacheLogic_inv hb h
    · obtain ⟨_, _, res, _⟩ := val.promotionCache.access val.geometry.fits ha hacc
      rw [pageNumber_pcc val] at res
      exact absurd (res.mp rfl) misses
    · obtain ⟨v, _⟩ := val.promotionCache.access val.geometry.fits ha hacc
      obtain ⟨_, _, he, _⟩ := v.insert val.geometry.fits ha hins
      have report : e = s.pccReport base := by
        rw [he, val.promotionCache.access_false_reported hacc]
        rfl
      subst report
      split at reset
      case isTrue => cases reset
      case isFalse evicts =>
        rw [resetEvicted, if_neg evicts]
        exact Option.some.inj reset

/-- An eviction comes with a miss in all TLBs for a known region that misses in the promotion cache. -/
lemma EvictsPage.inv {alpha : Float} {now : Nat} {a : UInt64} (ev : EvictsPage s t n)
    (val : s.toCore.Valid g) (h : s.trackAccess alpha now a.toNat = some t) :
    ∃ u v, u.toCore.Valid g ∧ TlbFrame s u ∧
      ¬ u.promotionCache.Resident (u.pccPage (a.toNat / hugePageSize)) ∧
      (∃ l, pccLine u (a.toNat / hugePageSize) = some l ∧ l.addr = n) ∧
      u.promotionCacheLogic (a.toNat / hugePageSize) = some v ∧
      t = v.trackReuse alpha now (a.toNat / hugePageSize) := by
  obtain ⟨b, is2M, e, hist⟩ := ev
  obtain ⟨miss, u, hh, htail⟩ := trackAccess_inv h
  obtain ⟨val₁, frame, _⟩ := tlbHierarchy_spec val a.toNat_lt hh
  rw [← frame.promotionCache] at hist
  split at htail
  case isTrue =>
    obtain ⟨_, _, _, _, calls⟩ := trackMiss_spec val₁ (region_lt a) htail
    rw [hist] at calls
    unfold trackMiss at htail
    split at htail
    case isTrue known =>
      rw [if_pos known] at calls
      simp only [Option.bind_eq_bind, Option.bind_eq_some_iff] at htail
      obtain ⟨v, hlogic, htail⟩ := htail
      have misses : ¬ u.promotionCache.Resident (u.pccPage (a.toNat / hugePageSize)) := by
        intro hits
        rw [pccCalls, if_pos hits] at calls
        have len := congrArg List.length calls
        simp only [List.length_cons, List.length_append, List.length_nil] at len
        omega
      rw [pccCalls, if_neg misses] at calls
      simp only [List.cons_append, List.nil_append, List.cons.injEq, Event.inserted.injEq] at calls
      have victim := calls.1.2.2
      cases line : pccLine u (a.toNat / hugePageSize) with
      | none =>
        rw [(resetRegion_free misses line).1] at victim
        cases victim
      | some l =>
        rw [(resetRegion_full val₁ misses line).1] at victim
        exact ⟨u, v, val₁, frame, misses, ⟨l, line, (Option.some.inj victim).symm⟩, hlogic,
          (Option.some.inj htail).symm⟩
    case isFalse unknown =>
      rw [if_neg unknown] at calls
      have len := congrArg List.length calls
      simp only [List.length_cons, List.nil_append] at len
      omega
  case isFalse =>
    obtain rfl := Option.some.inj htail
    have len := congrArg List.length hist
    simp only [List.length_cons] at len
    omega

/-- When the promotion cache evicts a line that was inserted for region `r`, the reuse information of `r`
    is reset, and `evicted_addr` is `r`, if and only if tag and offset name `r`: neither `r` nor the
    region that the line was last used for is promoted, or the latter is the first that shares the tag,
    or both are promoted and the line was inserted and last used for the same region below 512. -/
theorem resets_victim_iff {m : Sim} {a : UInt64} {r : Nat} (h : simulate cfg as = some s)
    (hm : countAccess cfg s = some m)
    (ht : m.trackAccess cfg.alpha m.totalNumAccesses a.toNat = some t)
    (ev : EvictsPage m t n) (held : heldUnder m n = some r) :
    (t.evictedAddr = r ∧ t.reuseMap.find r = some {}) ↔ ∃ q, usedFor m n = some q ∧ Names m r q := by
  obtain ⟨g, val⟩ := simulate_valid (simulate_pos h) h
  obtain ⟨val', _⟩ := countAccess_spec val hm
  have keyed := (simulate_keyed h).countAccess val hm
  obtain ⟨u, v, valU, frame, misses, ⟨l, line, rfl⟩, hlogic, rfl⟩ := ev.inv val' ht
  have keyedU := keyed.congr frame.promotionCache frame.pccPromotions
  have same : ∀ b, u.promoted b = m.promoted b := by
    intro b
    rw [Sim.promoted, frame.pccPromotions]
    rfl
  obtain ⟨_, reset⟩ := resetRegion_full valU misses line
  obtain ⟨resident, _⟩ := pccLine_offset valU line
  obtain ⟨q, used, pageQ, named⟩ := evictedAddrOf_line valU keyedU line
  have heldU : heldUnder u l.addr = some r := by
    rw [heldUnder, frame.promotionCache]
    exact held
  obtain ⟨pageR, _⟩ := keyedU.held resident heldU
  have usedM : usedFor m l.addr = some q := by
    rw [Single.usedFor, ← frame.promotionCache]
    exact used
  have names : Names m r q ↔ evictedAddrOf ⟨l.dirty, l.addr, l.offset⟩ = r := by
    rw [named, ← names_iff pageR pageQ]
    unfold Names
    rw [same, same]
  obtain ⟨e, he⟩ := v.trackReuse_spec cfg.alpha m.totalNumAccesses (a.toNat / hugePageSize)
  have addr := promotionCacheLogic_evictedAddr valU (region_lt a) hlogic reset
  have reuse := (promotionCacheLogic_spec valU (region_lt a) hlogic).reuseMap
  -- the line of the region itself would have been found
  have other : r ≠ a.toNat / hugePageSize := by
    rintro rfl
    rw [pageR] at misses
    exact misses resident
  rw [he]
  constructor
  · rintro ⟨hr, _⟩
    exact ⟨q, usedM, names.mpr (addr.symm.trans hr)⟩
  · rintro ⟨q', used', named'⟩
    obtain rfl := Option.some.inj (usedM.symm.trans used')
    have hr := names.mp named'
    refine ⟨addr.trans hr, ?_⟩
    rw [UnorderedMap.find_set, if_neg other, reuse, reset, hr, if_pos rfl]

/-- The last two calls of the history tell which page went. -/
lemma evictsPage_of_take {m : Sim} {b v : Nat} {is2M : Bool} {e : Event}
    (calls : t.promotionCache.history.take 2 = [.inserted b is2M (some v), e])
    (before : t.promotionCache.history.drop 2 = m.promotionCache.history) : EvictsPage m t v := by
  refine ⟨b, is2M, e, ?_⟩
  rw [← List.take_append_drop 2 t.promotionCache.history, calls, before]
  rfl

/-- With one line in the promotion cache: it is inserted for the promoted region 512, under tag 1, and
    makes room for region 2. Instead of region 512, the information about region 1 is reset. -/
theorem evicted_misnamed :
    ∃ s m t, simulate ⟨1, 1, 5, 0.9⟩ (revisit.take 11) = some s ∧
      countAccess ⟨1, 1, 5, 0.9⟩ s = some m ∧
      m.trackAccess 0.9 m.totalNumAccesses (pageOf 2 3).toNat = some t ∧
      EvictsPage m t 1 ∧ heldUnder m 1 = some 512 ∧ t.evictedAddr = 1 ∧
      ¬ (∀ n r, EvictsPage m t n → heldUnder m n = some r →
        t.evictedAddr = r ∧ t.reuseMap.find r = some {}) := by
  have run : ((simulate ⟨1, 1, 5, 0.9⟩ (revisit.take 11)).bind fun s =>
      (countAccess ⟨1, 1, 5, 0.9⟩ s).bind fun m =>
        (m.trackAccess 0.9 m.totalNumAccesses (pageOf 2 3).toNat).map fun t =>
          (t.promotionCache.history.take 2,
            decide (t.promotionCache.history.drop 2 = m.promotionCache.history),
            heldUnder m 1, t.evictedAddr)) =
      some ([.inserted 8192 false (some 1), .accessed 8192 false false], true, some 512, 1) := by
    decide +kernel
  obtain ⟨s, h, hs⟩ := Option.bind_eq_some_iff.mp run
  obtain ⟨m, hm, hs⟩ := Option.bind_eq_some_iff.mp hs
  obtain ⟨t, ht, e⟩ := Option.map_eq_some_iff.mp hs
  simp only [Prod.mk.injEq, decide_eq_true_eq] at e
  obtain ⟨calls, before, held, addr⟩ := e
  have ev := evictsPage_of_take calls before
  refine ⟨s, m, t, h, hm, ht, ev, held, addr, ?_⟩
  intro all
  rw [(all 1 512 ev held).1] at addr
  cases addr

/-- With one line in the promotion cache and no pass: the line of region 1 makes room for region 2. -/
theorem resets_victim_iff_pair :
    ∃ s m t, simulate ⟨1, 1, 100, 0.9⟩ [pageOf 1 0, pageOf 1 1, pageOf 2 0] = some s ∧
      countAccess ⟨1, 1, 100, 0.9⟩ s = some m ∧
      m.trackAccess 0.9 m.totalNumAccesses (pageOf 2 1).toNat = some t ∧
      t.evictedAddr = 1 ∧ t.reuseMap.find 1 = some {} := by
  have run : ((simulate ⟨1, 1, 100, 0.9⟩ [pageOf 1 0, pageOf 1 1, pageOf 2 0]).bind fun s =>
      (countAccess ⟨1, 1, 100, 0.9⟩ s).bind fun m =>
        (m.trackAccess 0.9 m.totalNumAccesses (pageOf 2 1).toNat).map fun t =>
          (t.promotionCache.history.take 2,
            decide (t.promotionCache.history.drop 2 = m.promotionCache.history),
            heldUnder m 1, usedFor m 1, m.promoted 1)) =
      some ([.inserted 8192 false (some 1), .accessed 8192 false false], true, some 1, some 1,
        false) := by
    decide +kernel
  obtain ⟨s, h, hs⟩ := Option.bind_eq_some_iff.mp run
  obtain ⟨m, hm, hs⟩ := Option.bind_eq_some_iff.mp hs
  obtain ⟨t, ht, e⟩ := Option.map_eq_some_iff.mp hs
  simp only [Prod.mk.injEq, decide_eq_true_eq] at e
  obtain ⟨calls, before, held, used, unprom⟩ := e
  have ev := evictsPage_of_take calls before
  have resets := (resets_victim_iff h hm ht ev held).mpr ⟨1, used, .inl ⟨unprom, .inl unprom⟩⟩
  exact ⟨s, m, t, h, hm, ht, resets⟩

end
end PromotionCache.Pcc.Single
