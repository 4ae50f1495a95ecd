import PromotionCache.Pcc.SinglePasses
import PromotionCache.Pcc.Progress
import PromotionCache.Pcc.Tlbs

/-!
# What a pass leaves behind

A pass of the single-thread simulator goes over a snapshot of the promotion cache while it evicts from
all four caches. In every state of a trace it gets to its end: it evicts a tag only where a lookup has
just found it, or as the next candidate, and the candidates differ from each other. After it, the
promotions are those of `pass_effect`, the promotion cache is empty, and no TLB answers for a 4KB page
of a region that the pass has promoted.
-/

namespace PromotionCache.Pcc.Single
open Lib Tlb Sim

/-- The tags and frequencies of the lines in the promotion cache. -/
def entries (s : Sim) : List (Nat × Nat) :=
  s.promotionCache.sets.flatMap fun w => w.contents.map fun l => (l.addr, l.freq)

section
variable {cfg : Config} {g : Geometry} {s t : Sim}

/-- The lines are those of the regions that the promotion cache holds. -/
lemma mem_entries {b f : Nat} (val : s.toCore.Valid g) :
    (b, f) ∈ entries s ↔ s.promotionCache.Resident b ∧ s.freq b = some f := by
  have pcc := val.promotionCache
  have len : s.promotionCache.sets.length ≤ 1 := by
    have one := val.geometry.sets
    rw [← pcc.geometry] at one
    exact one
  have zero : s.promotionCache.logSetCount = 0 := pcc.logSets.trans val.geometry.logSets
  have all : ∀ n, n % 2 ^ s.promotionCache.logSetCount = 0 := by
    intro n
    rw [zero]
    exact Nat.mod_one n
  unfold entries
  cases sets : s.promotionCache.sets with
  | nil => simp [FunctionalCache.Resident, sets]
  | cons w more =>
    obtain rfl : more = [] := by
      rw [sets, List.length_cons] at len
      exact List.eq_nil_of_length_eq_zero (by omega)
    have first : s.promotionCache.sets[0]? = some w := by rw [sets]; rfl
    have mem := List.mem_of_getElem? first
    obtain ⟨ps, wf⟩ := (pcc.ok w mem).wf
    have ex := wf.exact_iff.mp (val.clearPcc w mem)
    -- a lookup of the region, and its frequency, are read off the set
    have bound : s.promotionCache.Resident b ↔ w.Bound b := by
      rw [FunctionalCache.resident_of_set first (all b), zero, Nat.pow_zero, Nat.div_one]
    have read : w.Bound b → s.freq b = w.getFreq b := by
      intro held
      have small := val.small b (bound.mpr held)
      have page : pageNumber g.logLine false (word (b * pageSize)) = b := by
        rw [word_region small, val.geometry.logLine, pageNumber_region]
        rfl
      rw [Sim.freq, FunctionalCache.getFreq, pcc.setid val.geometry.fits,
        pcc.tag val.geometry.fits (word_lt _), page, val.geometry.logSets, Nat.pow_zero, Nat.mod_one,
        Nat.div_one, first]
      rfl
    rw [bound, List.flatMap_singleton, wf.contents_eq, List.map_map, List.mem_map]
    constructor
    · rintro ⟨p, hp, e⟩
      obtain ⟨rfl, rfl⟩ := Prod.mk.inj e
      have found := ex.complete hp
      have held : w.Bound (w.line p).addr := ⟨p, found⟩
      exact ⟨held, (read held).trans (wf.getFreq_bound found)⟩
    · rintro ⟨⟨p, found⟩, freq⟩
      obtain ⟨hp, addr⟩ := ex.bound found
      rw [read ⟨p, found⟩, wf.getFreq_bound found] at freq
      exact ⟨p, hp, by rw [← addr, ← Option.some.inj freq]; rfl⟩

/-- A demotion does not fail. -/
lemma demote_some (val : s.toCore.Valid g) (base i : Nat) : ∃ t, demote s base i = some t := by
  obtain ⟨r, hinv⟩ := val.l1Tlb2m.invalidate_some fits2m (by decide)
    (word_lt (base * hugePageSize + i * pageSize)) true s.l1_2m.dirtyEvict
  obtain ⟨r', hinv'⟩ := val.l2Tlb.invalidate_some fitsL2 (by decide)
    (word_lt (base * hugePageSize + i * pageSize)) true s.l2.dirtyEvict
  simp only [demote, hinv, hinv', Option.bind_eq_bind, Option.bind_some]
  exact ⟨_, rfl⟩

/-- Neither does a branch of the pass. -/
lemma branch_some (val : s.toCore.Valid g) (i base f : Nat) : ∃ t, branch s i base f = some t := by
  unfold branch
  split
  case isTrue => exact demote_some val base i
  case isFalse =>
    split
    case isTrue => exact promote_some val base
    case isFalse => exact ⟨s, rfl⟩

/-- An iteration on a region that the promotion cache holds succeeds. -/
lemma summarizeEntry_some {i base : Nat} (val : s.toCore.Valid g)
    (held : s.promotionCache.Resident base) : ∃ t, summarizeEntry s i base = some t := by
  obtain ⟨f, hf⟩ := freq_resident val held
  have val₁ := valid_afterListing base f (s.promoted base) val
  obtain ⟨u, hstep⟩ := branch_some val₁ i base f
  obtain ⟨val₂, pcc, _⟩ := branch_spec val₁ hstep
  have held₂ : u.promotionCache.Resident base := by
    rw [pcc]
    exact held
  obtain ⟨t, hev⟩ := evictCandidate_some val₂ held₂
  exact ⟨t, summarizeEntry_eq_some.mpr ⟨f, u, hf, hstep, hev⟩⟩

/-- One iteration of a pass takes its candidate out of the promotion cache. -/
lemma summarizeEntry_resident {i base : Nat} (val : s.toCore.Valid g) (hbase : base < 2 ^ 43)
    (h : summarizeEntry s i base = some t) (b : Nat) :
    t.promotionCache.Resident b ↔ b ≠ base ∧ s.promotionCache.Resident b := by
  obtain ⟨f, u, _, hstep, hev⟩ := summarizeEntry_eq_some.mp h
  have val₁ := valid_afterListing base f (s.promoted base) val
  obtain ⟨val₂, pcc, _⟩ := branch_spec val₁ hstep
  obtain ⟨_, _, _, _, _, res⟩ := evictCandidate_spec val₂ hev
  rw [res, pcc, word_region hbase, Nat.mul_div_cancel _ (by decide)]
  rfl

/-- The loop over candidates that differ from each other, and that the promotion cache holds. -/
lemma summarizeFrom_some {i : Nat} {bases : List Nat} (val : s.toCore.Valid g) (nodup : bases.Nodup)
    (held : ∀ b ∈ bases, s.promotionCache.Resident b) :
    ∃ t, summarizeFrom s i bases = some t ∧
      ∀ b, t.promotionCache.Resident b ↔ b ∉ bases ∧ s.promotionCache.Resident b := by
  induction bases generalizing s i with
  | nil => exact ⟨s, rfl, by simp⟩
  | cons base bases ih =>
    obtain ⟨fresh, nodup⟩ := List.nodup_cons.mp nodup
    obtain ⟨hbase, held⟩ := List.forall_mem_cons.mp held
    obtain ⟨u, hentry⟩ := summarizeEntry_some (i := i) val hbase
    obtain ⟨val₁, _⟩ := summarizeEntry_spec val hentry
    have res := summarizeEntry_resident val (val.small base hbase) hentry
    have rest : ∀ b ∈ bases, u.promotionCache.Resident b := by
      intro b hb
      exact (res b).mpr ⟨fun e => fresh (e ▸ hb), held b hb⟩
    obtain ⟨t, ht, left⟩ := ih (i := i + 1) val₁ nodup rest
    refine ⟨t, ?_, ?_⟩
    · rw [summarizeFrom, hentry]
      exact ht
    · intro b
      rw [left, res, List.mem_cons, not_or, ← and_assoc, and_comm (a := b ∉ bases)]

/-- The promotion or demotion of a candidate, or neither of them, brings no page into the TLBs, and a
    promotion leaves none of its region. -/
lemma branch_answers {i base f : Nat} (val : s.toCore.Valid g) (hbase : base < 2 ^ 43)
    (h : branch s i base f = some t) :
    (∀ n, n < 2 ^ 52 → t.Answers4k n → s.Answers4k n) ∧
      (s.promoted base = false → t.promoted base = true →
        ∀ n, n < 2 ^ 52 → n / 512 = base → ¬ t.Answers4k n) := by
  have promoted := branch_promoted val h base
  unfold branch at h
  split at h
  case isTrue prom =>
    simp only [demote, Option.bind_eq_bind, Option.bind_eq_some_iff] at h
    obtain ⟨⟨c, d⟩, _, ⟨c', d'⟩, hinv', h⟩ := h
    obtain rfl := Option.some.inj h
    obtain ⟨_, res, _⟩ := val.l2Tlb.invalidate fitsL2 (word_lt _) hinv'
    refine ⟨?_, ?_⟩
    · intro n _ answers
      exact answers.imp_right fun held => ((res n).mp held).2
    · intro unprom
      rw [prom] at unprom
      cases unprom
  case isFalse =>
    split at h
    case isTrue =>
      refine ⟨?_, ?_⟩
      · intro n hn answers
        exact ((promote_answers val hbase hn h).mp answers).2
      · intro _ _ n hn region answers
        exact ((promote_answers val hbase hn h).mp answers).1 region
    case isFalse zero =>
      obtain rfl := Option.some.inj h
      refine ⟨fun n _ answers => answers, ?_⟩
      intro unprom prom
      rw [unprom] at prom
      cases prom

/-- One iteration of a pass. -/
lemma summarizeEntry_answers {i base : Nat} (val : s.toCore.Valid g) (hbase : base < 2 ^ 43)
    (h : summarizeEntry s i base = some t) :
    (∀ n, n < 2 ^ 52 → t.Answers4k n → s.Answers4k n) ∧
      (s.promoted base = false → t.promoted base = true →
        ∀ n, n < 2 ^ 52 → n / 512 = base → ¬ t.Answers4k n) := by
  obtain ⟨f, u, _, hstep, hev⟩ := summarizeEntry_eq_some.mp h
  have val₁ := valid_afterListing base f (s.promoted base) val
  obtain ⟨val₂, _⟩ := branch_spec val₁ hstep
  obtain ⟨_, _, prom, _⟩ := evictCandidate_spec val₂ hev
  obtain ⟨fewer, none⟩ := branch_answers val₁ hbase hstep
  refine ⟨?_, ?_⟩
  · intro n hn answers
    exact fewer n hn ((evictCandidate_answers hev).mp answers)
  · intro before after n hn region answers
    have after' : u.promoted base = true := by
      rw [Sim.promoted, ← prom]
      exact after
    exact none before after' n hn region ((evictCandidate_answers hev).mp answers)

/-- The loop of a pass, by induction on the candidates. -/
lemma summarizeFrom_answers {i : Nat} {bases : List Nat} (val : s.toCore.Valid g)
    (nodup : bases.Nodup) (small : ∀ b ∈ bases, b < 2 ^ 43)
    (h : summarizeFrom s i bases = some t) :
    (∀ n, n < 2 ^ 52 → t.Answers4k n → s.Answers4k n) ∧
      ∀ b, s.promoted b = false → t.promoted b = true →
        ∀ n, n < 2 ^ 52 → n / 512 = b → ¬ t.Answers4k n := by
  induction bases generalizing s i with
  | nil =>
    obtain rfl := Option.some.inj h
    refine ⟨fun n _ answers => answers, ?_⟩
    intro b before after
    rw [before] at after
    cases after
  | cons base bases ih =>
    simp only [summarizeFrom, Option.bind_eq_bind, Option.bind_eq_some_iff] at h
    obtain ⟨u, hentry, h⟩ := h
    obtain ⟨fresh, nodup⟩ := List.nodup_cons.mp nodup
    obtain ⟨hbase, small⟩ := List.forall_mem_cons.mp small
    obtain ⟨val₁, _⟩ := summarizeEntry_spec val hentry
    obtain ⟨_, _, others, _⟩ := summarizeEntry_exact val hbase hentry
    obtain ⟨_, _, rest⟩ := summarizeFrom_exact val₁ nodup small h
    obtain ⟨fewer, none⟩ := summarizeEntry_answers val hbase hentry
    obtain ⟨fewer', none'⟩ := ih val₁ nodup small h
    refine ⟨fun n hn answers => fewer n hn (fewer' n hn answers), ?_⟩
    intro b before after n hn region answers
    by_cases here : b = base
    · subst here
      rw [rest b fresh] at after
      exact none before after n hn region (fewer' n hn answers)
    · rw [← others b here] at before
      exact none' b before after n hn region answers

/-- The lookup of a page that no TLB answers for misses in both TLBs. -/
lemma misses_of_not_answers {a : UInt64} (val : s.toCore.Valid g)
    (none : ¬ s.Answers4k (a.toNat / pageSize)) (isLoad : Bool) :
    (s.l1Tlb4k.access a.toNat isLoad false).map Prod.fst = some false ∧
      (s.l2Tlb.access a.toNat isLoad false).map Prod.fst = some false := by
  obtain ⟨not4k, notL2⟩ := not_or.mp none
  constructor
  · obtain ⟨⟨hit, c⟩, hacc⟩ := val.l1Tlb4k.access_some fits4k (by decide) a.toNat isLoad false
    have miss : hit = false := by
      apply Bool.eq_false_of_not_eq_true
      rw [(val.l1Tlb4k.access fits4k a.toNat_lt hacc).2.2.1]
      exact not4k
    rw [hacc, Option.map_some, miss]
  · obtain ⟨⟨hit, c⟩, hacc⟩ := val.l2Tlb.access_some fitsL2 (by decide) a.toNat isLoad false
    have miss : hit = false := by
      apply Bool.eq_false_of_not_eq_true
      rw [(val.l2Tlb.access fitsL2 a.toNat_lt hacc).2.2.1]
      exact notL2
    rw [hacc, Option.map_some, miss]

/-- What a pass does from any state whose caches are valid. -/
lemma summarizePromotions_effect (val : s.toCore.Valid g) :
    ∃ t, summarizePromotions s = some t ∧ t.toCore.Valid g ∧
      (∀ b, t.promoted b = true ↔
        if s.promotionCache.Resident b then s.Promotes b else s.promoted b = true) ∧
      (∀ b, ¬ t.promotionCache.Resident b) ∧
      ∀ b, s.promoted b = false → t.promoted b = true →
        ∀ n, n < 2 ^ 52 → n / 512 = b → ¬ t.Answers4k n := by
  obtain ⟨bases, hget⟩ := val.promotionCache.getEntries_some
  obtain ⟨nodup, mem⟩ := val.entries hget
  set s₁ : Sim := { s with cout := s.cout ++ [.regions s.totalNumAccesses none] } with hs₁
  have val₁ : s₁.toCore.Valid g := val
  have small : ∀ b ∈ bases, b < 2 ^ 43 := fun b hb => val.small b ((mem b).mp hb)
  obtain ⟨t, ht, left⟩ := summarizeFrom_some (i := 0) val₁ nodup fun b hb => (mem b).mp hb
  obtain ⟨val₂, _⟩ := summarizeFrom_spec val₁ ht
  obtain ⟨_, own, others⟩ := summarizeFrom_exact val₁ nodup small ht
  obtain ⟨_, none⟩ := summarizeFrom_answers val₁ nodup small ht
  refine ⟨t, ?_, val₂, ?_, ?_, none⟩
  · simp only [summarizePromotions, hget, Option.bind_eq_bind, Option.bind_some]
    exact ht
  · intro b
    split
    case isTrue held => exact own b ((mem b).mpr held)
    case isFalse free => rw [others b (fun hb => free ((mem b).mp hb))]; rfl
  · intro b held
    obtain ⟨notin, held⟩ := (left b).mp held
    exact notin ((mem b).mpr held)

/-- An access gets to its end, with or without a pass, if the promotion cache has a set. -/
lemma pccTrackAccess_some (val : s.toCore.Valid g) (sets : 1 ≤ g.sets) (ne : cfg.period ≠ 0) (a : UInt64) :
    ∃ t, pccTrackAccess cfg s a = some t := by
  have valC : (counted s).toCore.Valid g := val
  have counts : ∃ m, countAccess cfg s = some m := by
    by_cases due : passDue cfg (counted s).totalNumAccesses = true
    · obtain ⟨m, hm, _⟩ := summarizePromotions_effect valC
      exact ⟨m, (countAccess_due ne due).trans hm⟩
    · refine ⟨counted s, ?_⟩
      unfold countAccess
      rw [if_neg ne]
      exact if_neg due
  obtain ⟨m, hm⟩ := counts
  obtain ⟨valM, _⟩ := countAccess_spec val hm
  obtain ⟨t, ht⟩ := trackAccess_some valM sets cfg.alpha m.totalNumAccesses a
  refine ⟨t, ?_⟩
  simp only [pccTrackAccess, hm, Option.bind_eq_bind, Option.bind_some]
  exact ht

/-- A pass in any state of a trace, before or after the access that triggers it is counted, gets to its
    end: `evict` and `getFreq` stop on a tag that is not resident. It leaves promoted what was promoted and
    what has a line with a frequency above zero, without the promoted regions that have a line; it empties the
    promotion cache; and every 4KB lookup of a newly promoted region misses. -/
theorem pass_effect {as : List UInt64} {u : Sim} (h : simulate cfg as = some s)
    (here : u = s ∨ u = counted s) :
    ∃ t, summarizePromotions u = some t ∧
      (∀ b, t.promoted b = true ↔
        (u.promoted b = true ∨ ∃ f, (b, f) ∈ entries u ∧ 0 < f ∧ u.promoted b = false) ∧
          ¬ ∃ f, (b, f) ∈ entries u ∧ u.promoted b = true) ∧
      entries t = [] ∧
      ∀ b, u.promoted b = false → t.promoted b = true → ∀ a : UInt64, a.toNat / hugePageSize = b →
        ∀ isLoad, (t.l1Tlb4k.access a.toNat isLoad false).map Prod.fst = some false ∧
          (t.l2Tlb.access a.toNat isLoad false).map Prod.fst = some false := by
  obtain ⟨g, val⟩ := simulate_valid (simulate_pos h) h
  have valU : u.toCore.Valid g := by
    rcases here with rfl | rfl
    · exact val
    · exact val
  obtain ⟨t, ht, val', prom, empty, none⟩ := summarizePromotions_effect valU
  refine ⟨t, ht, ?_, ?_, ?_⟩
  · intro b
    simp only [prom b, mem_entries valU, Promotes]
    split
    case isTrue held =>
      obtain ⟨f, hf⟩ := freq_resident valU held
      simp only [held, hf, true_and, Option.some.injEq, exists_eq_left']
      cases u.promoted b <;> simp
    case isFalse free => simp [free]
  · apply List.eq_nil_iff_forall_not_mem.mpr
    rintro ⟨b, f⟩ mem
    exact empty b ((mem_entries val').mp mem).1
  · intro b before after a region isLoad
    apply misses_of_not_answers val'
    exact none b before after _ (page_lt a) ((page_region a).trans region)

/-- The pass after three pages of region 1 promotes the region. -/
theorem pass_effect_walk :
    ∃ s t, simulate ⟨1, 1, 4, 0.9⟩ walk.dropLast = some s ∧ summarizePromotions s = some t ∧
      t.promoted 1 = true ∧ entries t = [] := by
  have run : (simulate ⟨1, 1, 4, 0.9⟩ walk.dropLast).map (fun s => (s.promoted 1, entries s)) =
      some (false, [(1, 1)]) := by decide +kernel
  obtain ⟨s, h, hs⟩ := Option.map_eq_some_iff.mp run
  obtain ⟨unprom, lines⟩ := Prod.mk.inj hs
  obtain ⟨t, ht, prom, empty, _⟩ := pass_effect h (.inl rfl)
  refine ⟨s, t, h, ht, (prom 1).mpr ⟨.inr ⟨1, ?_, by decide, unprom⟩, ?_⟩, empty⟩
  · rw [lines]
    exact List.mem_singleton_self _
  · rintro ⟨_, _, prom⟩
    rw [unprom] at prom
    cases prom

end
end PromotionCache.Pcc.Single
