import PromotionCache.Pcc.Lockstep
import PromotionCache.Pcc.MultiSpec

/-!
# What a thread learns of the others

As long as no pass runs, a thread shares nothing with the others but the globals that the
out-parameters of its insertions write. They are read in one place: when its promotion cache takes in
a region and has a free line, the entry of the reuse map that is reset is the one that
`l1_4k_evicted_tag` and `l1_4k_evicted_offset` name, whoever wrote them. Two runs in which a thread
makes the same accesses look the same to it exactly if that makes no difference (`isolated_iff`).
-/

namespace PromotionCache.Pcc.Multi
open Lib Tlb Sim

/-- The region that the globals of the 4KB L1 TLB name. -/
def named (e : Evicted) : Option Nat := if e.evictedTag = -1 then none else some (evictedAddrOf e)

/-- A reset before `TRACK_REUSE` for region `base` makes no difference to it. -/
def Spares (m : UnorderedMap Nat Reuse) (alpha : Float) (now base : Nat) (lost : Option Nat) : Prop :=
  ∀ r, lost = some r →
    if r = base then nextReuse alpha now {} = nextReuse alpha now (m.get base {})
    else m.find r = some {}

section
variable {m : UnorderedMap Nat Reuse} {alpha : Float} {now base : Nat} {lost lost' : Option Nat}

/-- What the reuse map holds after an entry may have been reset and a region has been tracked. -/
lemma find_reset_tracked (k : Nat) :
    (reuseTracked (resetting m lost) alpha now base).find k =
      if k = base then some (nextReuse alpha now (if lost = some base then {} else m.get base {}))
      else if lost = some k then some {} else m.find k := by
  have entry : (resetting m lost).get base {} = if lost = some base then {} else m.get base {} := by
    unfold UnorderedMap.get
    rw [find_resetting]
    split <;> rfl
  rw [reuseTracked, UnorderedMap.find_set, entry, find_resetting]

/-- A reset that spares the map changes nothing that is tracked. -/
lemma Spares.eq (h : Spares m alpha now base lost) :
    reuseTracked (resetting m lost) alpha now base = reuseTracked m alpha now base := by
  apply UnorderedMap.ext
  intro k
  rw [find_reset_tracked, reuseTracked, UnorderedMap.find_set]
  split
  case isTrue =>
    split
    case isTrue e =>
      have same := h base e
      rw [if_pos rfl] at same
      rw [same]
    case isFalse => rfl
  case isFalse ne =>
    split
    case isTrue e =>
      have zero := h k e
      rw [if_neg ne] at zero
      exact zero.symm
    case isFalse => rfl

/-- Where two resets lead to the same map and differ, the first makes no difference. -/
lemma spares_of_eq (ne : lost ≠ lost')
    (h : reuseTracked (resetting m lost) alpha now base =
      reuseTracked (resetting m lost') alpha now base) : Spares m alpha now base lost := by
  intro r e
  have same := congrArg (·.find r) h
  simp only [find_reset_tracked] at same
  have other : lost' ≠ some r := fun e' => ne (e.trans e'.symm)
  split
  case isTrue own =>
    subst own
    simpa [e, other] using same
  case isFalse no =>
    simpa [e, other, no] using same.symm

/-- Two resets lead to the same map if they are of one region or make no difference. -/
lemma reset_eq_iff :
    reuseTracked (resetting m lost) alpha now base =
        reuseTracked (resetting m lost') alpha now base ↔
      lost = lost' ∨ (Spares m alpha now base lost ∧ Spares m alpha now base lost') := by
  constructor
  · intro h
    by_cases e : lost = lost'
    · exact .inl e
    · exact .inr ⟨spares_of_eq e h, spares_of_eq (Ne.symm e) h.symm⟩
  · rintro (rfl | ⟨spares, spares'⟩)
    · rfl
    · rw [spares.eq, spares'.eq]

end
/-- Where the promotion cache logic starts in `u` and `u'`, at access count `now`, a free line in the
    promotion cache lets no difference of the globals into the reuse map. -/
def NoLeak (alpha : Float) (now base : Nat) (u u' : Sim) : Prop :=
  u.reuseMap.contains base = true → ¬ u.promotionCache.Resident (u.pccPage base) →
    u.pccVictim base = none →
      named u.l1_4k = named u'.l1_4k ∨
        (Spares u.reuseMap alpha now base (named u.l1_4k) ∧
          Spares u.reuseMap alpha now base (named u'.l1_4k))

section
variable {g : Geometry} {alpha : Float} {now base : Nat} {u u' t t' : Sim}

/-- A hit in the promotion cache resets nothing. -/
lemma resetRegion_none (hits : u.promotionCache.Resident (u.pccPage base)) :
    u.resetRegion base = none := if_pos hits

/-- With room in the promotion cache, the entry is reset that the L1 TLB has named last. -/
lemma resetRegion_free (misses : ¬ u.promotionCache.Resident (u.pccPage base))
    (free : u.pccVictim base = none) : u.resetRegion base = named u.l1_4k := by
  rw [resetRegion, if_neg misses]
  rw [pccVictim, FunctionalCache.victimPage, Option.map_eq_none_iff] at free
  unfold pccReport FunctionalCache.reported named
  rw [free]
  rfl

/-- Where a line has to go, the entry that is reset does not depend on the L1 TLB. -/
lemma resetRegion_full (alike : Alike False u u') (full : u.pccVictim base ≠ none) :
    u'.resetRegion base = u.resetRegion base := by
  obtain ⟨n, hn⟩ := Option.ne_none_iff_exists'.mp full
  rw [pccVictim, FunctionalCache.victimPage, Option.map_eq_some_iff] at hn
  obtain ⟨l, hl, _⟩ := hn
  unfold resetRegion pccReport pccPage FunctionalCache.reported
  rw [alike.promoted, alike.promotionCache, hl]

/-- Equal caches and reuse maps are the same after a miss if and only if no difference leaks. -/
lemma trackMiss_same_iff (alike : Alike False u u') (reuse : u'.reuseMap = u.reuseMap)
    (val : u.toCore.Valid g) (hb : base < 2 ^ 43) (h : u.trackMiss alpha now base = some t)
    (h' : u'.trackMiss alpha now base = some t') :
    t'.toCore = t.toCore ↔ NoLeak alpha now base u u' := by
  obtain ⟨t₁, h₁, after⟩ := trackMiss_alike now alike val hb (by rw [reuse]) h
  obtain rfl := Option.some.inj (h'.symm.trans h₁)
  have core : t'.toCore = t.toCore ↔ t'.reuseMap = t.reuseMap := by
    constructor
    · exact congrArg Core.reuseMap
    · intro e
      exact Core.ext after.l1Tlb4k after.l1Tlb2m after.l2Tlb after.promotionCache e
  rw [core, trackMiss_reuse val hb h, trackMiss_reuse (alike.valid val) hb h', reuse]
  unfold NoLeak
  by_cases known : u.reuseMap.contains base = true
  · simp only [known, if_true, true_implies]
    by_cases hits : u.promotionCache.Resident (u.pccPage base)
    · have hits' : u'.promotionCache.Resident (u'.pccPage base) := by
        unfold pccPage
        rw [alike.promotionCache, alike.promoted]
        exact hits
      rw [resetRegion_none hits, resetRegion_none hits']
      exact iff_of_true rfl fun miss => absurd hits miss
    · by_cases free : u.pccVictim base = none
      · have hits' : ¬ u'.promotionCache.Resident (u'.pccPage base) := by
          unfold pccPage
          rw [alike.promotionCache, alike.promoted]
          exact hits
        have free' : u'.pccVictim base = none := by
          unfold pccVictim
          rw [alike.promotionCache, alike.promoted]
          exact free
        rw [resetRegion_free hits free, resetRegion_free hits' free', eq_comm, reset_eq_iff]
        exact ⟨fun same _ _ => same, fun same => same hits free⟩
      · rw [resetRegion_full alike free]
        exact iff_of_true rfl fun _ none => absurd none free
  · simp only [known, if_false, false_implies, Bool.false_eq_true]

end

section
variable {cfg : Config} {n n' tid : Nat} {s s' t t' : Mt} {a : UInt64}

/-- In an access of thread `tid` to `a` from state `s` that triggers no pass, the promotion cache
    logic starts in `u`, at access count `now`. -/
def Reaches (s : Mt) (tid : Nat) (a : UInt64) (now : Nat) (u : Sim) : Prop :=
  ∃ th, (counted s tid).threads[tid]? = some th ∧ th.numAccesses = now ∧
    (th.view (counted s tid)).tlbHierarchy a.toNat = some (true, u)

/-- An access that triggers no pass is the path of its thread through the caches. -/
lemma quiet_step {x : UInt64 × Nat} (val : s.Valid) (st : pccTrackAccess cfg s x = some t)
    (quiet : t.passes (some x.2) = s.passes (some x.2)) :
    onThread (counted s x.2) x.2
      (fun numAccesses u => u.trackAccess cfg.alpha numAccesses x.1.toNat) = some t := by
  obtain ⟨_, _, _, count, hcount, passes⟩ := pccTrackAccess_spec val st
  obtain ⟨a, tid⟩ := x
  simp only [pccTrackAccess, Option.bind_eq_bind, Option.bind_eq_some_iff] at st
  obtain ⟨m, hm, htrack⟩ := st
  obtain ⟨_, count', hcount', pass⟩ := countAccess_inv hm
  obtain rfl := Option.some.inj (hcount.symm.trans hcount')
  split at pass
  case isTrue due =>
    have more := passes tid
    rw [if_pos ⟨rfl, due⟩, show t.passes (some tid) = s.passes (some tid) from quiet] at more
    omega
  case isFalse =>
    obtain rfl := Option.some.inj pass
    exact htrack

/-- Counting an access is no matter of the other threads. -/
lemma counted_other {i : Nat} (ne : i ≠ tid) : (counted s tid).threads[i]? = s.threads[i]? := by
  simp [counted, Ne.symm ne]

/-- The accesses of a thread are no matter of the others. -/
lemma quiet_step_other {x : UInt64 × Nat} (val : s.Valid) (st : pccTrackAccess cfg s x = some t)
    (quiet : t.passes (some x.2) = s.passes (some x.2)) :
    t.pccPromotions = s.pccPromotions ∧ ∀ i, i ≠ x.2 → t.threads[i]? = s.threads[i]? := by
  have track := quiet_step val st quiet
  obtain ⟨th, u, hth, hu, shared, threads⟩ := onThread_inv track
  obtain ⟨g, vth⟩ := counted_valid val x.2 th (List.mem_of_getElem? hth)
  have vview : (th.view (counted s x.2)).toCore.Valid g := vth
  obtain ⟨_, prom, _⟩ := trackAccess_spec vview hu
  constructor
  · rw [shared]
    exact prom
  · intro i ne
    rw [threads, List.getElem?_set_ne (Ne.symm ne), counted_other ne]

/-- After an access of its own a thread is in the same state in both runs if and only if no
    difference leaks. -/
lemma quiet_step_same_iff (val : s.Valid) (prom : s'.pccPromotions = s.pccPromotions)
    (same : s'.threads[tid]? = s.threads[tid]?) (st : pccTrackAccess cfg s (a, tid) = some t)
    (quiet : t.passes (some tid) = s.passes (some tid))
    (st' : pccTrackAccess cfg s' (a, tid) = some t') (val' : s'.Valid)
    (quiet' : t'.passes (some tid) = s'.passes (some tid)) :
    t'.threads[tid]? = t.threads[tid]? ↔ ∀ now u u', Reaches s tid a now u →
      Reaches s' tid a now u' → NoLeak cfg.alpha now (a.toNat / hugePageSize) u u' := by
  obtain ⟨th, v, hth, hv, _, threads⟩ := onThread_inv (quiet_step val st quiet)
  obtain ⟨th', v', hth', hv', _, threads'⟩ := onThread_inv (quiet_step val' st' quiet')
  obtain ⟨g, vth⟩ := counted_valid val tid th (List.mem_of_getElem? hth)
  -- the thread before the access, counted
  have counted_same : (counted s' tid).threads[tid]? = (counted s tid).threads[tid]? := by
    simp only [counted, List.getElem?_modify, same]
  obtain rfl := Option.some.inj (hth'.symm.trans (counted_same.trans hth))
  have alike : Alike False (th'.view (counted s tid)) (th'.view (counted s' tid)) :=
    ⟨rfl, rfl, rfl, rfl, prom, False.elim⟩
  have vview : (th'.view (counted s tid)).toCore.Valid g := vth
  have after : t'.threads[tid]? = t.threads[tid]? ↔ v'.toCore = v.toCore := by
    have lt := (List.getElem?_eq_some_iff.mp hth).1
    have lt' := (List.getElem?_eq_some_iff.mp hth').1
    rw [threads, threads', List.getElem?_set_self lt, List.getElem?_set_self lt']
    simp
  rw [after]
  obtain ⟨miss, u, hh, htail⟩ := trackAccess_inv hv
  obtain ⟨u', hh', alike'⟩ := tlbHierarchy_alike alike vview a.toNat_lt hh
  obtain ⟨valU, frame, _⟩ := tlbHierarchy_spec vview a.toNat_lt hh
  obtain ⟨_, frame', _⟩ := tlbHierarchy_spec (alike.valid vview) a.toNat_lt hh'
  have reuse : u'.reuseMap = u.reuseMap := by
    rw [frame.reuseMap, frame'.reuseMap]
    rfl
  obtain ⟨miss', u₂, hh₂, htail'⟩ := trackAccess_inv hv'
  obtain ⟨rfl, rfl⟩ := Prod.mk.inj (Option.some.inj (hh₂.symm.trans hh'))
  cases miss' with
  | true =>
    rw [trackMiss_same_iff alike' reuse valU (region_lt a) htail htail']
    constructor
    · rintro leak now w w' ⟨_, hw, rfl, hwalk⟩ ⟨_, hw', _, hwalk'⟩
      obtain rfl := Option.some.inj (hth.symm.trans hw)
      obtain rfl := Option.some.inj (hth'.symm.trans hw')
      obtain ⟨_, rfl⟩ := Prod.mk.inj (Option.some.inj (hh.symm.trans hwalk))
      obtain ⟨_, rfl⟩ := Prod.mk.inj (Option.some.inj (hh'.symm.trans hwalk'))
      exact leak
    · intro leak
      exact leak _ u u₂ ⟨_, hth, rfl, hh⟩ ⟨_, hth', rfl, hh'⟩
  | false =>
    obtain rfl := Option.some.inj htail
    obtain rfl := Option.some.inj htail'
    refine iff_of_true ?_ ?_
    · exact Core.ext alike'.l1Tlb4k alike'.l1Tlb2m alike'.l2Tlb alike'.promotionCache reuse
    · rintro now w w' ⟨_, hw, _, hwalk⟩ _
      obtain rfl := Option.some.inj (hth.symm.trans hw)
      obtain ⟨missed, _⟩ := Prod.mk.inj (Option.some.inj (hh.symm.trans hwalk))
      cases missed

end

/-- A run in which no pass takes place. -/
def Quiet (cfg : Config) (n : Nat) (as : List (UInt64 × Nat)) : Prop :=
  ∃ s, simulate cfg n as = some s ∧ ∀ i, s.passes (some i) = 0

/-- The addresses that a thread accesses in a trace. -/
def own (tid : Nat) (as : List (UInt64 × Nat)) : List UInt64 :=
  (as.filter fun x => x.2 = tid).map Prod.fst

/-- TLBs, promotion cache, reuse map and access count of thread `tid` are the same in two runs at the
    points up to which it has made the same accesses. -/
def Isolated (cfg : Config) (n n' tid : Nat) (as bs : List (UInt64 × Nat)) : Prop :=
  ∀ pre qre s s', pre <+: as → qre <+: bs → own tid pre = own tid qre →
    simulate cfg n pre = some s → simulate cfg n' qre = some s' →
      s'.threads[tid]? = s.threads[tid]?

section
variable {cfg : Config} {n n' tid : Nat} {as bs : List (UInt64 × Nat)} {s s' t t' : Mt}

/-- The last access of a run without passes. -/
lemma Quiet.snoc {x : UInt64 × Nat} (quiet : Quiet cfg n (as ++ [x])) :
    ∃ s t, simulate cfg n as = some s ∧ (∀ i, s.passes (some i) = 0) ∧
      pccTrackAccess cfg s x = some t ∧ ∀ i, t.passes (some i) = 0 := by
  obtain ⟨t, ht, none⟩ := quiet
  obtain ⟨s, hs, st⟩ := simulate_snoc.mp ht
  obtain ⟨_, _, _, count, _, passes⟩ := pccTrackAccess_spec (simulate_valid hs) st
  refine ⟨s, t, hs, fun i => ?_, st, none⟩
  have le := passes i
  rw [none i] at le
  omega

/-- A beginning of a quiet run is quiet. -/
lemma Quiet.shorter {pre : List (UInt64 × Nat)} (quiet : Quiet cfg n as) (h : pre <+: as) :
    Quiet cfg n pre := by
  obtain ⟨cs, rfl⟩ := h
  induction cs using List.reverseRecOn with
  | nil =>
    rw [List.append_nil] at quiet
    exact quiet
  | append_singleton cs c ih =>
    rw [← List.append_assoc] at quiet
    obtain ⟨s, _, hs, none, _⟩ := quiet.snoc
    exact ih ⟨s, hs, none⟩

/-- Without passes nothing is promoted. -/
lemma Quiet.unpromoted (quiet : Quiet cfg n as) (h : simulate cfg n as = some s) :
    s.pccPromotions = .empty := by
  induction as using List.reverseRecOn generalizing s with
  | nil =>
    exact (promotionCacheInit_threads (simulate_nil.mp h)).2.1
  | append_singleton as x ih =>
    obtain ⟨u, v, hu, none, st, none'⟩ := quiet.snoc
    obtain ⟨_, hu', st'⟩ := simulate_snoc.mp h
    obtain rfl := Option.some.inj (hu.symm.trans hu')
    obtain rfl := Option.some.inj (st.symm.trans st')
    have same : v.passes (some x.2) = u.passes (some x.2) := by rw [none, none']
    rw [(quiet_step_other (simulate_valid hu) st same).1]
    exact ih ⟨u, hu, none⟩ hu

/-- An access of another thread. -/
lemma Quiet.other {x : UInt64 × Nat} (quiet : Quiet cfg n (as ++ [x])) (other : x.2 ≠ tid)
    (h : simulate cfg n (as ++ [x]) = some t) :
    ∃ s, simulate cfg n as = some s ∧ t.threads[tid]? = s.threads[tid]? := by
  obtain ⟨s, t', hs, none, st, none'⟩ := quiet.snoc
  obtain ⟨_, hs', st'⟩ := simulate_snoc.mp h
  obtain rfl := Option.some.inj (hs.symm.trans hs')
  obtain rfl := Option.some.inj (st.symm.trans st')
  have same : t'.passes (some x.2) = s.passes (some x.2) := by rw [none, none']
  exact ⟨s, hs, (quiet_step_other (simulate_valid hs) st same).2 tid (Ne.symm other)⟩

/-- Corresponding accesses of a thread, from states in which it is the same. -/
lemma Quiet.own_iff {a : UInt64} (quiet : Quiet cfg n (as ++ [(a, tid)]))
    (quiet' : Quiet cfg n' (bs ++ [(a, tid)])) (hs : simulate cfg n as = some s)
    (hs' : simulate cfg n' bs = some s') (same : s'.threads[tid]? = s.threads[tid]?)
    (ht : simulate cfg n (as ++ [(a, tid)]) = some t)
    (ht' : simulate cfg n' (bs ++ [(a, tid)]) = some t') :
    t'.threads[tid]? = t.threads[tid]? ↔ ∀ now u u', Reaches s tid a now u →
      Reaches s' tid a now u' → NoLeak cfg.alpha now (a.toNat / hugePageSize) u u' := by
  obtain ⟨s₁, t₁, hs₁, none, st, noneT⟩ := quiet.snoc
  obtain ⟨s₂, t₂, hs₂, none', st', noneT'⟩ := quiet'.snoc
  obtain rfl := Option.some.inj (hs.symm.trans hs₁)
  obtain rfl := Option.some.inj (hs'.symm.trans hs₂)
  obtain rfl := Option.some.inj ((simulate_snoc.mpr ⟨s, hs, st⟩).symm.trans ht)
  obtain rfl := Option.some.inj ((simulate_snoc.mpr ⟨s', hs', st'⟩).symm.trans ht')
  have prom : s'.pccPromotions = s.pccPromotions := by
    rw [Quiet.unpromoted ⟨s, hs, none⟩ hs, Quiet.unpromoted ⟨s', hs', none'⟩ hs']
  have same_passes : t₁.passes (some tid) = s.passes (some tid) := by rw [none, noneT]
  have same_passes' : t₂.passes (some tid) = s'.passes (some tid) := by rw [none', noneT']
  exact quiet_step_same_iff (simulate_valid hs) prom same st same_passes st' (simulate_valid hs')
    same_passes'

/-- An access of another thread is none of its own. -/
lemma own_snoc_other {x : UInt64 × Nat} (other : x.2 ≠ tid) : own tid (as ++ [x]) = own tid as := by
  simp [own, List.filter_append, other]

/-- An access of the thread is its last one. -/
lemma own_snoc_own {a : UInt64} : own tid (as ++ [(a, tid)]) = own tid as ++ [a] := by
  simp [own, List.filter_append]

/-- Every thread starts in the same state. -/
lemma starts_fresh (lt : tid < n) (h : simulate cfg n [] = some s) :
    s.threads[tid]? = (initCore cfg).map fun core => { toCore := core, numAccesses := 0 } := by
  obtain ⟨len, _, fresh⟩ := promotionCacheInit_threads (simulate_nil.mp h)
  have hth := List.getElem?_eq_getElem (len.symm ▸ lt : tid < s.threads.length)
  obtain ⟨core, zero⟩ := fresh _ (List.mem_of_getElem? hth)
  rw [hth, core, Option.map_some, ← zero]

/-- Thread `tid` is isolated from the others in two runs without passes if and only if none of its
    accesses lets a difference of the shared globals into its reuse map. -/
theorem isolated_iff (lt : tid < n) (lt' : tid < n') (quiet : Quiet cfg n as)
    (quiet' : Quiet cfg n' bs) :
    Isolated cfg n n' tid as bs ↔ ∀ pre qre a s s', pre ++ [(a, tid)] <+: as →
      qre ++ [(a, tid)] <+: bs → own tid pre = own tid qre → simulate cfg n pre = some s →
      simulate cfg n' qre = some s' → ∀ now u u', Reaches s tid a now u →
        Reaches s' tid a now u' → NoLeak cfg.alpha now (a.toNat / hugePageSize) u u' := by
  constructor
  · intro isolated pre qre a s s' hpre hqre e hs hs'
    have q := quiet.shorter hpre
    have q' := quiet'.shorter hqre
    obtain ⟨t, ht, _⟩ := id q
    obtain ⟨t', ht', _⟩ := id q'
    have before := isolated pre qre s s' ((List.prefix_append _ _).trans hpre)
      ((List.prefix_append _ _).trans hqre) e hs hs'
    apply (q.own_iff q' hs hs' before ht ht').mp
    apply isolated _ _ t t' hpre hqre _ ht ht'
    rw [own_snoc_own, own_snoc_own, e]
  · intro clear pre
    -- by induction on both runs; the accesses of other threads are skipped
    induction pre using List.reverseRecOn with
    | nil =>
      intro qre
      induction qre using List.reverseRecOn with
      | nil =>
        intro s s' _ _ _ hs hs'
        rw [starts_fresh lt hs, starts_fresh lt' hs']
      | append_singleton qre y ih =>
        intro s s' hpre hqre e hs hs'
        have other : y.2 ≠ tid := by
          rintro rfl
          rw [show y = (y.1, y.2) from rfl, own_snoc_own] at e
          simp [own] at e
        obtain ⟨v, hv, frame⟩ := (quiet'.shorter hqre).other other hs'
        rw [frame]
        rw [own_snoc_other other] at e
        exact ih s v hpre ((List.prefix_append _ _).trans hqre) e hs hv
    | append_singleton pre x ih =>
      intro qre s s' hpre
      by_cases mine : x.2 = tid
      · obtain ⟨a, i⟩ := x
        obtain rfl : tid = i := mine.symm
        induction qre using List.reverseRecOn generalizing s' with
        | nil =>
          intro _ e
          rw [own_snoc_own] at e
          simp [own] at e
        | append_singleton qre y ihq =>
          intro hqre e hs hs'
          by_cases yours : y.2 = tid
          · obtain ⟨b, i⟩ := y
            obtain rfl : tid = i := yours.symm
            rw [own_snoc_own, own_snoc_own] at e
            obtain ⟨earlier, last⟩ := List.append_inj' e rfl
            obtain rfl := List.singleton_inj.mp last
            obtain ⟨u, hu, _⟩ := simulate_snoc.mp hs
            obtain ⟨u', hu', _⟩ := simulate_snoc.mp hs'
            have before := ih qre u u' ((List.prefix_append _ _).trans hpre)
              ((List.prefix_append _ _).trans hqre) earlier hu hu'
            apply ((quiet.shorter hpre).own_iff (quiet'.shorter hqre) hu hu' before hs hs').mpr
            exact clear pre qre a u u' hpre hqre earlier hu hu'
          · obtain ⟨v, hv, frame⟩ := (quiet'.shorter hqre).other yours hs'
            rw [frame]
            rw [own_snoc_other yours] at e
            exact ihq v ((List.prefix_append _ _).trans hqre) e hs hv
      · intro hqre e hs hs'
        obtain ⟨v, hv, frame⟩ := (quiet.shorter hpre).other mine hs
        rw [frame]
        rw [own_snoc_other mine] at e
        exact ih qre v s' ((List.prefix_append _ _).trans hpre) hqre e hv hs'

/-- The line starts no pass of any thread. -/
def startsNone : Output → Bool
  | .regions _ _ => false
  | _ => true

/-- A run is quiet if nothing that it prints starts a pass. -/
lemma quiet_of_cout (h : simulate cfg n as = some s) (none : s.cout.all startsNone = true) :
    Quiet cfg n as := by
  refine ⟨s, h, fun i => ?_⟩
  apply List.countP_eq_zero.mpr
  intro line mem
  have starts := List.all_eq_true.mp none line mem
  cases line with
  | regions => cases starts
  | initializing => simp [Output.isPass]
  | candidate => simp [Output.isPass]

/-- Thread 0 uses two pages of region 2. In the second run thread 1 fills a set of its own 4KB L1 TLB
    before, and the page it evicts last, number 512, becomes a region of the reuse map of thread 0. -/
theorem eviction_leaks :
    ∃ s s', simulate shipped 2 [(4194304, 0), (4198400, 0)] = some s ∧
      simulate shipped 2 [(2097152, 1), (2162688, 1), (2228224, 1), (4194304, 0), (4198400, 0)] =
        some s' ∧
      (s.threads[0]?.map fun th => th.reuseMap.contains 512) = some false ∧
      (s'.threads[0]?.map fun th => th.reuseMap.contains 512) = some true ∧
      ¬ ∀ n n' tid as bs, tid < n → tid < n' → Quiet shipped n as → Quiet shipped n' bs →
        own tid as = own tid bs → Isolated shipped n n' tid as bs := by
  have run : ((simulate shipped 2 [(4194304, 0), (4198400, 0)]).map fun s =>
      (s.threads[0]?.map fun th => th.reuseMap.contains 512, s.cout.all startsNone)) =
        some (some false, true) := by decide +kernel
  have run' : ((simulate shipped 2
      [(2097152, 1), (2162688, 1), (2228224, 1), (4194304, 0), (4198400, 0)]).map fun s =>
      (s.threads[0]?.map fun th => th.reuseMap.contains 512, s.cout.all startsNone)) =
        some (some true, true) := by decide +kernel
  obtain ⟨s, h, e⟩ := Option.map_eq_some_iff.mp run
  obtain ⟨s', h', e'⟩ := Option.map_eq_some_iff.mp run'
  obtain ⟨clean, calm⟩ := Prod.mk.inj e
  obtain ⟨tainted, calm'⟩ := Prod.mk.inj e'
  refine ⟨s, s', h, h', clean, tainted, ?_⟩
  intro isolated
  have same := isolated 2 2 0 _ _ (by decide) (by decide) (quiet_of_cout h calm)
    (quiet_of_cout h' calm') (by decide) _ _ s s' (List.prefix_refl _) (List.prefix_refl _)
    (by decide) h h'
  rw [same, clean] at tainted
  cases tainted

/-- Where the promotion cache logic starts in an access of a thread that triggers no pass. -/
def reached (s : Mt) (tid : Nat) (a : UInt64) : Option (Bool × Sim) :=
  (counted s tid).threads[tid]?.bind fun th => (th.view (counted s tid)).tlbHierarchy a.toNat

/-- The check that the witness evaluates says what is reached. -/
lemma Reaches.reached {now : Nat} {u : Sim} (h : Reaches s tid a now u) : reached s tid a = some (true, u) := by
  obtain ⟨th, hth, _, hu⟩ := h
  rw [Multi.reached, hth]
  exact hu

/-- The globals do not differ, or the promotion cache has no free line for the region. -/
def tight (base : Nat) (u u' : Sim) : Bool := named u.l1_4k = named u'.l1_4k || (u.pccVictim base).isSome

/-- Thread 0 uses two pages of region 1 and two pages of region 2. -/
def lonely : List (UInt64 × Nat) := [(2097152, 0), (2101248, 0), (4194304, 0), (4198400, 0)]

/-- The same, but before region 2 thread 1 fills a set of its own 4KB L1 TLB. -/
def shared : List (UInt64 × Nat) :=
  [(2097152, 0), (2101248, 0), (6291456, 1), (6356992, 1), (6422528, 1), (4194304, 0), (4198400, 0)]

/-- With one line in the promotion cache: thread 1 evicts page 1536 from its 4KB L1 TLB. When thread 0 inserts region 2
    after that, its promotion cache evicts region 1 and does not look at what thread 1 has left. -/
theorem isolated_iff_full :
    (∃ s, simulate ⟨1, 30, 100, 0.9⟩ 2 (shared.take 5) = some s ∧ s.l1_4k.evictedTag = 1536) ∧
      (∃ s th, simulate ⟨1, 30, 100, 0.9⟩ 2 shared = some s ∧ s.threads[0]? = some th ∧
        th.promotionCache.history.head? = some (.inserted 8192 false (some 1))) ∧
      Quiet ⟨1, 30, 100, 0.9⟩ 2 lonely ∧ Quiet ⟨1, 30, 100, 0.9⟩ 2 shared ∧
      Isolated ⟨1, 30, 100, 0.9⟩ 2 2 0 lonely shared := by
  have left : (simulate ⟨1, 30, 100, 0.9⟩ 2 (shared.take 5)).map (fun s => s.l1_4k.evictedTag) = some 1536 := by
    decide +kernel
  have run : ((simulate ⟨1, 30, 100, 0.9⟩ 2 lonely).map fun s => s.cout.all startsNone) = some true := by
    decide +kernel
  have run' : ((simulate ⟨1, 30, 100, 0.9⟩ 2 shared).bind fun s => s.threads[0]?.map fun th =>
      (s.cout.all startsNone, th.promotionCache.history.head?)) =
      some (true, some (.inserted 8192 false (some 1))) := by decide +kernel
  obtain ⟨s₀, h₀, tag⟩ := Option.map_eq_some_iff.mp left
  obtain ⟨s₁, h₁, calm⟩ := Option.map_eq_some_iff.mp run
  obtain ⟨s₂, h₂, hs₂⟩ := Option.bind_eq_some_iff.mp run'
  obtain ⟨th, hth, e⟩ := Option.map_eq_some_iff.mp hs₂
  obtain ⟨calm', inserted⟩ := Prod.mk.inj e
  have quiet := quiet_of_cout h₁ calm
  have quiet' := quiet_of_cout h₂ calm'
  refine ⟨⟨s₀, h₀, tag⟩, ⟨s₂, th, h₂, hth, inserted⟩, quiet, quiet',
    (isolated_iff (by decide) (by decide) quiet quiet').mpr ?_⟩
  -- the accesses of the two runs that correspond
  have checked : ∀ i < 4, ∀ j < 7, own 0 (lonely.take i) = own 0 (shared.take j) → lonely[i]? = shared[j]? →
      (simulate ⟨1, 30, 100, 0.9⟩ 2 (lonely.take i)).all (fun s =>
        (simulate ⟨1, 30, 100, 0.9⟩ 2 (shared.take j)).all fun s' => lonely[i]?.all fun x =>
          (reached s 0 x.1).all fun h => (reached s' 0 x.1).all fun h' =>
            tight (x.1.toNat / hugePageSize) h.2 h'.2) = true := by decide +kernel
  intro pre qre a s s' hpre hqre same hs hs' now u u' reaches reaches' _ _ free
  obtain ⟨lt, take, last⟩ := snoc_prefix hpre
  obtain ⟨lt', take', last'⟩ := snoc_prefix hqre
  have found := checked _ lt _ lt' (by rw [take, take']; exact same) (last.trans last'.symm)
  rw [take, take', hs, hs', last] at found
  simp only [Option.all_some, reaches.reached, reaches'.reached, tight, free, Option.isSome_none, Bool.or_false,
    decide_eq_true_eq] at found
  exact .inl found

end
end PromotionCache.Pcc.Multi
