import PromotionCache.Pcc.Lockstep
import PromotionCache.Pcc.SinglePasses
import PromotionCache.Pcc.MultiSpec

/-!
# One thread under both simulators

The multithread simulator was copied from the single-thread one. With one thread the two run in
lockstep (`Locked`) as long as their tests for a pass agree and no pass finds a candidate with
frequency zero: the one drops it, the other counts it as promoted. Only the access counts drift apart,
since the copy has 32 bits; they end up in the reuse distances.
-/

namespace PromotionCache.Pcc
open Lib Tlb Sim

/-- What a line of the output reports: the start of a pass, or a candidate with its frequency. -/
def Output.report : Output → Option (Option (Nat × Nat))
  | .initializing _ => none
  | .regions _ _ => some none
  | .candidate base _ _ cacheFreq _ => some (some (base, cacheFreq))

/-- The line reports a demotion. -/
def Output.isDemotion : Output → Bool
  | .candidate _ _ _ _ demotion => demotion
  | _ => false

/-- No region was demoted so far. -/
def Shared.Undemoted (s : Shared) : Prop := ∀ line ∈ s.cout, line.isDemotion = false

/-- Passes and their candidates, the promotions and the promotion cache are the same. -/
structure SameResults (s : Sim) (t : Multi.Mt) : Prop where
  reports : t.cout.filterMap Output.report = s.cout.filterMap Output.report
  promoted : ∀ b, t.promoted b = s.promoted b
  contents : ∃ th, t.threads = [th] ∧ th.promotionCache.sets = s.promotionCache.sets

/-- The simulators agree on a trace up to the first demotion. -/
def Equivalent (cfg : Config) (as : List UInt64) : Prop :=
  ∀ pre s, pre <+: as → Single.simulate cfg pre = some s → s.Undemoted →
    ∃ t, Multi.simulate cfg 1 (pre.map (·, 0)) = some t ∧ SameResults s t

/-- The state of both simulators in lockstep. -/
structure Together (s v : Sim) : Prop where
  alike : Alike True s v
  keys : ∀ b, v.reuseMap.contains b = s.reuseMap.contains b
  reports : v.cout.filterMap Output.report = s.cout.filterMap Output.report

/-- The simulators are in lockstep. -/
def Locked (s : Sim) (t : Multi.Mt) : Prop := ∃ th, t.threads = [th] ∧ Together s (th.view t)

section
variable {cfg : Config} {g : Geometry} {s t v w : Sim}

/-- Two states together promote the same regions. -/
lemma Together.promotes (both : Together s v) (b : Nat) : v.Promotes b ↔ s.Promotes b := by
  unfold Promotes Sim.freq
  rw [both.alike.promoted, both.alike.promotionCache]

/-- One iteration of a pass over a region that it promotes. -/
lemma Together.summarizeEntry {i base : Nat} (both : Together s v) (val : s.toCore.Valid g)
    (prom : s.Promotes base) (h : Single.summarizeEntry s i base = some t) :
    ∃ w, Multi.summarizeEntry v base = some w ∧ Together t w := by
  obtain ⟨unprom, f, hf, pos⟩ := prom
  have hf' : v.promotionCache.getFreq (word (base * pageSize)) false = some f := by
    rw [both.alike.promotionCache]
    exact hf
  obtain ⟨f', u, hf₁, hstep, hev⟩ := Single.summarizeEntry_eq_some.mp h
  obtain rfl := Option.some.inj (hf.symm.trans hf₁)
  set s₁ := s.afterListing base f (s.promoted base) with hs₁
  set v₁ := v.afterListing base f false with hv₁
  have unprom₁ : s₁.promoted base = false := unprom
  rw [Single.branch, unprom₁, if_neg Bool.false_ne_true, if_pos pos] at hstep
  have val₁ : s₁.toCore.Valid g := valid_afterListing base f _ val
  have alike₁ : Alike True s₁ v₁ := { both.alike with }
  obtain ⟨x, hprom, alike₂⟩ := promote_alike alike₁ hstep
  obtain ⟨w, hev', alike₃⟩ := evictCandidate_alike alike₂ hev
  obtain ⟨val₂, _, _, _, cout, _⟩ := promote_spec val₁ hstep
  obtain ⟨val₂', _, _, _, cout', _⟩ := promote_spec (alike₁.valid val₁) hprom
  obtain ⟨_, _, _, _, coutE, _⟩ := evictCandidate_spec val₂ hev
  obtain ⟨_, _, _, _, coutE', _⟩ := evictCandidate_spec val₂' hev'
  refine ⟨w, ?_, alike₃, ?_, ?_⟩
  · have unprom' : v₁.promoted base = false := (alike₁.promoted base).trans unprom₁
    have branch : (!v₁.promoted base && decide (0 < f)) = true := by
      rw [unprom']
      simpa using pos
    refine Multi.summarizeEntry_eq_some.mpr ⟨f, hf', ?_⟩
    rw [Multi.branch, if_pos branch, hprom]
    exact hev'
  · intro b
    rw [evictCandidate_reuse hev, evictCandidate_reuse hev', promote_reuse val₁ hstep,
      promote_reuse (alike₁.valid val₁) hprom]
    simp only [hs₁, hv₁, Sim.afterListing, UnorderedMap.contains_erase, UnorderedMap.contains_subscript,
      both.keys]
  · rw [coutE, coutE', cout, cout']
    simp only [hs₁, hv₁, Sim.afterListing, List.filterMap_append, both.reports]
    rfl

/-- The loop of a pass that promotes all its candidates, by induction on them. -/
lemma Together.summarizeFrom {i : Nat} {bases : List Nat} (both : Together s v)
    (val : s.toCore.Valid g) (nodup : bases.Nodup) (small : ∀ b ∈ bases, b < 2 ^ 43)
    (prom : ∀ b ∈ bases, s.Promotes b) (h : Single.summarizeFrom s i bases = some t) :
    ∃ w, bases.foldlM Multi.summarizeEntry v = some w ∧ Together t w := by
  induction bases generalizing s v i with
  | nil =>
    obtain rfl := Option.some.inj h
    exact ⟨v, rfl, both⟩
  | cons base bases ih =>
    simp only [Single.summarizeFrom, Option.bind_eq_bind, Option.bind_eq_some_iff] at h
    obtain ⟨u, hentry, h⟩ := h
    obtain ⟨fresh, nodup⟩ := List.nodup_cons.mp nodup
    obtain ⟨hbase, small⟩ := List.forall_mem_cons.mp small
    obtain ⟨here, prom⟩ := List.forall_mem_cons.mp prom
    obtain ⟨x, hx, both₁⟩ := both.summarizeEntry val here hentry
    obtain ⟨val₁, _⟩ := Single.summarizeEntry_spec val hentry
    obtain ⟨_, _, others, freqs⟩ := Single.summarizeEntry_exact val hbase hentry
    have prom₁ : ∀ b ∈ bases, u.Promotes b := by
      intro b hb
      have ne : b ≠ base := by
        rintro rfl
        exact fresh hb
      exact (Single.promotes_congr (others b ne) (freqs b (small b hb) ne)).mpr (prom b hb)
    obtain ⟨w, hw, both₂⟩ := ih both₁ val₁ nodup small prom₁ h
    refine ⟨w, ?_, both₂⟩
    simp only [List.foldlM_cons, hx, hw, Option.bind_eq_bind, Option.bind_some]

/-- Code of the only thread. -/
lemma onThread_only {tm : Multi.Mt} {th : Multi.Thread} {f : Nat → Sim → Option Sim} {u : Sim}
    (ht : tm.threads = [th]) (hf : f th.numAccesses (th.view tm) = some u) :
    Multi.onThread tm 0 f =
      some { toShared := u.toShared, threads := [{ th with toCore := u.toCore }] } := by
  have hf' : f th.numAccesses { toCore := th.toCore, toShared := tm.toShared } = some u := hf
  simp [Multi.onThread, ht, hf']

/-- A pass keeps the two versions in lockstep. -/
lemma Locked.summarizePromotions {tm : Multi.Mt} (locked : Locked s tm) (val : s.toCore.Valid g)
    (prom : ∀ b, s.promotionCache.Resident b → s.Promotes b)
    (h : Single.summarizePromotions s = some t) :
    ∃ tm', Multi.summarizePromotions tm 0 = some tm' ∧ Locked t tm' := by
  obtain ⟨th, ht, both⟩ := locked
  simp only [Single.summarizePromotions, Option.bind_eq_bind, Option.bind_eq_some_iff] at h
  obtain ⟨bases, hget, h⟩ := h
  obtain ⟨nodup, mem⟩ := val.entries hget
  set s₁ : Sim := { s with cout := s.cout ++ [.regions s.totalNumAccesses none] }
  set v₁ : Sim := { th.view tm with cout := tm.cout ++ [.regions th.numAccesses (some 0)] }
  have both₁ : Together s₁ v₁ := by
    refine ⟨{ both.alike with }, both.keys, ?_⟩
    have reports : tm.cout.filterMap Output.report = s.cout.filterMap Output.report := both.reports
    simp only [s₁, v₁, List.filterMap_append, reports]
    rfl
  have val₁ : s₁.toCore.Valid g := val
  obtain ⟨w, hw, both₂⟩ := both₁.summarizeFrom val₁ nodup
    (fun b hb => val.small b ((mem b).mp hb)) (fun b hb => prom b ((mem b).mp hb)) h
  have hget' : th.promotionCache.getEntries = some bases := by
    rw [show th.promotionCache = s.promotionCache from both.alike.promotionCache]
    exact hget
  refine ⟨_, onThread_only (u := w) ht ?_, { th with toCore := w.toCore }, rfl, both₂⟩
  show (th.promotionCache.getEntries.bind fun bases => bases.foldlM Multi.summarizeEntry v₁) =
    some w
  rw [hget', Option.bind_some, hw]

/-- A pass that demotes nothing finds no candidate promoted. -/
lemma unpromoted_of_pass (val : s.toCore.Valid g) (h : Single.summarizePromotions s = some t)
    (calm : t.Undemoted) {b : Nat} (held : s.promotionCache.Resident b) :
    s.promoted b = false := by
  obtain ⟨bases, lines, _, mem, listed, cout, _⟩ := Single.summarizePromotions_exact val h
  have found : some (Single.listing s b) ∈ lines.map Single.entry :=
    listed ▸ List.mem_map.mpr ⟨b, (mem b).mpr held, rfl⟩
  obtain ⟨line, hline, e⟩ := List.mem_map.mp found
  have demotion : line.isDemotion = s.promoted b := by
    cases line with
    | candidate => exact congrArg (·.2.2) (Option.some.inj e)
    | initializing => cases e
    | regions => cases e
  rw [← demotion]
  apply calm
  rw [cout]
  exact List.mem_append_right _ (List.mem_cons_of_mem _ hline)

/-- The tests for a pass agree at the `k`-th access, and if it runs one, from the promotion cache of
    `s`, no candidate has frequency zero. -/
structure PassesAlike (cfg : Config) (k : Nat) (s : Sim) : Prop where
  due : Multi.passDue cfg (k % 2 ^ 32) = Single.passDue cfg (word k)
  used : Single.passDue cfg (word k) = true →
    ∀ b, s.promotionCache.Resident b → s.freq b ≠ some 0

/-- The counts of the access number `k`. -/
structure Counts (k : Nat) (s : Sim) (tm : Multi.Mt) : Prop where
  single : (Single.counted s).totalNumAccesses = word k
  multi : (Multi.counted tm 0).numAccesses 0 = some (k % 2 ^ 32)

/-- So does counting an access. -/
lemma Locked.counted {tm : Multi.Mt} (locked : Locked s tm) :
    Locked (Single.counted s) (Multi.counted tm 0) := by
  obtain ⟨th, ht, both⟩ := locked
  refine ⟨{ th with numAccesses := (th.numAccesses + 1) % 2 ^ 32 }, ?_, ?_⟩
  · simp [Multi.counted, ht]
  · exact ⟨{ both.alike with }, both.keys, both.reports⟩

/-- The path through the caches, at any two access counts. -/
lemma Locked.trackAccess {tm : Multi.Mt} {alpha : Float} {now : Nat} {a : UInt64}
    (locked : Locked s tm) (val : s.toCore.Valid g)
    (h : s.trackAccess alpha now a.toNat = some t) :
    ∃ tm', Multi.onThread tm 0 (fun now' u => u.trackAccess alpha now' a.toNat) = some tm' ∧
      Locked t tm' := by
  obtain ⟨th, ht, both⟩ := locked
  obtain ⟨w, hw, alike⟩ := trackAccess_alike th.numAccesses both.alike val
    (both.keys _) h
  refine ⟨_, onThread_only ht hw, { th with toCore := w.toCore }, rfl, alike, ?_, ?_⟩
  · exact trackAccess_keys both.alike val both.keys h hw
  · obtain ⟨_, _, _, cout, _⟩ := trackAccess_spec val h
    obtain ⟨_, _, _, cout', _⟩ := trackAccess_spec (both.alike.valid val) hw
    show w.cout.filterMap _ = _
    rw [cout, cout']
    exact both.reports

/-- An access keeps the simulators in lockstep if it treats passes alike. -/
lemma Locked.step {k : Nat} {tm : Multi.Mt} {a : UInt64} (locked : Locked s tm)
    (val : s.toCore.Valid g) (counts : Counts k s tm) (same : PassesAlike cfg k s)
    (h : Single.pccTrackAccess cfg s a = some t) (calm : t.Undemoted) :
    ∃ tm', Multi.pccTrackAccess cfg tm (a, 0) = some tm' ∧ Locked t tm' := by
  obtain ⟨m, hm, htrack⟩ := Single.pccTrackAccess_inv h
  obtain ⟨ne, pass⟩ := Single.countAccess_inv hm
  obtain ⟨val₁, _⟩ := Single.countAccess_spec val hm
  have calm₁ : m.Undemoted := by
    unfold Shared.Undemoted
    rw [← (trackAccess_spec val₁ htrack).2.2.2.1]
    exact calm
  rw [counts.single] at pass
  -- counting, with the pass
  have counted : ∃ tm', Multi.countAccess cfg tm 0 = some tm' ∧ Locked m tm' := by
    obtain ⟨th, hth, hnum⟩ := Option.map_eq_some_iff.mp counts.multi
    simp only [Multi.countAccess, hth, Option.bind_eq_bind, Option.bind_some, if_neg ne, hnum,
      same.due]
    cases due : Single.passDue cfg (word k) with
    | true =>
      rw [due, if_pos rfl] at pass
      have val' : (Single.counted s).toCore.Valid g := val
      refine locked.counted.summarizePromotions val' ?_ pass
      intro b held
      have unprom := unpromoted_of_pass val' pass calm₁ held
      obtain ⟨f, hf⟩ := freq_resident val' held
      refine ⟨unprom, f, hf, Nat.pos_of_ne_zero ?_⟩
      rintro rfl
      exact same.used due b held hf
    | false =>
      rw [due, if_neg Bool.false_ne_true] at pass
      obtain rfl := Option.some.inj pass
      exact ⟨_, rfl, locked.counted⟩
  obtain ⟨tm₁, htm₁, locked₁⟩ := counted
  obtain ⟨tm', htm', locked'⟩ := locked₁.trackAccess val₁ htrack
  refine ⟨tm', ?_, locked'⟩
  simp only [Multi.pccTrackAccess, htm₁, Option.bind_eq_bind, Option.bind_some]
  exact htm'

/-- In lockstep, the two versions have the same results. -/
lemma Locked.results {tm : Multi.Mt} (locked : Locked s tm) : SameResults s tm := by
  obtain ⟨th, ht, both⟩ := locked
  refine ⟨both.reports, both.alike.promoted, th, ht, ?_⟩
  rw [show th.promotionCache = s.promotionCache from both.alike.promotionCache]

/-- If the results are the same after an access, it treated passes alike. -/
lemma Locked.passesAlike {k : Nat} {tm tm' : Multi.Mt} {a : UInt64} (locked : Locked s tm)
    (val : s.toCore.Valid g) (valM : tm.Valid) (counts : Counts k s tm)
    (h : Single.pccTrackAccess cfg s a = some t)
    (h' : Multi.pccTrackAccess cfg tm (a, 0) = some tm') (same : SameResults t tm') :
    PassesAlike cfg k s := by
  obtain ⟨m, hm, htrack⟩ := Single.pccTrackAccess_inv h
  obtain ⟨_, pass⟩ := Single.countAccess_inv hm
  obtain ⟨val₁, _⟩ := Single.countAccess_spec val hm
  obtain ⟨_, prom, _, cout, _⟩ := trackAccess_spec val₁ htrack
  simp only [Multi.pccTrackAccess, Option.bind_eq_bind, Option.bind_eq_some_iff] at h'
  obtain ⟨mm, hmm, htrack'⟩ := h'
  obtain ⟨_, count, hcount, pass'⟩ := Multi.countAccess_inv hmm
  obtain rfl := Option.some.inj (hcount.symm.trans counts.multi)
  obtain ⟨valM₁, _⟩ := Multi.countAccess_spec valM hmm
  obtain ⟨th, w, hth, hw, shared, _⟩ := Multi.onThread_inv htrack'
  obtain ⟨g', vth⟩ := valM₁ th (List.mem_of_getElem? hth)
  have vview : (th.view mm).toCore.Valid g' := vth
  obtain ⟨_, prom', _, cout', _⟩ := trackAccess_spec vview hw
  rw [counts.single] at pass
  have before := locked.counted.results
  -- the results right after the passes
  have reports : mm.cout.filterMap Output.report = m.cout.filterMap Output.report := by
    have e := same.reports
    rw [shared, cout', cout] at e
    exact e
  have promoted : ∀ b, mm.promoted b = m.promoted b := by
    intro b
    have e := same.promoted b
    rw [Multi.Mt.promoted, shared, prom', Sim.promoted, prom] at e
    exact e
  have val' : (Single.counted s).toCore.Valid g := val
  have valM' := Multi.counted_valid valM 0
  cases due : Single.passDue cfg (word k) with
  | true =>
    rw [due, if_pos rfl] at pass
    obtain ⟨bases, lines, _, mem, listed, coutP, own, _⟩ :=
      Single.summarizePromotions_exact val' pass
    cases due' : Multi.passDue cfg (k % 2 ^ 32) with
    | false =>
      -- only the single-thread simulator starts a pass
      rw [due', if_neg Bool.false_ne_true] at pass'
      obtain rfl := Option.some.inj pass'
      rw [before.reports, coutP, List.filterMap_append] at reports
      have len := congrArg List.length reports
      simp [Output.report] at len
    | true =>
      rw [due', if_pos rfl] at pass'
      refine ⟨due'.trans due.symm, fun _ b held zero => ?_⟩
      -- a candidate with frequency zero is promoted by the multithread simulator only
      obtain ⟨_, th', bases', _, hth', mem', _, _, _, promM⟩ :=
        Multi.summarizePromotions_spec valM' pass'
      have unprom : m.promoted b ≠ true := by
        rw [ne_eq, own b ((mem b).mpr held)]
        rintro ⟨_, f, hf, pos⟩
        obtain rfl := Option.some.inj (zero.symm.trans hf)
        exact Nat.lt_irrefl 0 pos
      obtain ⟨th₀, ht₀, both⟩ := locked.counted
      rw [ht₀] at hth'
      obtain rfl := Option.some.inj hth'
      apply unprom
      rw [← promoted, promM]
      refine .inr ((mem' b).mpr ?_)
      rw [show th₀.promotionCache = s.promotionCache from both.alike.promotionCache]
      exact held
  | false =>
    rw [due, if_neg Bool.false_ne_true] at pass
    obtain rfl := Option.some.inj pass
    refine ⟨?_, fun e => by rw [due] at e; cases e⟩
    rw [due]
    cases due' : Multi.passDue cfg (k % 2 ^ 32) with
    | false => rfl
    | true =>
      -- only the multithread simulator starts a pass
      rw [due', if_pos rfl] at pass'
      obtain ⟨_, _, _, _, _, _, _, coutM, _⟩ := Multi.summarizePromotions_spec valM' pass'
      rw [← before.reports, coutM, List.filterMap_append] at reports
      have len := congrArg List.length reports
      simp [Output.report] at len

/-- They start in lockstep. -/
lemma locked_start (h : Single.simulate cfg [] = some s) :
    ∃ tm, Multi.simulate cfg 1 [] = some tm ∧ Locked s tm := by
  have hinit := Single.simulate_nil.mp h
  simp only [Single.promotionCacheInit, Option.bind_eq_bind, Option.bind_eq_some_iff] at hinit
  obtain ⟨core, hcore, hinit⟩ := hinit
  obtain rfl := Option.some.inj hinit
  have init : Multi.promotionCacheInit cfg 1 = some
      { toShared := { initShared with cout := [.initializing 0] }
        threads := [{ toCore := core, numAccesses := 0 }] } := by
    simp only [Multi.promotionCacheInit, List.range_one, List.foldlM_cons, List.foldlM_nil,
      Multi.initThread, hcore, Option.bind_eq_bind, Option.bind_some]
    rfl
  refine ⟨_, Multi.simulate_nil.mpr init, _, rfl, ⟨rfl, rfl, rfl, rfl, rfl, ?_⟩, ?_, rfl⟩
  · exact fun _ => ⟨rfl, rfl⟩
  · exact fun _ => rfl

/-- Their counts are those of the trace. -/
lemma counts_of_traces {pre : List UInt64} {tm : Multi.Mt}
    (h : Single.simulate cfg pre = some s) (h' : Multi.simulate cfg 1 (pre.map (·, 0)) = some tm)
    (locked : Locked s tm) : Counts (pre.length + 1) s tm := by
  obtain ⟨th, ht, _⟩ := locked
  have num : tm.numAccesses 0 = some th.numAccesses := by
    rw [Multi.Mt.numAccesses, ht]
    rfl
  have count := Multi.simulate_counts h' _ num
  have all : Multi.accessesOf 0 (pre.map (·, 0)) = pre.length := by
    simp [Multi.accessesOf, List.countP_map, Function.comp_def]
  constructor
  case single =>
    show word (s.totalNumAccesses + 1) = _
    rw [Single.simulate_count h, word_succ]
  case multi =>
    rw [Multi.numAccesses_counted, num, Option.map_some, if_pos rfl, count, all, Nat.mod_add_mod]

/-- If nothing has been demoted after an access, nothing was before it. -/
lemma undemoted_before {a : UInt64} (val : s.toCore.Valid g)
    (h : Single.pccTrackAccess cfg s a = some t) (calm : t.Undemoted) : s.Undemoted := by
  obtain ⟨m, hm, htrack⟩ := Single.pccTrackAccess_inv h
  obtain ⟨val₁, head, _, _, _, passed⟩ := Single.countAccess_spec val hm
  obtain ⟨lines, cout, _⟩ := passed.cout
  intro line mem
  apply calm
  rw [(trackAccess_spec val₁ htrack).2.2.2.1, cout]
  exact List.mem_append_left _ (List.mem_append_left _ mem)

/-- Every pass of the trace up to the first demotion is treated alike. -/
def AllAlike (cfg : Config) (as : List UInt64) : Prop :=
  ∀ pre a s t, pre ++ [a] <+: as → Single.simulate cfg pre = some s →
    Single.pccTrackAccess cfg s a = some t → t.Undemoted → PassesAlike cfg (pre.length + 1) s

/-- Where all passes are treated alike the simulators stay in lockstep. -/
lemma locked_run {as : List UInt64} (all : AllAlike cfg as) (h : Single.simulate cfg as = some s)
    (calm : s.Undemoted) :
    ∃ tm, Multi.simulate cfg 1 (as.map (·, 0)) = some tm ∧ Locked s tm := by
  induction as using List.reverseRecOn generalizing s with
  | nil => exact locked_start h
  | append_singleton as a ih =>
    obtain ⟨u, hu, st⟩ := Single.simulate_snoc.mp h
    obtain ⟨g, val⟩ := Single.simulate_valid (Single.simulate_pos h) hu
    have all' : AllAlike cfg as := fun pre b s t hpre =>
      all pre b s t (hpre.trans (List.prefix_append _ _))
    obtain ⟨tm, htm, locked⟩ := ih all' hu (undemoted_before val st calm)
    have alike := all as a u s (List.prefix_refl _) hu st calm
    obtain ⟨tm', htm', locked'⟩ :=
      locked.step val (counts_of_traces hu htm locked) alike st calm
    refine ⟨tm', ?_, locked'⟩
    rw [List.map_append]
    exact Multi.simulate_snoc.mpr ⟨tm, htm, htm'⟩

/-- With one thread the multithread simulator is equivalent to the single-thread one up to the first
    demotion if and only if until then their tests for a pass agree at every access and no pass finds
    a candidate with frequency zero. -/
theorem equivalent_iff {as : List UInt64} : Equivalent cfg as ↔ AllAlike cfg as := by
  constructor
  · intro equiv
    -- by induction on the trace, which is in lockstep as far as its passes were treated alike
    induction as using List.reverseRecOn with
    | nil =>
      intro pre a _ _ hpre
      have len := hpre.length_le
      simp at len
    | append_singleton as b ih =>
      have all : AllAlike cfg as := ih fun pre s hpre =>
        equiv pre s (hpre.trans (List.prefix_append _ _))
      intro pre a s t hpre hs st calm
      rcases List.prefix_concat_iff.mp hpre with e | hpre
      · obtain ⟨rfl, last⟩ := List.append_inj' e rfl
        obtain rfl := List.singleton_inj.mp last
        obtain ⟨g, val⟩ := Single.simulate_valid (Single.simulate_pos hs) hs
        obtain ⟨tm, htm, locked⟩ := locked_run all hs (undemoted_before val st calm)
        obtain ⟨tm', htm', same⟩ :=
          equiv _ t (List.prefix_refl _) (Single.simulate_snoc.mpr ⟨s, hs, st⟩) calm
        rw [List.map_append] at htm'
        obtain ⟨tm₀, htm₀, st'⟩ := Multi.simulate_snoc.mp htm'
        obtain rfl := Option.some.inj (htm.symm.trans htm₀)
        exact locked.passesAlike val (Multi.simulate_valid htm) (counts_of_traces hs htm locked)
          st st' same
      · exact all pre a s t hpre hs st calm
  · intro all pre s hpre hs calm
    have all' : AllAlike cfg pre := fun pre' a s t hpre' => all pre' a s t (hpre'.trans hpre)
    obtain ⟨tm, htm, locked⟩ := locked_run all' hs calm
    exact ⟨tm, htm, locked.results⟩

/-- With a period of two accesses the single-thread simulator runs a pass at both, the other one only
    at the first. -/
theorem extra_pass :
    ∃ s t, Single.simulate ⟨1, 2, 1, 0.9⟩ [0, 0] = some s ∧ s.Undemoted ∧
      Multi.simulate ⟨1, 2, 1, 0.9⟩ 1 [(0, 0), (0, 0)] = some t ∧
      s.cout.filterMap Output.report = [none, none] ∧ t.cout.filterMap Output.report = [none] ∧
      ¬ Equivalent ⟨1, 2, 1, 0.9⟩ [0, 0] := by
  have run : ((Single.simulate ⟨1, 2, 1, 0.9⟩ [0, 0]).map fun s =>
      (s.cout.all fun line => !line.isDemotion, s.cout.filterMap Output.report)) =
        some (true, [none, none]) := by decide +kernel
  have run' : ((Multi.simulate ⟨1, 2, 1, 0.9⟩ 1 [(0, 0), (0, 0)]).map fun t =>
      t.cout.filterMap Output.report) = some [none] := by decide +kernel
  obtain ⟨s, h, e⟩ := Option.map_eq_some_iff.mp run
  obtain ⟨t, h', one⟩ := Option.map_eq_some_iff.mp run'
  obtain ⟨calm, two⟩ := Prod.mk.inj e
  have calm : s.Undemoted := by
    intro line mem
    simpa using List.all_eq_true.mp calm line mem
  refine ⟨s, t, h, calm, h', two, one, ?_⟩
  intro equiv
  obtain ⟨t', ht', same⟩ := equiv [0, 0] s (List.prefix_refl _) h calm
  obtain rfl := Option.some.inj (h'.symm.trans ht')
  have reports := same.reports
  rw [one, two] at reports
  cases reports

end
end PromotionCache.Pcc
