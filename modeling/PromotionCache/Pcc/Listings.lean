import PromotionCache.Pcc.SinglePasses

/-!
# What the passes of a run list, promote and demote

A candidate is listed with its frequency at the start of the pass. It is promoted if that is not zero and
it is not promoted, and demoted if it is promoted. So what happens to a region in a run is told by the
passes that list it.
-/

namespace PromotionCache.Pcc.Single
open Lib Tlb Sim

/-- The `k`-th access of a trace runs a pass, from state `m`. -/
def PassFrom (cfg : Config) (as : List UInt64) (k : Nat) (m : Sim) : Prop :=
  ∃ pre a s, pre ++ [a] <+: as ∧ k = pre.length + 1 ∧ simulate cfg pre = some s ∧ m = counted s ∧
    passDue cfg m.totalNumAccesses = true

/-- The pass at the `k`-th access starts in state `m` and lists a region. -/
def Lists (cfg : Config) (as : List UInt64) (k : Nat) (m : Sim) (base : Nat) : Prop :=
  PassFrom cfg as k m ∧ m.promotionCache.Resident base

/-- `summarize_promotions` inserts a region into `pcc_promotions` at the `k`-th access. -/
def Inserts (cfg : Config) (as : List UInt64) (k base : Nat) : Prop :=
  ∃ pre a s t, pre ++ [a] <+: as ∧ k = pre.length + 1 ∧ simulate cfg pre = some s ∧
    countAccess cfg s = some t ∧ s.promoted base = false ∧ t.promoted base = true

/-- `summarize_promotions` erases a region from `pcc_promotions` at the `k`-th access. -/
def Erases (cfg : Config) (as : List UInt64) (k base : Nat) : Prop :=
  ∃ pre a s t, pre ++ [a] <+: as ∧ k = pre.length + 1 ∧ simulate cfg pre = some s ∧
    countAccess cfg s = some t ∧ s.promoted base = true ∧ t.promoted base = false

section
variable {cfg : Config} {g : Geometry} {s t m m' : Sim} {as bs : List UInt64} {k k' base : Nat}

/-- Of each length there is one beginning of a trace. -/
lemma prefix_unique {pre pre' : List UInt64} {a a' : UInt64} (h : pre ++ [a] <+: as)
    (h' : pre' ++ [a'] <+: as) (len : pre.length = pre'.length) : pre = pre' := by
  have e := List.prefix_of_prefix_length_le ((List.prefix_append pre [a]).trans h)
    ((List.prefix_append pre' [a']).trans h') len.le
  exact e.eq_of_length len

/-- The state from which a pass starts is determined by its access. -/
lemma PassFrom.unique (h : PassFrom cfg as k m) (h' : PassFrom cfg as k m') : m = m' := by
  obtain ⟨pre, a, s, hpre, hk, hs, hm, _⟩ := h
  obtain ⟨pre', a', s', hpre', hk', hs', hm', _⟩ := h'
  obtain rfl := prefix_unique hpre hpre' (by omega)
  obtain rfl := Option.some.inj (hs.symm.trans hs')
  exact hm.trans hm'.symm

/-- A pass stays one when the trace goes on. -/
lemma PassFrom.mono (pre : as <+: bs) (h : PassFrom cfg as k m) : PassFrom cfg bs k m := by
  obtain ⟨p, a, s, hp, rest⟩ := h
  exact ⟨p, a, s, hp.trans pre, rest⟩

/-- A listing stays one when the trace goes on. -/
lemma Lists.mono (pre : as <+: bs) (h : Lists cfg as k m base) : Lists cfg bs k m base :=
  ⟨h.1.mono pre, h.2⟩

/-- The passes of a trace and the one that its last access may run. -/
lemma passFrom_snoc {a : UInt64} (hs : simulate cfg as = some s) : PassFrom cfg (as ++ [a]) k m ↔
    PassFrom cfg as k m ∨
      (k = as.length + 1 ∧ m = counted s ∧ passDue cfg m.totalNumAccesses = true) := by
  constructor
  · rintro ⟨pre, b, u, hpre, hk, hu, hm, due⟩
    rcases List.prefix_concat_iff.mp hpre with e | hpre
    · obtain ⟨rfl, _⟩ := List.append_inj' e rfl
      obtain rfl := Option.some.inj (hs.symm.trans hu)
      exact .inr ⟨hk, hm, due⟩
    · exact .inl ⟨pre, b, u, hpre, hk, hu, hm, due⟩
  · rintro (pass | ⟨hk, hm, due⟩)
    · exact pass.mono (List.prefix_append as [a])
    · exact ⟨as, a, s, List.prefix_refl _, hk, hs, hm, due⟩

/-- With one more access, the new listings are those of the pass that is due then. -/
lemma lists_snoc {a : UInt64} (hs : simulate cfg as = some s) :
    Lists cfg (as ++ [a]) k m base ↔ Lists cfg as k m base ∨ (k = as.length + 1 ∧ m = counted s ∧
      passDue cfg m.totalNumAccesses = true ∧ m.promotionCache.Resident base) := by
  unfold Lists
  rw [passFrom_snoc hs, or_and_right, and_assoc, and_assoc]

/-- A pass has the number of an access. -/
lemma PassFrom.le (h : PassFrom cfg as k m) : 1 ≤ k ∧ k ≤ as.length := by
  obtain ⟨pre, a, s, hpre, rfl, _⟩ := h
  have len := hpre.length_le
  rw [List.length_append, List.length_singleton] at len
  exact ⟨by omega, len⟩

/-- The count at a pass is the number of its access. -/
lemma PassFrom.total (h : PassFrom cfg as k m) : m.totalNumAccesses = word k := by
  obtain ⟨pre, a, s, _, rfl, hs, rfl, _⟩ := h
  show word (s.totalNumAccesses + 1) = _
  rw [simulate_count hs, word_succ]

/-- A pass runs where one is due. -/
lemma PassFrom.due (h : PassFrom cfg as k m) : passDue cfg (word k) = true := by
  have total := h.total
  obtain ⟨_, _, _, _, _, _, _, due⟩ := h
  rwa [total] at due

/-- The pass of the access after the first `k` of a trace. -/
lemma passFrom_take (lt : k < as.length) (h : simulate cfg (as.take k) = some s)
    (due : passDue cfg (word (k + 1)) = true) : PassFrom cfg as (k + 1) (counted s) := by
  have len : (as.take k).length = k := List.length_take_of_le (Nat.le_of_lt lt)
  refine ⟨as.take k, as[k], s, ?_, by rw [len], h, rfl, ?_⟩
  · rw [List.take_append_getElem lt]
    exact List.take_prefix (k + 1) as
  · show passDue cfg (word (s.totalNumAccesses + 1)) = true
    rw [simulate_count h, len, word_succ]
    exact due

/-- A pass with what it prints. -/
structure Pass where
  access : Nat
  state : Sim
  bases : List Nat
  lines : List Output

/-- It is a pass of the trace, and it prints a line for every region that it lists. -/
structure Pass.Of (cfg : Config) (as : List UInt64) (p : Pass) : Prop where
  passFrom : PassFrom cfg as p.access p.state
  nodup : p.bases.Nodup
  mem : ∀ base, base ∈ p.bases ↔ p.state.promotionCache.Resident base
  lines : p.lines.map entry = p.bases.map fun base => some (listing p.state base)

/-- All that a pass prints. -/
def Pass.output (p : Pass) : List Output := .regions (word p.access) none :: p.lines

/-- The regions of a pass are those that are listed in it. -/
lemma Pass.Of.lists {p : Pass} (h : p.Of cfg as) :
    base ∈ p.bases ↔ Lists cfg as p.access p.state base := by
  rw [h.mem]
  exact (and_iff_right h.passFrom).symm

/-- A pass of a trace is one of every longer trace. -/
lemma Pass.Of.mono {p : Pass} (pre : as <+: bs) (h : p.Of cfg as) : p.Of cfg bs :=
  { h with passFrom := h.passFrom.mono pre }

/-- A run prints its passes, in their order. -/
theorem exists_passes (h : simulate cfg as = some s) : ∃ passes : List Pass,
    (∀ p ∈ passes, p.Of cfg as) ∧ (∀ k m, PassFrom cfg as k m → ∃ p ∈ passes, p.access = k) ∧
      passes.Pairwise (fun p q => p.access < q.access) ∧ s.cout = passes.flatMap Pass.output := by
  have pos := simulate_pos h
  refine simulate_inv (fun as s => ∃ passes : List Pass, (∀ p ∈ passes, p.Of cfg as) ∧
    (∀ k m, PassFrom cfg as k m → ∃ p ∈ passes, p.access = k) ∧
      passes.Pairwise (fun p q => p.access < q.access) ∧ s.cout = passes.flatMap Pass.output) ?_ ?_ h
  · intro s hinit
    obtain ⟨_, _, _, shared⟩ := promotionCacheInit_spec pos hinit
    refine ⟨[], fun p mem => absurd mem List.not_mem_nil, ?_, List.Pairwise.nil, ?_⟩
    · intro k m pass
      obtain ⟨one, le⟩ := pass.le
      exact absurd (Nat.le_trans one le) (Nat.not_succ_le_zero 0)
    · rw [shared]
      rfl
  · intro as a _ s t hs before st
    obtain ⟨passes, valid, all, sorted, cout⟩ := before
    obtain ⟨u, hu, htrack⟩ := pccTrackAccess_inv st
    obtain ⟨g, val⟩ := simulate_valid pos hs
    obtain ⟨val', _⟩ := countAccess_spec val hu
    obtain ⟨_, _, _, cout', _⟩ := trackAccess_spec val' htrack
    have valid' : ∀ p ∈ passes, p.Of cfg (as ++ [a]) := fun p mem =>
      (valid p mem).mono (List.prefix_append as [a])
    obtain ⟨_, hpass⟩ := countAccess_inv hu
    split at hpass
    case isTrue due =>
      have val₁ : (counted s).toCore.Valid g := val
      obtain ⟨bases, lines, nodup, mem, listed, cout'', _⟩ := summarizePromotions_exact val₁ hpass
      have total : (counted s).totalNumAccesses = word (as.length + 1) := by
        show word (s.totalNumAccesses + 1) = _
        rw [simulate_count hs, word_succ]
      refine ⟨passes ++ [⟨as.length + 1, counted s, bases, lines⟩], ?_, ?_, ?_, ?_⟩
      · intro p mem'
        cases List.mem_append.mp mem' with
        | inl earlier => exact valid' p earlier
        | inr last =>
          obtain rfl := List.mem_singleton.mp last
          exact ⟨(passFrom_snoc hs).mpr (.inr ⟨rfl, rfl, due⟩), nodup, mem, listed⟩
      · intro k m pass
        rcases (passFrom_snoc hs).mp pass with earlier | ⟨hk, _⟩
        · obtain ⟨p, mem', e⟩ := all k m earlier
          exact ⟨p, List.mem_append_left _ mem', e⟩
        · exact ⟨_, List.mem_append_right _ (List.mem_singleton.mpr rfl), hk.symm⟩
      · rw [List.pairwise_append]
        refine ⟨sorted, List.pairwise_singleton _ _, ?_⟩
        intro p mem' q last
        obtain rfl := List.mem_singleton.mp last
        exact Nat.lt_succ_of_le (valid p mem').passFrom.le.2
      · have before : (counted s).cout = s.cout := rfl
        rw [cout', cout'', total, before, cout, List.flatMap_append, List.flatMap_singleton]
        rfl
    case isFalse no =>
      obtain rfl := Option.some.inj hpass
      refine ⟨passes, valid', ?_, sorted, cout'.trans cout⟩
      intro k m pass
      rcases (passFrom_snoc hs).mp pass with earlier | ⟨_, rfl, due⟩
      · exact all k m earlier
      · exact absurd due no

/-- What the pass of an access does to the promotion of a region that it lists. -/
lemma promoted_listed (val : s.toCore.Valid g) (due : passDue cfg (counted s).totalNumAccesses = true)
    (held : s.promotionCache.Resident base) (h : countAccess cfg s = some t) :
    t.promoted base = true ↔ (counted s).Promotes base := by
  obtain ⟨_, h⟩ := countAccess_inv h
  rw [if_pos due] at h
  have val' : (counted s).toCore.Valid g := val
  obtain ⟨bases, _, _, mem, _, _, own, _⟩ := summarizePromotions_exact val' h
  exact own base ((mem base).mpr held)

/-- An access leaves the promotion of a region alone that no pass of it lists. -/
lemma promoted_unlisted (val : s.toCore.Valid g)
    (not : ¬ (passDue cfg (counted s).totalNumAccesses = true ∧ s.promotionCache.Resident base))
    (h : countAccess cfg s = some t) : t.promoted base = s.promoted base := by
  obtain ⟨_, h⟩ := countAccess_inv h
  split at h
  case isTrue due =>
    have val' : (counted s).toCore.Valid g := val
    obtain ⟨bases, _, _, mem, _, _, _, others⟩ := summarizePromotions_exact val' h
    exact others base fun hb => not ⟨due, (mem base).mp hb⟩
  case isFalse =>
    obtain rfl := Option.some.inj h
    rfl

/-- The accesses of a trace that survives end in a state. -/
lemma exists_counted {a : UInt64} {pre : List UInt64} (h : simulate cfg as = some s)
    (hpre : pre ++ [a] <+: as) (hm : simulate cfg pre = some m) : ∃ t, countAccess cfg m = some t := by
  obtain ⟨u, hu⟩ := simulate_prefix hpre h
  obtain ⟨m', hm', st⟩ := simulate_snoc.mp hu
  obtain rfl := Option.some.inj (hm.symm.trans hm')
  obtain ⟨t, ht, _⟩ := pccTrackAccess_inv st
  exact ⟨t, ht⟩

/-- A region is inserted where it is listed, not promoted, and has a frequency above zero. -/
theorem inserts_iff (h : simulate cfg as = some s) :
    Inserts cfg as k base ↔ ∃ m, Lists cfg as k m base ∧ m.Promotes base := by
  have pos := simulate_pos h
  constructor
  · rintro ⟨pre, a, u, t, hpre, hk, hu, ht, before, after⟩
    obtain ⟨g, val⟩ := simulate_valid pos hu
    by_cases listed : passDue cfg (counted u).totalNumAccesses = true ∧ u.promotionCache.Resident base
    · exact ⟨counted u, ⟨⟨pre, a, u, hpre, hk, hu, rfl, listed.1⟩, listed.2⟩,
        (promoted_listed val listed.1 listed.2 ht).mp after⟩
    · rw [promoted_unlisted val listed ht, before] at after
      cases after
  · rintro ⟨_, ⟨⟨pre, a, u, hpre, hk, hu, rfl, due⟩, held⟩, promotes⟩
    obtain ⟨g, val⟩ := simulate_valid pos hu
    obtain ⟨t, ht⟩ := exists_counted h hpre hu
    exact ⟨pre, a, u, t, hpre, hk, hu, ht, promotes.1, (promoted_listed val due held ht).mpr promotes⟩

/-- A region is erased where it is listed and promoted. -/
theorem erases_iff (h : simulate cfg as = some s) :
    Erases cfg as k base ↔ ∃ m, Lists cfg as k m base ∧ m.promoted base = true := by
  have pos := simulate_pos h
  constructor
  · rintro ⟨pre, a, u, t, hpre, hk, hu, ht, before, after⟩
    obtain ⟨g, val⟩ := simulate_valid pos hu
    by_cases listed : passDue cfg (counted u).totalNumAccesses = true ∧ u.promotionCache.Resident base
    · exact ⟨counted u, ⟨⟨pre, a, u, hpre, hk, hu, rfl, listed.1⟩, listed.2⟩, before⟩
    · rw [promoted_unlisted val listed ht, before] at after
      cases after
  · rintro ⟨_, ⟨⟨pre, a, u, hpre, hk, hu, rfl, due⟩, held⟩, prom⟩
    obtain ⟨g, val⟩ := simulate_valid pos hu
    obtain ⟨t, ht⟩ := exists_counted h hpre hu
    refine ⟨pre, a, u, t, hpre, hk, hu, ht, prom, ?_⟩
    cases after : t.promoted base with
    | false => rfl
    | true =>
      have promotes := (promoted_listed val due held ht).mp after
      rw [promotes.1] at prom
      cases prom

/-- A region is promoted after a trace if the last pass that listed it promoted it. -/
theorem promoted_iff (h : simulate cfg as = some s) : s.promoted base = true ↔
    ∃ k m, Lists cfg as k m base ∧ m.Promotes base ∧
      ∀ k' m', k < k' → ¬ Lists cfg as k' m' base := by
  have pos := simulate_pos h
  refine simulate_inv (fun as s => s.promoted base = true ↔ ∃ k m, Lists cfg as k m base ∧
    m.Promotes base ∧ ∀ k' m', k < k' → ¬ Lists cfg as k' m' base) ?_ ?_ h
  · intro s hinit
    obtain ⟨_, _, _, shared⟩ := promotionCacheInit_spec pos hinit
    refine iff_of_false ?_ ?_
    · rw [Sim.promoted, shared]
      exact Bool.false_ne_true
    · rintro ⟨k, m, lists, _⟩
      obtain ⟨one, le⟩ := lists.1.le
      exact absurd (Nat.le_trans one le) (Nat.not_succ_le_zero 0)
  · intro as a _ s t hs before st
    obtain ⟨u, hu, htrack⟩ := pccTrackAccess_inv st
    obtain ⟨g, val⟩ := simulate_valid pos hs
    obtain ⟨val', _⟩ := countAccess_spec val hu
    have same : t.promoted base = u.promoted base := by
      rw [Sim.promoted, Sim.promoted, (trackAccess_spec val' htrack).2.1]
    rw [same]
    by_cases listed : passDue cfg (counted s).totalNumAccesses = true ∧ s.promotionCache.Resident base
    · -- the last access lists the region
      rw [promoted_listed val listed.1 listed.2 hu]
      have last : Lists cfg (as ++ [a]) (as.length + 1) (counted s) base :=
        (lists_snoc hs).mpr (.inr ⟨rfl, rfl, listed⟩)
      constructor
      · intro promotes
        refine ⟨_, _, last, promotes, ?_⟩
        intro k' m' lt lists
        have le := lists.1.le.2
        rw [List.length_append, List.length_singleton] at le
        omega
      · rintro ⟨k, m, lists, promotes, unlisted⟩
        rcases (lists_snoc hs).mp lists with earlier | ⟨_, e, _⟩
        · have le := earlier.1.le.2
          exact absurd last (unlisted _ _ (by omega))
        · rw [← e]
          exact promotes
    · rw [promoted_unlisted val listed hu, before]
      have lists : ∀ k m, Lists cfg (as ++ [a]) k m base ↔ Lists cfg as k m base := by
        intro k m
        rw [lists_snoc hs]
        refine or_iff_left ?_
        rintro ⟨_, rfl, due, held⟩
        exact listed ⟨due, held⟩
      simp only [lists]

/-- A region is promoted when a pass lists it if the listing before promoted it. -/
theorem Lists.promoted_iff (h : Lists cfg as k m base) : m.promoted base = true ↔
    ∃ k₀ m₀, k₀ < k ∧ Lists cfg as k₀ m₀ base ∧ m₀.Promotes base ∧
      ∀ k' m', k₀ < k' → k' < k → ¬ Lists cfg as k' m' base := by
  obtain ⟨⟨pre, a, s, hpre, hk, hs, rfl, _⟩, _⟩ := h
  have sub := (List.prefix_append pre [a]).trans hpre
  -- the passes before access `k` are those of the trace before it
  have lists : ∀ k' m', k' < k → (Lists cfg as k' m' base ↔ Lists cfg pre k' m' base) := by
    intro k' m' lt
    constructor
    · rintro ⟨⟨pre', a', s', hpre', hk', rest⟩, held⟩
      have le : (pre' ++ [a']).length ≤ pre.length := by
        rw [List.length_append, List.length_singleton]
        omega
      exact ⟨⟨pre', a', s', List.prefix_of_prefix_length_le hpre' sub le, hk', rest⟩, held⟩
    · exact Lists.mono sub
  have here : (counted s).promoted base = s.promoted base := rfl
  rw [here, Single.promoted_iff hs]
  constructor
  · intro ⟨k₀, m₀, lists₀, promotes, unlisted⟩
    have le := lists₀.1.le.2
    refine ⟨k₀, m₀, by omega, (lists k₀ m₀ (by omega)).mpr lists₀, promotes, ?_⟩
    intro k' m' lt lt' listed
    exact unlisted k' m' lt ((lists k' m' lt').mp listed)
  · intro ⟨k₀, m₀, lt₀, lists₀, promotes, unlisted⟩
    refine ⟨k₀, m₀, (lists k₀ m₀ lt₀).mp lists₀, promotes, ?_⟩
    intro k' m' lt listed
    have le := listed.1.le.2
    exact unlisted k' m' lt (by omega) ((lists k' m' (by omega)).mpr listed)

/-- What is listed has a frequency. -/
lemma Lists.exists_freq (h : simulate cfg as = some s) (lists : Lists cfg as k m base) :
    ∃ f, m.freq base = some f := by
  obtain ⟨⟨pre, a, u, hpre, _, hu, rfl, _⟩, held⟩ := lists
  obtain ⟨g, val⟩ := simulate_valid (simulate_pos h) hu
  have val' : (counted u).toCore.Valid g := val
  exact freq_resident val' held

/-- A listed region is promoted if it is not yet and has a frequency. -/
lemma Lists.promotes_iff (h : simulate cfg as = some s) (lists : Lists cfg as k m base) :
    m.Promotes base ↔ m.promoted base = false ∧ m.freq base ≠ some 0 := by
  obtain ⟨f, hf⟩ := lists.exists_freq h
  unfold Promotes
  rw [hf]
  refine and_congr_right fun _ => ?_
  constructor
  · rintro ⟨f', e, pos⟩ zero
    obtain rfl := Option.some.inj e
    exact absurd (Option.some.inj zero) (Nat.ne_of_gt pos)
  · intro ne
    exact ⟨f, rfl, Nat.pos_of_ne_zero fun zero => ne (congrArg some zero)⟩

/-- A region is first inserted where it is first listed with a frequency above zero. -/
theorem firstInsert_iff (h : simulate cfg as = some s) :
    (Inserts cfg as k base ∧ ∀ k' < k, ¬ Inserts cfg as k' base) ↔
      (∃ m, Lists cfg as k m base ∧ m.freq base ≠ some 0) ∧
        ∀ k' m', k' < k → Lists cfg as k' m' base → m'.freq base = some 0 := by
  simp only [inserts_iff h]
  constructor
  · rintro ⟨⟨m, lists, promotes⟩, first⟩
    refine ⟨⟨m, lists, ((lists.promotes_iff h).mp promotes).2⟩, ?_⟩
    intro k' m' lt lists'
    by_contra ne
    cases prom : m'.promoted base with
    | false => exact first k' lt ⟨m', lists', (lists'.promotes_iff h).mpr ⟨prom, ne⟩⟩
    | true =>
      obtain ⟨k₀, m₀, lt₀, lists₀, promotes₀, _⟩ := lists'.promoted_iff.mp prom
      exact first k₀ (by omega) ⟨m₀, lists₀, promotes₀⟩
  · rintro ⟨⟨m, lists, ne⟩, zeros⟩
    have first : ∀ k' < k, ¬ ∃ m', Lists cfg as k' m' base ∧ m'.Promotes base := by
      rintro k' lt ⟨m', lists', promotes⟩
      exact ((lists'.promotes_iff h).mp promotes).2 (zeros k' m' lt lists')
    refine ⟨⟨m, lists, (lists.promotes_iff h).mpr ⟨?_, ne⟩⟩, first⟩
    cases prom : m.promoted base with
    | false => rfl
    | true =>
      obtain ⟨k₀, m₀, lt₀, lists₀, promotes₀, _⟩ := lists.promoted_iff.mp prom
      exact absurd ⟨m₀, lists₀, promotes₀⟩ (first k₀ lt₀)

end
end PromotionCache.Pcc.Single
