import PromotionCache.Pcc.Schedule

/-!
# What a pass of the single-thread simulator decides

The candidates of a pass differ from each other, and what it does with one leaves promotion and
frequency of the others alone. So everything a pass prints and decides is read off the state in which
it starts: `summarizePromotions_exact`.
-/

namespace PromotionCache.Pcc.Single
open Lib Tlb Sim

/-- The region that a line lists, with its frequency and whether it is demoted. -/
def entry : Output → Option (Nat × Nat × Bool)
  | .candidate base _ _ cacheFreq demotion => some (base, cacheFreq, demotion)
  | _ => none

/-- What a pass from this state lists for a candidate. -/
def listing (s : Sim) (base : Nat) : Nat × Nat × Bool :=
  (base, (s.freq base).getD 0, s.promoted base)

section
variable {cfg : Config} {g : Geometry} {s t : Sim}

/-- The promotions after the promotion or demotion of a candidate, or neither of them. -/
lemma branch_promoted {i base f : Nat} (val : s.toCore.Valid g)
    (h : branch s i base f = some t) (b : Nat) :
    t.promoted b = if b = base then !s.promoted base && decide (0 < f) else s.promoted b := by
  unfold branch at h
  split at h
  case isTrue prom =>
    have set : t.pccPromotions = s.pccPromotions.erase base := (demote_spec val h).2.1
    rw [Sim.promoted, set, UnorderedMap.contains_erase, prom]
    by_cases e : b = base
    · simp [e]
    · simp [e, Sim.promoted]
  case isFalse unprom =>
    have unprom : s.promoted base = false := Bool.eq_false_of_not_eq_true unprom
    split at h
    case isTrue pos =>
      have set : t.pccPromotions = s.pccPromotions.set base 0 := (promote_spec val h).2.1
      rw [Sim.promoted, set, UnorderedMap.contains_set, unprom]
      by_cases e : b = base
      · simp [e, pos]
      · simp [e, Sim.promoted]
    case isFalse zero =>
      obtain rfl := Option.some.inj h
      by_cases e : b = base
      · simp [e, zero, unprom]
      · simp [e]

/-- One iteration of a pass. -/
lemma summarizeEntry_exact {i base : Nat} (val : s.toCore.Valid g) (hbase : base < 2 ^ 43)
    (h : summarizeEntry s i base = some t) :
    (∃ line, entry line = some (listing s base) ∧ t.cout = s.cout ++ [line]) ∧
      (t.promoted base = true ↔ s.Promotes base) ∧
      (∀ b, b ≠ base → t.promoted b = s.promoted b) ∧
      ∀ b, b < 2 ^ 43 → b ≠ base → t.freq b = s.freq b := by
  obtain ⟨f, u, hf, hstep, hev⟩ := summarizeEntry_eq_some.mp h
  have val₁ := valid_afterListing base f (s.promoted base) val
  obtain ⟨val₂, pcc, _, cout, _, _⟩ := branch_spec val₁ hstep
  obtain ⟨_, _, prom', _, cout', _⟩ := evictCandidate_spec val₂ hev
  have prom : ∀ b, t.promoted b =
      if b = base then !s.promoted base && decide (0 < f) else s.promoted b := by
    intro b
    rw [Sim.promoted, prom']
    exact branch_promoted val₁ hstep b
  refine ⟨⟨_, ?_, cout'.trans cout⟩, ?_, ?_, ?_⟩
  · rw [listing, hf]
    rfl
  · rw [prom, if_pos rfl]
    simp [Promotes, hf]
  · intro b ne
    rw [prom, if_neg ne]
  · intro b hb ne
    rw [evictCandidate_freq val₂ hbase hb ne hev, Sim.freq, pcc]
    rfl

/-- What is listed and decided for a candidate depends on its promotion and its frequency. -/
lemma listing_congr {b : Nat} (prom : t.promoted b = s.promoted b) (freq : t.freq b = s.freq b) :
    listing t b = listing s b := by
  unfold listing
  rw [prom, freq]

/-- Whether a region is promoted depends on the promotions and its frequency. -/
lemma promotes_congr {b : Nat} (prom : t.promoted b = s.promoted b) (freq : t.freq b = s.freq b) :
    t.Promotes b ↔ s.Promotes b := by
  unfold Promotes
  rw [prom, freq]

/-- The loop of a pass, by induction on the candidates. -/
lemma summarizeFrom_exact {i : Nat} {bases : List Nat} (val : s.toCore.Valid g)
    (nodup : bases.Nodup) (small : ∀ b ∈ bases, b < 2 ^ 43)
    (h : summarizeFrom s i bases = some t) :
    (∃ lines, lines.map entry = bases.map (fun b => some (listing s b)) ∧
        t.cout = s.cout ++ lines) ∧
      (∀ b ∈ bases, t.promoted b = true ↔ s.Promotes b) ∧
      ∀ b, b ∉ bases → t.promoted b = s.promoted b := by
  induction bases generalizing s i with
  | nil =>
    obtain rfl := Option.some.inj h
    exact ⟨⟨[], rfl, by simp⟩, by simp, fun _ _ => rfl⟩
  | cons base bases ih =>
    simp only [summarizeFrom, Option.bind_eq_bind, Option.bind_eq_some_iff] at h
    obtain ⟨u, hentry, h⟩ := h
    obtain ⟨fresh, nodup⟩ := List.nodup_cons.mp nodup
    obtain ⟨hbase, small⟩ := List.forall_mem_cons.mp small
    obtain ⟨val₁, _⟩ := summarizeEntry_spec val hentry
    obtain ⟨⟨line, listed, cout⟩, own, others, freqs⟩ := summarizeEntry_exact val hbase hentry
    obtain ⟨⟨lines, listed', cout'⟩, mem, rest⟩ := ih val₁ nodup small h
    have ne : ∀ b ∈ bases, b ≠ base := by
      rintro b hb rfl
      exact fresh hb
    refine ⟨⟨line :: lines, ?_, ?_⟩, ?_, ?_⟩
    · have same : bases.map (fun b => some (listing u b)) =
          bases.map fun b => some (listing s b) := by
        apply List.map_congr_left
        intro b hb
        rw [listing_congr (others b (ne b hb)) (freqs b (small b hb) (ne b hb))]
      rw [List.map_cons, List.map_cons, listed, listed', same]
    · rw [cout', cout, List.append_assoc]
      rfl
    · intro b hb
      rcases List.mem_cons.mp hb with rfl | hb
      · rw [rest b fresh, own]
      · rw [mem b hb]
        exact promotes_congr (others b (ne b hb)) (freqs b (small b hb) (ne b hb))
    · intro b hb
      obtain ⟨neb, nb⟩ := not_or.mp (List.mem_cons.not.mp hb)
      rw [rest b nb, others b neb]

/-- A pass lists what the promotion cache holds, promotes those candidates that `Promotes` says and
    no other, and demotes the candidates that are promoted. -/
lemma summarizePromotions_exact (val : s.toCore.Valid g) (h : summarizePromotions s = some t) :
    ∃ (bases : List Nat) (lines : List Output), bases.Nodup ∧ (∀ n, n ∈ bases ↔ s.promotionCache.Resident n) ∧
      lines.map entry = bases.map (fun b => some (listing s b)) ∧
      t.cout = s.cout ++ .regions s.totalNumAccesses none :: lines ∧
      (∀ b ∈ bases, t.promoted b = true ↔ s.Promotes b) ∧
      ∀ b, b ∉ bases → t.promoted b = s.promoted b := by
  simp only [summarizePromotions, Option.bind_eq_bind, Option.bind_eq_some_iff] at h
  obtain ⟨bases, hget, h⟩ := h
  obtain ⟨nodup, mem⟩ := val.entries hget
  set s₁ : Sim := { s with cout := s.cout ++ [.regions s.totalNumAccesses none] }
  have val₁ : s₁.toCore.Valid g := val
  have small : ∀ b ∈ bases, b < 2 ^ 43 := fun b hb => val.small b ((mem b).mp hb)
  obtain ⟨⟨lines, listed, cout⟩, own, others⟩ := summarizeFrom_exact val₁ nodup small h
  refine ⟨bases, lines, nodup, mem, listed, ?_, own, others⟩
  rw [cout, List.append_assoc]
  rfl

end
end PromotionCache.Pcc.Single
