import PromotionCache.Pcc.MultiPasses

/-!
# The TLBs after a pass of the multithread simulator

The promotions are shared, the TLBs are not: a pass of thread `tid` removes the pages of a region
from the TLBs of `tid` and of no other thread, and it does so only in the branch that promotes the
region, not in the one that counts it as promoted. What a pass decides is known before it starts
(`Promotes`), since its candidates differ from each other.
-/

namespace PromotionCache.Pcc.Multi
open Lib Tlb Sim

section
variable {cfg : Config} {g : Geometry}

/-- One iteration of a pass: the pages of the candidate are removed if it is promoted, and nothing
    is decided for the other regions. -/
lemma summarizeEntry_answers {s t : Sim} {base : Nat} (val : s.toCore.Valid g)
    (hbase : base < 2 ^ 43) (h : summarizeEntry s base = some t) :
    (∀ n, n < 2 ^ 52 → (t.Answers4k n ↔ s.Answers4k n ∧ ¬ (n / 512 = base ∧ Promotes s base))) ∧
      ∀ b, b < 2 ^ 43 → b ≠ base → (Promotes t b ↔ Promotes s b) := by
  obtain ⟨_, _, prom⟩ := summarizeEntry_spec val h
  -- the other regions, given that their frequencies stay
  have others : (∀ b, b < 2 ^ 43 → b ≠ base → t.freq b = s.freq b) →
      ∀ b, b < 2 ^ 43 → b ≠ base → (Promotes t b ↔ Promotes s b) := by
    intro freqs b hb ne
    have same : t.promoted b = s.promoted b := by
      rw [Bool.eq_iff_iff, prom b, List.mem_singleton]
      exact or_iff_left ne
    unfold Promotes
    rw [same, freqs b hb ne]
  obtain ⟨freq, hfreq, h⟩ := summarizeEntry_eq_some.mp h
  have val₁ := valid_afterListing base freq false val
  rcases branch_eq_some h with ⟨unpromoted, pos, u, hprom, hev⟩ | ⟨branch, rfl⟩
  · have promotes : Promotes s base := ⟨unpromoted, freq, hfreq, pos⟩
    obtain ⟨val₂, _, pcc, _⟩ := promote_spec val₁ hprom
    refine ⟨?_, others ?_⟩
    · intro n hn
      rw [evictCandidate_answers hev, promote_answers val₁ hbase hn hprom]
      simp only [promotes, and_true]
      exact and_comm
    · intro b hb ne
      rw [evictCandidate_freq val₂ hbase hb ne hev, Sim.freq, pcc]
      rfl
  · have no : ¬ Promotes s base := by
      rintro ⟨unpromoted, f, hf, pos⟩
      obtain rfl := Option.some.inj (hf.symm.trans hfreq)
      exact branch ⟨unpromoted, pos⟩
    refine ⟨?_, others fun _ _ _ => rfl⟩
    intro n _
    simp only [no, and_false, not_false_eq_true, and_true]
    rfl

/-- The loop of a pass, by induction on the candidates; what it decides is read off its start. -/
lemma summarizeEntries_answers {s t : Sim} {bases : List Nat} (val : s.toCore.Valid g)
    (nodup : bases.Nodup) (small : ∀ b ∈ bases, b < 2 ^ 43)
    (h : bases.foldlM summarizeEntry s = some t) {n : Nat} (hn : n < 2 ^ 52) :
    t.Answers4k n ↔ s.Answers4k n ∧ ¬ (n / 512 ∈ bases ∧ Promotes s (n / 512)) := by
  induction bases generalizing s with
  | nil =>
    obtain rfl := Option.some.inj h
    simp
  | cons base bases ih =>
    simp only [List.foldlM_cons, Option.bind_eq_bind, Option.bind_eq_some_iff] at h
    obtain ⟨u, hentry, h⟩ := h
    obtain ⟨fresh, nodup⟩ := List.nodup_cons.mp nodup
    obtain ⟨hbase, small⟩ := List.forall_mem_cons.mp small
    obtain ⟨val₁, _⟩ := summarizeEntry_spec val hentry
    obtain ⟨answers, others⟩ := summarizeEntry_answers val hbase hentry
    rw [ih val₁ nodup small h, answers n hn, List.mem_cons]
    by_cases here : n / 512 = base
    · rw [here]
      simp [fresh]
    · have region : n / 512 < 2 ^ 43 := by omega
      rw [others _ region here]
      simp [here]

variable {s t : Mt} {n tid : Nat}

/-- A 4KB lookup of page number `n` hits in a TLB of the thread. -/
def Thread.Answers4k (th : Thread) (n : Nat) : Prop :=
  th.l1Tlb4k.Resident n ∨ th.l2Tlb.Resident n

instance (th : Thread) (n : Nat) : Decidable (th.Answers4k n) := inferInstanceAs (Decidable (_ ∨ _))

/-- A pass from `s` to `t` performs the TLB shootdown on every thread: no thread answers a 4KB
    lookup for a page of a region that the pass newly promotes. -/
def ShootsDown (s t : Mt) : Prop :=
  ∀ b, s.promoted b = false → t.promoted b = true →
    ∀ (i : Nat) (th : Thread), t.threads[i]? = some th →
      ∀ n, n < 2 ^ 52 → n / 512 = b → ¬ th.Answers4k n

/-- What a pass does to the TLBs of its own thread and to those of the others. -/
lemma summarizePromotions_answers {th : Thread} (val : s.Valid) (hth : s.threads[tid]? = some th)
    (h : summarizePromotions s tid = some t) :
    (∀ b, t.promoted b = true ↔ s.promoted b = true ∨ th.promotionCache.Resident b) ∧
      (∀ i, i ≠ tid → t.threads[i]? = s.threads[i]?) ∧
      ∃ th', t.threads[tid]? = some th' ∧ ∀ n, n < 2 ^ 52 →
        (th'.Answers4k n ↔ th.Answers4k n ∧
          ¬ (th.promotionCache.Resident (n / 512) ∧ Promotes (th.view s) (n / 512))) := by
  obtain ⟨_, th₀, bases₀, _, hth₀, mem₀, _, _, _, prom⟩ := summarizePromotions_spec val h
  obtain rfl := Option.some.inj (hth.symm.trans hth₀)
  obtain ⟨_, u, hth', hu, _, threads⟩ := onThread_inv h
  obtain rfl := Option.some.inj (hth.symm.trans hth')
  simp only [Option.bind_eq_bind, Option.bind_eq_some_iff] at hu
  obtain ⟨bases, hget, hu⟩ := hu
  obtain ⟨g, vth⟩ := val th (List.mem_of_getElem? hth)
  obtain ⟨nodup, mem⟩ := vth.entries hget
  set s₁ : Sim := { th.view s with cout := s.cout ++ [.regions th.numAccesses (some tid)] }
  have val₁ : s₁.toCore.Valid g := vth
  refine ⟨?_, ?_, { th with toCore := u.toCore }, ?_, ?_⟩
  · intro b
    rw [prom, mem₀]
  · intro i ne
    rw [threads, List.getElem?_set_ne (Ne.symm ne)]
  · have lt := (List.getElem?_eq_some_iff.mp hth).1
    rw [threads, List.getElem?_set_self lt]
  · intro n hn
    have small : ∀ b ∈ bases, b < 2 ^ 43 := fun b hb => vth.small b ((mem b).mp hb)
    have answers := summarizeEntries_answers val₁ nodup small hu hn
    rw [mem] at answers
    exact answers

/-- A pass performs the TLB shootdown if and only if there is nothing to do for the other threads,
    and nothing for its own where the region has frequency zero. -/
theorem shootsDown_iff {m : Nat} {th : Thread} (call : CallsPass cfg m tid s)
    (hth : s.threads[tid]? = some th) (h : summarizePromotions s tid = some t) :
    ShootsDown s t ↔ ∀ b, th.promotionCache.Resident b → s.promoted b = false →
      ∀ (i : Nat) (th' : Thread), s.threads[i]? = some th' → i ≠ tid ∨ th.freq b = some 0 →
        ∀ n, n < 2 ^ 52 → n / 512 = b → ¬ th'.Answers4k n := by
  obtain ⟨prom, frame, own, hown, answers⟩ := summarizePromotions_answers call.valid hth h
  obtain ⟨g, val⟩ := call.valid th (List.mem_of_getElem? hth)
  constructor
  · intro shoots b held unpromoted i th' hth' missed n hn hb found
    have promoted : t.promoted b = true := (prom b).mpr (.inr held)
    rcases eq_or_ne i tid with rfl | other
    · -- its own TLBs keep the pages of a region with frequency zero
      obtain rfl := Option.some.inj (hth.symm.trans hth')
      have zero := missed.resolve_left fun ne => ne rfl
      apply shoots b unpromoted promoted i own hown n hn hb
      apply (answers n hn).mpr
      refine ⟨found, ?_⟩
      rintro ⟨_, _, f, hf, pos⟩
      rw [hb] at hf
      obtain rfl := Option.some.inj (zero.symm.trans hf)
      exact Nat.lt_irrefl 0 pos
    · rw [← frame i other] at hth'
      exact shoots b unpromoted promoted i th' hth' n hn hb found
  · intro clear b unpromoted promoted i th' hth' n hn hb found
    have held : th.promotionCache.Resident b := by
      rcases (prom b).mp promoted with old | held
      · rw [unpromoted] at old
        cases old
      · exact held
    rcases eq_or_ne i tid with rfl | other
    · obtain rfl := Option.some.inj (hown.symm.trans hth')
      obtain ⟨found, branch⟩ := (answers n hn).mp found
      obtain ⟨f, hf⟩ := freq_resident val held
      rcases Nat.eq_zero_or_pos f with rfl | pos
      · exact clear b held unpromoted i th hth (.inr hf) n hn hb found
      · apply branch
        rw [hb]
        exact ⟨held, unpromoted, f, hf, pos⟩
    · rw [frame i other] at hth'
      exact clear b held unpromoted i th' hth' (.inl other) n hn hb found

/-- Both threads use region 1; thread 0 promotes it and thread 1 keeps translating its page 515. -/
theorem shootdown_missing :
    ∃ s t th, simulate ⟨1, 2, 4, 0.9⟩ 2
        [(2109440, 1), (2097152, 0), (2101248, 0), (2105344, 0)] = some s ∧
      countAccess ⟨1, 2, 4, 0.9⟩ s 0 = some t ∧ summarizePromotions (counted s 0) 0 = some t ∧
      (counted s 0).promoted 1 = false ∧ t.promoted 1 = true ∧ t.threads[1]? = some th ∧
      th.l1Tlb4k.Resident 515 ∧ ¬ ShootsDown (counted s 0) t := by
  have run : ((simulate ⟨1, 2, 4, 0.9⟩ 2
        [(2109440, 1), (2097152, 0), (2101248, 0), (2105344, 0)]).bind fun s =>
      (counted s 0).threads[0]?.bind fun own => (counted s 0).threads[1]?.map fun th =>
        (own.numAccesses, decide (own.promotionCache.Resident 1), (counted s 0).promoted 1,
          decide (th.l1Tlb4k.Resident 515))) = some (4, true, false, true) := by
    decide +kernel
  obtain ⟨s, h, hs⟩ := Option.bind_eq_some_iff.mp run
  obtain ⟨own, hown, hs⟩ := Option.bind_eq_some_iff.mp hs
  obtain ⟨th, hth, e⟩ := Option.map_eq_some_iff.mp hs
  simp only [Prod.mk.injEq, decide_eq_true_eq] at e
  obtain ⟨four, held, before, found⟩ := e
  have val := counted_valid (simulate_valid h) 0
  obtain ⟨t, ht⟩ := summarizePromotions_some val hown
  obtain ⟨promoted, frame, _⟩ := summarizePromotions_answers val hown ht
  have after : t.promoted 1 = true := (promoted 1).mpr (.inr held)
  rw [← frame 1 (by decide)] at hth
  have pass : countAccess ⟨1, 2, 4, 0.9⟩ s 0 = some t := by
    rw [countAccess_due hown (by decide) (by rw [four]; decide)]
    exact ht
  refine ⟨s, t, th, h, pass, ht, before, after, hth, found, ?_⟩
  intro shoots
  exact shoots 1 before after 1 th hth 515 (by decide) (by decide) (.inl found)

/-- Thread 1 uses region 2, and thread 0 region 1, which the pass of its fourth access promotes. -/
theorem shootsDown_iff_apart :
    ∃ s th t, simulate ⟨1, 2, 4, 0.9⟩ 2
        [(4206592, 1), (2097152, 0), (2101248, 0), (2105344, 0)] = some s ∧
      countAccess ⟨1, 2, 4, 0.9⟩ s 0 = some t ∧ (counted s 0).threads[0]? = some th ∧
      th.l1Tlb4k.Resident 514 ∧ s.promoted 1 = false ∧ t.promoted 1 = true ∧ ShootsDown (counted s 0) t := by
  have run : ((simulate ⟨1, 2, 4, 0.9⟩ 2
        [(4206592, 1), (2097152, 0), (2101248, 0), (2105344, 0)]).bind fun s =>
      (counted s 0).threads[0]?.bind fun th => (counted s 0).threads[1]?.map fun other =>
        (th.promotionCache.getEntries, th.freq 1, th.numAccesses, s.promoted 1,
          decide ((counted s 0).threads.length = 2 ∧ th.l1Tlb4k.Resident 514 ∧
            ∀ o < 512, ¬ other.Answers4k (512 + o)))) =
      some (some [1], some 1, 4, false, true) := by decide +kernel
  obtain ⟨s, h, hs⟩ := Option.bind_eq_some_iff.mp run
  obtain ⟨th, hth, hs⟩ := Option.bind_eq_some_iff.mp hs
  obtain ⟨other, hother, e⟩ := Option.map_eq_some_iff.mp hs
  simp only [Prod.mk.injEq, decide_eq_true_eq] at e
  obtain ⟨entries, one, four, before, two, cached, none⟩ := e
  have val := counted_valid (simulate_valid h) 0
  obtain ⟨g, valTh⟩ := val th (List.mem_of_getElem? hth)
  have held : ∀ b, b ∈ [1] ↔ th.promotionCache.Resident b := (valTh.entries entries).2
  obtain ⟨t, ht⟩ := summarizePromotions_some val hth
  obtain ⟨promoted, _⟩ := summarizePromotions_answers val hth ht
  have after : t.promoted 1 = true := (promoted 1).mpr (.inr ((held 1).mp List.mem_cons_self))
  have pass : countAccess ⟨1, 2, 4, 0.9⟩ s 0 = some t := by
    rw [countAccess_due hth (by decide) (by rw [four]; decide)]
    exact ht
  refine ⟨s, th, t, h, pass, hth, cached, before, after, (shootsDown_iff (.access h) hth ht).mpr ?_⟩
  intro b resident _ i th' hth' missed n _ region
  obtain rfl := List.mem_singleton.mp ((held b).mpr resident)
  have lt : i < (counted s 0).threads.length := (List.getElem?_eq_some_iff.mp hth').1
  rcases missed with ne | zero
  · -- the other thread answers for no page of region 1
    obtain rfl : i = 1 := by omega
    obtain rfl := Option.some.inj (hother.symm.trans hth')
    obtain ⟨o, rfl⟩ := Nat.exists_eq_add_of_le (show 512 ≤ n by omega)
    exact none o (by omega)
  · rw [one] at zero
    cases zero

end
end PromotionCache.Pcc.Multi
