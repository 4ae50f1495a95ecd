import PromotionCache.Pcc.Single
import PromotionCache.Pcc.TrackSpec

/-!
# What the single-thread simulator does

`Passed s t bases` collects what a promotion pass over the candidates `bases` does to a state; it
composes, so that the pass follows from one iteration (`summarizeEntry_spec`). An access is a count,
with a pass if one is due (`countAccess_spec`), followed by the path through the caches. With it,
the invariant of the caches holds after every trace (`simulate_valid`).
-/

namespace PromotionCache.Pcc.Single
open Lib Tlb Sim

/-- What a pass over the candidates `bases` does. -/
structure Passed (s t : Sim) (bases : List Nat) : Prop where
  totalNumAccesses : t.totalNumAccesses = s.totalNumAccesses
  cout : ∃ lines, t.cout = s.cout ++ lines ∧ lines.map Output.listed = bases.map some
  promotionCache : ∀ n, t.promotionCache.Resident n → s.promotionCache.Resident n
  l1Tlb4k : ∀ n, t.l1Tlb4k.Resident n → s.l1Tlb4k.Resident n
  promoted : ∀ b, t.promoted b = true → s.promoted b = true ∨
    (b ∈ bases ∧ ∀ n, n < 2 ^ 52 → n / 512 = b → ¬ t.l1Tlb4k.Resident n)

/-- A pass over nothing. -/
lemma Passed.refl (s : Sim) : Passed s s [] where
  totalNumAccesses := rfl
  cout := ⟨[], by simp, rfl⟩
  promotionCache := fun _ h => h
  l1Tlb4k := fun _ h => h
  promoted := fun _ h => .inl h

/-- Two passes, one after the other. -/
lemma Passed.trans {s t u : Sim} {bs cs : List Nat} (h : Passed s t bs) (h' : Passed t u cs) :
    Passed s u (bs ++ cs) := by
  obtain ⟨lines, e, listed⟩ := h.cout
  obtain ⟨lines', e', listed'⟩ := h'.cout
  constructor
  case totalNumAccesses => exact h'.totalNumAccesses.trans h.totalNumAccesses
  case cout =>
    refine ⟨lines ++ lines', ?_, ?_⟩
    · rw [e', e, List.append_assoc]
    · rw [List.map_append, List.map_append, listed, listed']
  case promotionCache => exact fun n hn => h.promotionCache n (h'.promotionCache n hn)
  case l1Tlb4k => exact fun n hn => h.l1Tlb4k n (h'.l1Tlb4k n hn)
  case promoted =>
    intro b hb
    rcases h'.promoted b hb with hb | ⟨mem, none⟩
    · rcases h.promoted b hb with hb | ⟨mem, none⟩
      · exact .inl hb
      · refine .inr ⟨List.mem_append_left _ mem, ?_⟩
        exact fun n hn e r => none n hn e (h'.l1Tlb4k n r)
    · exact .inr ⟨List.mem_append_right _ mem, none⟩

section
variable {cfg : Config} {g : Geometry} {s t : Sim}

/-- A demotion takes the region out of the promotions, and leaves the promotion cache alone. -/
lemma demote_spec {base i : Nat} (val : s.toCore.Valid g) (h : demote s base i = some t) :
    t.toCore.Valid g ∧ t.pccPromotions = s.pccPromotions.erase base ∧
      t.promotionCache = s.promotionCache ∧ t.totalNumAccesses = s.totalNumAccesses ∧
      t.cout = s.cout ∧ t.l1Tlb4k = s.l1Tlb4k := by
  simp only [demote, Option.bind_eq_bind, Option.bind_eq_some_iff] at h
  obtain ⟨⟨c, d⟩, hinv, ⟨c', d'⟩, hinv', h⟩ := h
  obtain rfl := Option.some.inj h
  obtain ⟨v, _, un⟩ := val.l1Tlb2m.invalidate fits2m (word_lt _) hinv
  obtain ⟨v', _, un'⟩ := val.l2Tlb.invalidate fitsL2 (word_lt _) hinv'
  exact ⟨{ val with
    l1Tlb2m := v, l2Tlb := v', clear2m := un val.clear2m, clearL2 := un' val.clearL2 },
    rfl, rfl, rfl, rfl, rfl⟩

/-- The promotion or demotion of a candidate, or neither of them. -/
def branch (s : Sim) (i base freq : Nat) : Option Sim :=
  if s.promoted base then demote s base i
  else if 0 < freq then s.promote base
  else some s

/-- An iteration prints the candidate, decides about it, and removes it from the promotion cache. -/
lemma summarizeEntry_eq_some {i base : Nat} : summarizeEntry s i base = some t ↔
    ∃ f u, s.freq base = some f ∧
      branch (s.afterListing base f (s.promoted base)) i base f = some u ∧
      u.evictCandidate base = some t := by
  simp only [summarizeEntry, Option.bind_eq_bind, Option.bind_eq_some_iff]
  constructor
  · rintro ⟨f, hf, u, step, hev⟩
    exact ⟨f, u, hf, step, hev⟩
  · rintro ⟨f, u, hf, step, hev⟩
    exact ⟨f, hf, u, step, hev⟩

/-- What is newly promoted is the candidate itself, and its pages are gone from the 4KB L1 TLB. -/
lemma branch_spec {i base freq : Nat} (val : s.toCore.Valid g) (h : branch s i base freq = some t) :
    t.toCore.Valid g ∧ t.promotionCache = s.promotionCache ∧
      t.totalNumAccesses = s.totalNumAccesses ∧ t.cout = s.cout ∧
      (∀ n, t.l1Tlb4k.Resident n → s.l1Tlb4k.Resident n) ∧
      ∀ b, t.promoted b = true → s.promoted b = true ∨
        (b = base ∧ ∀ n, n < 2 ^ 52 → n / 512 = b → ¬ t.l1Tlb4k.Resident n) := by
  unfold branch at h
  split at h
  case isTrue =>
    obtain ⟨val', prom, pcc, total, cout, l1⟩ := demote_spec val h
    refine ⟨val', pcc, total, cout, ?_, ?_⟩
    · rw [l1]
      exact fun n hn => hn
    · intro b hb
      left
      simp only [Sim.promoted, prom, UnorderedMap.contains_erase, Bool.and_eq_true] at hb
      exact hb.2
  case isFalse =>
    split at h
    case isTrue =>
      obtain ⟨val', prom, pcc, total, cout, sub, none⟩ := promote_spec val h
      refine ⟨val', pcc, total, cout, sub, ?_⟩
      intro b hb
      simp only [Sim.promoted, prom, UnorderedMap.contains_set, Bool.or_eq_true,
        decide_eq_true_eq] at hb
      rcases hb with rfl | hb
      · exact .inr ⟨rfl, none⟩
      · exact .inl hb
    case isFalse =>
      obtain rfl := Option.some.inj h
      exact ⟨val, rfl, rfl, rfl, fun n hn => hn, fun b hb => .inl hb⟩

/-- One iteration of a pass. -/
lemma summarizeEntry_spec {i base : Nat} (val : s.toCore.Valid g)
    (h : summarizeEntry s i base = some t) : t.toCore.Valid g ∧ Passed s t [base] := by
  obtain ⟨freq, u, _, hstep, hev⟩ := summarizeEntry_eq_some.mp h
  obtain ⟨val₂, pcc, total, cout, sub, prom⟩ := branch_spec (valid_afterListing base freq _ val) hstep
  obtain ⟨val₃, l1, prom', total', cout', res⟩ := evictCandidate_spec val₂ hev
  refine ⟨val₃, ?_⟩
  constructor
  case totalNumAccesses => exact total'.trans total
  case cout => exact ⟨_, cout'.trans cout, rfl⟩
  case promotionCache =>
    intro n hn
    have hn := ((res n).mp hn).2
    rw [pcc] at hn
    exact hn
  case l1Tlb4k =>
    intro n hn
    rw [l1] at hn
    exact sub n hn
  case promoted =>
    intro b hb
    rw [l1]
    simp only [Sim.promoted, prom'] at hb
    rcases prom b hb with hb | ⟨rfl, none⟩
    · exact .inl hb
    · exact .inr ⟨List.mem_singleton_self _, none⟩

/-- The loop of a pass, by induction on the candidates. -/
lemma summarizeFrom_spec {i : Nat} {bases : List Nat} (val : s.toCore.Valid g)
    (h : summarizeFrom s i bases = some t) : t.toCore.Valid g ∧ Passed s t bases := by
  induction bases generalizing s i with
  | nil =>
    obtain rfl := Option.some.inj h
    exact ⟨val, Passed.refl s⟩
  | cons base bases ih =>
    simp only [summarizeFrom, Option.bind_eq_bind, Option.bind_eq_some_iff] at h
    obtain ⟨u, hentry, h⟩ := h
    obtain ⟨val₁, passed₁⟩ := summarizeEntry_spec val hentry
    obtain ⟨val₂, passed₂⟩ := ih val₁ h
    exact ⟨val₂, passed₁.trans passed₂⟩

/-- A pass starts a new part of the output and goes over what the promotion cache holds. -/
lemma summarizePromotions_spec (val : s.toCore.Valid g) (h : summarizePromotions s = some t) :
    t.toCore.Valid g ∧ ∃ bases, (∀ n, n ∈ bases ↔ s.promotionCache.Resident n) ∧
      Passed { s with cout := s.cout ++ [.regions s.totalNumAccesses none] } t bases := by
  simp only [summarizePromotions, Option.bind_eq_bind, Option.bind_eq_some_iff] at h
  obtain ⟨bases, hget, h⟩ := h
  obtain ⟨_, mem⟩ := val.entries hget
  set s₁ : Sim := { s with cout := s.cout ++ [.regions s.totalNumAccesses none] }
  have val₁ : s₁.toCore.Valid g := val
  obtain ⟨val', passed⟩ := summarizeFrom_spec val₁ h
  exact ⟨val', bases, mem, passed⟩

/-- The state after the counter was incremented. -/
def counted (s : Sim) : Sim := { s with totalNumAccesses := word (s.totalNumAccesses + 1) }

/-- An access is counted, and a pass runs where it is due. -/
lemma countAccess_inv (h : countAccess cfg s = some t) :
    cfg.period ≠ 0 ∧
      (if passDue cfg (counted s).totalNumAccesses then summarizePromotions (counted s)
        else some (counted s)) = some t := by
  unfold countAccess at h
  dsimp only at h
  split at h
  case isTrue => cases h
  case isFalse ne => exact ⟨ne, h⟩

/-- When a pass is due, counting the access runs it. -/
lemma countAccess_due (ne : cfg.period ≠ 0) (due : passDue cfg (counted s).totalNumAccesses) :
    countAccess cfg s = summarizePromotions (counted s) := by
  unfold countAccess
  rw [if_neg ne]
  exact if_pos due

/-- Counting an access, with the pass it may trigger. -/
lemma countAccess_spec (val : s.toCore.Valid g) (h : countAccess cfg s = some t) :
    t.toCore.Valid g ∧ ∃ head bases, (∀ n ∈ bases, s.promotionCache.Resident n) ∧
      head = (if passDue cfg (counted s).totalNumAccesses then
        [.regions (counted s).totalNumAccesses none] else []) ∧
      Passed { counted s with cout := s.cout ++ head } t bases := by
  obtain ⟨_, h⟩ := countAccess_inv h
  have val₁ : (counted s).toCore.Valid g := val
  split at h
  case isTrue due =>
    obtain ⟨val', bases, mem, passed⟩ := summarizePromotions_spec val₁ h
    exact ⟨val', _, bases, fun n hn => (mem n).mp hn, rfl, by rw [if_pos due]; exact passed⟩
  case isFalse due =>
    obtain rfl := Option.some.inj h
    refine ⟨val₁, _, [], by simp, rfl, ?_⟩
    rw [if_neg due, List.append_nil]
    exact Passed.refl _

/-- An access first counts and then goes through the caches. -/
lemma pccTrackAccess_inv {a : UInt64} (h : pccTrackAccess cfg s a = some t) :
    ∃ m, countAccess cfg s = some m ∧
      m.trackAccess cfg.alpha m.totalNumAccesses a.toNat = some t := by
  simp only [pccTrackAccess, Option.bind_eq_bind, Option.bind_eq_some_iff] at h
  exact h

/-- Before the first access there is the initial state. -/
lemma simulate_nil {s : Sim} : simulate cfg [] = some s ↔ promotionCacheInit cfg = some s := by
  show runFrom (pccTrackAccess cfg) (promotionCacheInit cfg) [] = some s ↔ _
  rw [runFrom_nil]

/-- One more access is one more step. -/
lemma simulate_snoc {s : Sim} {as : List UInt64} {a : UInt64} :
    simulate cfg (as ++ [a]) = some s ↔
      ∃ m, simulate cfg as = some m ∧ pccTrackAccess cfg m a = some s :=
  runFrom_snoc

/-- A trace that ends passes through a state after every prefix. -/
lemma simulate_prefix {s : Sim} {as bs : List UInt64} (pre : bs <+: as)
    (h : simulate cfg as = some s) : ∃ t, simulate cfg bs = some t :=
  runFrom_prefix pre h

/-- Whether every access of a trace meets a condition on the state after it has been counted, and after its pass. -/
def arrives (cfg : Config) (ok : Sim → UInt64 → Bool) (as : List UInt64) : Bool :=
  (promotionCacheInit cfg).all
    (meets (pccTrackAccess cfg) (fun s a => (countAccess cfg s).all fun m => ok m a) · as)

/-- What a run of the trace finds holds of every access. -/
lemma arrives_spec {ok : Sim → UInt64 → Bool} {as : List UInt64} (h : arrives cfg ok as = true) :
    ∀ pre a, pre ++ [a] <+: as → ∀ t m, simulate cfg pre = some t → countAccess cfg t = some m →
      ok m a = true := by
  intro pre a hpre t m ht hm
  have found := runFrom_meets h hpre ht
  rw [hm] at found
  exact found

/-- What holds at the start and is kept by every access of a trace holds after the trace. -/
lemma simulate_inv (Inv : List UInt64 → Sim → Prop) {s : Sim} {as : List UInt64}
    (base : ∀ s, promotionCacheInit cfg = some s → Inv [] s)
    (ind : ∀ bs a, bs ++ [a] <+: as → ∀ s t, simulate cfg bs = some s → Inv bs s →
      pccTrackAccess cfg s a = some t → Inv (bs ++ [a]) t)
    (h : simulate cfg as = some s) : Inv as s :=
  runFrom_inv Inv base ind h

/-- The initial state has valid and fresh caches, and nothing is promoted. -/
lemma promotionCacheInit_spec {s : Sim} (pos : 1 ≤ cfg.promotionCacheSize.toNat)
    (h : promotionCacheInit cfg = some s) :
    (∃ g, s.toCore.Valid g) ∧ s.l1Tlb4k.Unambiguous ∧ s.toCore.Fresh ∧
      s.toShared = initShared := by
  simp only [promotionCacheInit, Option.bind_eq_bind, Option.bind_eq_some_iff] at h
  obtain ⟨core, hcore, h⟩ := h
  obtain rfl := Option.some.inj h
  obtain ⟨val, un, fresh⟩ := initCore_spec pos hcore
  exact ⟨val, un, fresh, rfl⟩

/-- A promotion cache without an entry is not built. -/
lemma promotionCacheInit_pos {s : Sim} (h : promotionCacheInit cfg = some s) :
    1 ≤ cfg.promotionCacheSize.toNat := by
  simp only [promotionCacheInit, Option.bind_eq_bind, Option.bind_eq_some_iff] at h
  obtain ⟨core, hcore, _⟩ := h
  exact initCore_pos hcore

/-- A trace gets past the start only if the promotion cache has lines. -/
lemma simulate_pos {s : Sim} {as : List UInt64} (h : simulate cfg as = some s) :
    1 ≤ cfg.promotionCacheSize.toNat := by
  obtain ⟨s₀, hinit, _⟩ := runFrom_init h
  exact promotionCacheInit_pos hinit

/-- The invariant of the caches holds after every trace. -/
lemma simulate_valid {s : Sim} {as : List UInt64} (pos : 1 ≤ cfg.promotionCacheSize.toNat)
    (h : simulate cfg as = some s) : ∃ g, s.toCore.Valid g := by
  apply simulate_inv (fun _ s => ∃ g, s.toCore.Valid g) _ _ h
  · exact fun s hinit => (promotionCacheInit_spec pos hinit).1
  · rintro _ a _ s t _ ⟨g, val⟩ st
    obtain ⟨m, hcount, htrack⟩ := pccTrackAccess_inv st
    obtain ⟨val₁, _⟩ := countAccess_spec val hcount
    exact ⟨g, (trackAccess_spec val₁ htrack).1⟩

/-- A pass over an empty promotion cache changes no cache. -/
lemma countAccess_fresh (val : s.toCore.Valid g) (fresh : s.toCore.Fresh)
    (h : countAccess cfg s = some t) :
    t.toCore = s.toCore ∧ t.pccPromotions = s.pccPromotions := by
  obtain ⟨_, h⟩ := countAccess_inv h
  split at h
  case isTrue =>
    simp only [summarizePromotions, Option.bind_eq_bind, Option.bind_eq_some_iff] at h
    obtain ⟨bases, hget, h⟩ := h
    have empty : bases = [] := by
      apply List.eq_nil_iff_forall_not_mem.mpr
      intro n hn
      exact fresh.promotionCache n ((val.entries hget).2 n |>.mp hn)
    subst empty
    obtain rfl := Option.some.inj h
    exact ⟨rfl, rfl⟩
  case isFalse =>
    obtain rfl := Option.some.inj h
    exact ⟨rfl, rfl⟩

/-- Nothing is promoted when the first access has been counted. -/
lemma first_unpromoted {m : Sim} (pos : 1 ≤ cfg.promotionCacheSize.toNat)
    (h : simulate cfg [] = some s) (hm : countAccess cfg s = some m) (base : Nat) :
    m.promoted base = false := by
  obtain ⟨⟨g, val⟩, _, fresh, shared⟩ := promotionCacheInit_spec pos (simulate_nil.mp h)
  obtain ⟨_, prom⟩ := countAccess_fresh val fresh hm
  rw [Sim.promoted, prom, shared]
  rfl

end
end PromotionCache.Pcc.Single
