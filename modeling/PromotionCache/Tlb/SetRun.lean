import PromotionCache.Tlb.Exact

/-!
# Histories of a set

A set under any sequence of calls, with the variables of the caller that `insert` writes to. The
callers promise to insert no resident tag and to evict no other (`Allowed`); `Reaches` collects the
histories that keep this promise, with the replies. Such a call succeeds (`Sound.progress`) and
keeps the set free of duplicates (`Sound.step`).
-/

namespace PromotionCache.Tlb

/-- A call on a set. -/
inductive Call where
  | access (address offset : Nat) (isLoad : Bool)
  | insert (address offset : Nat) (isLoad : Bool)
  | evict (address : Nat)
  | flush

/-- What a call reports: the result of `access`, the out-parameters of `insert` and of `evict`. -/
inductive Reply where
  | hit (res : Bool)
  | inserted (out : Evicted)
  | evicted (dirty : Bool)
  | flushed
  deriving DecidableEq

/-- A set and the out-parameters of its caller. -/
structure SetState where
  set : CacheSet
  out : Evicted

namespace SetState

/-- A call on a set. -/
def step (m : SetState) : Call → Option (SetState × Reply)
  | .access address offset isLoad => do
    let (res, s) ← m.set.access address offset isLoad
    some (⟨s, m.out⟩, .hit res)
  | .insert address offset isLoad => do
    let (s, out) ← m.set.insert address offset isLoad m.out
    some (⟨s, out⟩, .inserted out)
  | .evict address => do
    let (s, dirty) ← m.set.evict address
    some (⟨s, m.out⟩, .evicted dirty)
  | .flush => do
    let s ← m.set.flush
    some (⟨s, m.out⟩, .flushed)

section
variable {m : SetState} {s : CacheSet} {t o : Nat} {ld : Bool}

/-- The call of an access. -/
lemma step_access {res : Bool} (h : m.set.access t o ld = some (res, s)) :
    m.step (.access t o ld) = some (⟨s, m.out⟩, .hit res) := by
  rw [step, h]
  rfl

/-- The call of an insertion. -/
lemma step_insert {out : Evicted} (h : m.set.insert t o ld m.out = some (s, out)) :
    m.step (.insert t o ld) = some (⟨s, out⟩, .inserted out) := by
  rw [step, h]
  rfl

/-- The call of an eviction. -/
lemma step_evict {dirty : Bool} (h : m.set.evict t = some (s, dirty)) :
    m.step (.evict t) = some (⟨s, m.out⟩, .evicted dirty) := by
  rw [step, h]
  rfl

/-- The call of a flush. -/
lemma step_flush (h : m.set.flush = some s) : m.step .flush = some (⟨s, m.out⟩, .flushed) := by
  rw [step, h]
  rfl

end
end SetState

/-- Only tags that are not resident are inserted, only resident ones evicted. -/
def Allowed (s : CacheSet) : Call → Prop
  | .insert address _ _ => ¬ s.Bound address
  | .evict address => s.Bound address
  | _ => True

instance (s : CacheSet) (call : Call) : Decidable (Allowed s call) := by
  cases call <;> unfold Allowed <;> infer_instance

/-- Histories of allowed calls, with the replies they got. -/
inductive Reaches (m₀ : SetState) : List Call → SetState → List Reply → Prop where
  | nil : Reaches m₀ [] m₀ []
  | snoc {calls m replies call m' r} :
    Reaches m₀ calls m replies →
    Allowed m.set call →
    m.step call = some (m', r) →
    Reaches m₀ (calls ++ [call]) m' (replies ++ [r])

/-- The end of a history and its replies; nothing if a call is not allowed or dies. -/
def SetState.replay (m : SetState) : List Call → Option (SetState × List Reply)
  | [] => some (m, [])
  | call :: calls =>
    if Allowed m.set call then do
      let (m, r) ← m.step call
      let (m, rs) ← m.replay calls
      some (m, r :: rs)
    else none

/-- What `replay` computes is a history. -/
lemma Reaches.replay {m₀ calls m replies calls' m' replies'} (h : Reaches m₀ calls m replies)
    (e : m.replay calls' = some (m', replies')) :
    Reaches m₀ (calls ++ calls') m' (replies ++ replies') := by
  induction calls' generalizing calls m replies replies' with
  | nil =>
    cases e
    simpa using h
  | cons call calls' ih =>
    rw [SetState.replay] at e
    split at e
    case isTrue ok =>
      simp only [Option.bind_eq_bind, Option.bind_eq_some_iff] at e
      obtain ⟨⟨n, r⟩, st, ⟨n', rs⟩, rest, e⟩ := e
      cases e
      have h' := ih (h.snoc ok st) rest
      simpa using h'
    case isFalse => cases e

/-- A history is what replaying its calls gives. -/
lemma Reaches.replay_eq {m₀ calls m replies} (h : Reaches m₀ calls m replies) :
    m₀.replay calls = some (m, replies) := by
  -- what is replayed first does not matter for the rest
  have snoc : ∀ (calls : List Call) (m₀ m m' : SetState) (replies : List Reply) (call : Call) (r : Reply),
      m₀.replay calls = some (m, replies) → Allowed m.set call → m.step call = some (m', r) →
      m₀.replay (calls ++ [call]) = some (m', replies ++ [r]) := by
    intro calls
    induction calls with
    | nil =>
      intro m₀ m m' replies call r e ok st
      obtain ⟨rfl, rfl⟩ := Prod.mk.inj (Option.some.inj e)
      rw [List.nil_append, SetState.replay, if_pos ok, st]
      rfl
    | cons first calls ih =>
      intro m₀ m m' replies call r e ok st
      rw [SetState.replay] at e
      rw [List.cons_append, SetState.replay]
      split at e
      case isTrue allowed =>
        simp only [Option.bind_eq_bind, Option.bind_eq_some_iff] at e
        obtain ⟨⟨m₁, r₁⟩, st₁, ⟨m₂, rs⟩, rest, e⟩ := e
        obtain ⟨rfl, rfl⟩ := Prod.mk.inj (Option.some.inj e)
        rw [if_pos allowed, st₁]
        simp only [Option.bind_eq_bind, Option.bind_some, ih m₁ m₂ m' rs call r rest ok st]
        rfl
      case isFalse => cases e
  induction h with
  | nil => rfl
  | snoc _ ok st ih => exact snoc _ _ _ _ _ _ _ ih ok st

/-- The sets the constructor builds for a policy, and what its operations keep of them. -/
structure Sound (n policy : Nat) (s : CacheSet) (ps : List Ptr) : Prop extends s.Exact ps where
  assoc : s.associativity = n
  pol : s.policy = policy

/-- A new set is sound. -/
lemma sound_new (n lineSize policy : Nat) : Sound n policy (.new n lineSize policy) [] where
  toWf := CacheSet.wf_new n lineSize policy
  complete := by intro c h; cases h
  assoc := rfl
  pol := rfl

section
variable {n policy : Nat} {s : CacheSet} {ps : List Ptr}

/-- The policy stays what it is. -/
private lemma Sound.pol' (snd : Sound n policy s ps) (pol : policy = 0 ∨ policy = 2) :
    s.policy = 0 ∨ s.policy = 2 := by
  rw [snd.pol]
  exact pol

/-- An allowed call succeeds, except for an insertion into a set without lines, and keeps the set
    sound. -/
lemma Sound.progress {m : SetState} {call : Call} (snd : Sound n policy m.set ps)
    (pol : policy = 0 ∨ policy = 2) (pos : 0 < n ∨ ∀ t o ld, call ≠ .insert t o ld)
    (ok : Allowed m.set call) :
    ∃ m' r qs, m.step call = some (m', r) ∧ Sound n policy m'.set qs := by
  cases call with
  | access t o ld =>
    obtain ⟨s', hacc, hassoc, hpol, _, qs, _, _, ex⟩ :=
      snd.toWf.access_bound (snd.pol' pol) t o ld
    refine ⟨⟨s', m.out⟩, .hit (decide (m.set.Bound t)), qs, SetState.step_access hacc, ?_⟩
    exact ⟨ex snd.toExact, hassoc.trans snd.assoc, hpol.trans snd.pol⟩
  | insert t o ld =>
    have pos' : 1 ≤ m.set.associativity := by
      rw [snd.assoc]
      exact pos.resolve_right fun h => h t o ld rfl
    obtain ⟨s', hins, hassoc, hpol, _, qs, _, _, ex⟩ :=
      snd.toWf.insert_bound (snd.pol' pol) pos' t o ld m.out
    refine ⟨⟨s', m.set.report m.out⟩, .inserted (m.set.report m.out), qs,
      SetState.step_insert hins, ?_⟩
    exact ⟨ex snd.toExact ok, hassoc.trans snd.assoc, hpol.trans snd.pol⟩
  | evict t =>
    obtain ⟨s', d, hev, hassoc, hpol, _, qs, _, _, ex⟩ := snd.toWf.evict_spec ok
    refine ⟨⟨s', m.out⟩, .evicted d, qs, SetState.step_evict hev, ?_⟩
    exact ⟨ex snd.toExact, hassoc.trans snd.assoc, hpol.trans snd.pol⟩
  | flush =>
    obtain ⟨l, m', hfl, wf', _⟩ := snd.toWf.flush
    refine ⟨⟨m.set.flushed ps l m', m.out⟩, .flushed, [], SetState.step_flush hfl, ?_⟩
    refine ⟨⟨wf', ?_⟩, snd.assoc, snd.pol⟩
    intro c h
    cases h

/-- An allowed call keeps the set sound. -/
lemma Sound.step {m m' : SetState} {call : Call} {r : Reply} (snd : Sound n policy m.set ps)
    (pol : policy = 0 ∨ policy = 2) (ok : Allowed m.set call) (st : m.step call = some (m', r)) :
    ∃ qs, Sound n policy m'.set qs := by
  have pos : 0 < n ∨ ∀ t o ld, call ≠ .insert t o ld := by
    apply or_iff_not_imp_left.mpr
    rintro zero t o ld rfl
    have none := snd.toWf.insert_empty (by rw [snd.assoc]; omega) t o ld m.out
    simp [SetState.step, none] at st
  obtain ⟨m'', r', qs, st', snd'⟩ := snd.progress pol pos ok
  cases st.symm.trans st'
  exact ⟨qs, snd'⟩

end
end PromotionCache.Tlb
