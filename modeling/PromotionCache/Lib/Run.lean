import Mathlib.Data.List.Induction

/-!
# Runs of a partial step function

A machine whose step may die: `step s a` is the state after input `a`, or `none` where the machine
stops with a fault. `run` feeds it a list of inputs. The rules below are the only inductions over
runs: an invariant of the step is one of the run (`run_inv`), also when the step keeps it only
under a condition that holds along the run (`run_inv_of`), and a run splits where its input does
(`run_append`). Where every enabled step lowers a measure some run comes to its end (`exists_ended`).
-/

namespace PromotionCache.Lib

variable {S A : Type*}

/-- The state after a list of inputs. -/
def run (step : S → A → Option S) : S → List A → Option S
  | s, [] => some s
  | s, a :: as => do
    let s' ← step s a
    run step s' as

/-- The run over no action. -/
@[simp] lemma run_nil (step : S → A → Option S) (s : S) : run step s [] = some s := rfl

/-- A run goes through its first action first. -/
lemma run_cons (step : S → A → Option S) (s : S) (a : A) (as : List A) :
    run step s (a :: as) = (step s a).bind fun s' => run step s' as := rfl

/-- A run goes through one part and then the other. -/
lemma run_append (step : S → A → Option S) (s : S) (as bs : List A) :
    run step s (as ++ bs) = (run step s as).bind fun s' => run step s' bs := by
  induction as generalizing s with
  | nil => rfl
  | cons a as ih =>
    simp only [List.cons_append, run_cons]
    cases step s a with
    | none => rfl
    | some s' => simp [ih]

/-- The last step of a run. -/
lemma run_snoc {step : S → A → Option S} {s t : S} {as : List A} {a : A} :
    run step s (as ++ [a]) = some t ↔ ∃ s', run step s as = some s' ∧ step s' a = some t := by
  rw [run_append]
  cases run step s as with
  | none => simp
  | some s' =>
    simp only [Option.bind_some, run_cons, run_nil, Option.some.injEq, exists_eq_left']
    cases step s' a <;> simp

/-- A run that ends passes through a state after every prefix of its input. -/
lemma run_prefix {step : S → A → Option S} {s t : S} {as bs : List A}
    (h : run step s (as ++ bs) = some t) :
    ∃ s', run step s as = some s' ∧ run step s' bs = some t := by
  rw [run_append] at h
  exact Option.bind_eq_some_iff.mp h

/-- What holds at the start and is kept by every step that the run takes holds at its end; the
    step may use how its input divides the run. -/
theorem run_inv_of {step : S → A → Option S} {init : S} {Inv : List A → S → Prop} {as : List A}
    (base : Inv [] init)
    (ind : ∀ bs a, bs ++ [a] <+: as → ∀ s t, run step init bs = some s → Inv bs s →
      step s a = some t → Inv (bs ++ [a]) t)
    {t : S} (h : run step init as = some t) : Inv as t := by
  induction as using List.reverseRecOn generalizing t with
  | nil => cases h; exact base
  | append_singleton as a ih =>
    obtain ⟨s, hs, ha⟩ := run_snoc.mp h
    have inv : Inv as s := by
      apply ih _ hs
      intro bs b pre
      exact ind bs b (pre.trans (List.prefix_append as [a]))
    exact ind as a (List.prefix_refl _) s t hs inv ha

/-- What holds at the start and is kept by every step holds after every run. -/
theorem run_inv {step : S → A → Option S} {init : S} {Inv : S → Prop} (base : Inv init)
    (ind : ∀ s a t, Inv s → step s a = some t → Inv t) {as : List A} {t : S}
    (h : run step init as = some t) : Inv t := by
  have ind' : ∀ bs a, bs ++ [a] <+: as → ∀ s t, run step init bs = some s → Inv s →
      step s a = some t → Inv t := fun _ a _ s t _ inv st => ind s a t inv st
  exact run_inv_of base ind' h

/-- If every step succeeds from where the run has come, the run comes to its end. -/
theorem run_total {step : S → A → Option S} {init : S} {as : List A} (Inv : List A → S → Prop)
    (base : Inv [] init)
    (ind : ∀ bs a, bs ++ [a] <+: as → ∀ s, run step init bs = some s → Inv bs s →
      ∃ t, step s a = some t ∧ Inv (bs ++ [a]) t) :
    ∃ t, run step init as = some t ∧ Inv as t := by
  induction as using List.reverseRecOn with
  | nil => exact ⟨init, rfl, base⟩
  | append_singleton as a ih =>
    obtain ⟨s, hs, inv⟩ := ih fun bs b pre => ind bs b (pre.trans (List.prefix_append as [a]))
    obtain ⟨t, ha, inv'⟩ := ind as a (List.prefix_refl _) s hs inv
    exact ⟨t, run_snoc.mpr ⟨s, hs, ha⟩, inv'⟩

/-- If every enabled step goes through, keeps the invariant and lowers the measure, then some run comes to
    a state where no step is enabled. -/
theorem exists_ended {step : S → A → Option S} {Enabled : S → A → Prop} {Inv : S → Prop} (left : S → Nat)
    (progress : ∀ s a, Inv s → Enabled s a → ∃ t, step s a = some t ∧ Inv t ∧ left t < left s)
    {s : S} (inv : Inv s) :
    ∃ as t, run step s as = some t ∧ Inv t ∧ ∀ a, ¬ Enabled t a := by
  induction n : left s using Nat.strongRecOn generalizing s with
  | _ n ih =>
    by_cases ended : ∀ a, ¬ Enabled s a
    · exact ⟨[], s, rfl, inv, ended⟩
    · obtain ⟨a, enabled⟩ := not_forall_not.mp ended
      obtain ⟨s₁, first, inv₁, lt⟩ := progress s a inv enabled
      obtain ⟨as, t, rest, inv', ended⟩ := ih (left s₁) (n ▸ lt) inv₁ rfl
      refine ⟨a :: as, t, ?_, inv', ended⟩
      rw [run_cons, first, Option.bind_some, rest]

/-- Whether every input that a run comes to meets a condition on the state before it. -/
def meets (step : S → A → Option S) (ok : S → A → Bool) : S → List A → Bool
  | _, [] => true
  | s, a :: as => ok s a && (step s a).all fun s' => meets step ok s' as

/-- The condition holds wherever the run has come. -/
lemma meets_spec {step : S → A → Option S} {ok : S → A → Bool} {s t : S} {as bs : List A} {a : A}
    (h : meets step ok s as = true) (pre : bs ++ [a] <+: as) (ht : run step s bs = some t) : ok t a = true := by
  induction bs generalizing s as with
  | nil =>
    obtain ⟨cs, rfl⟩ := pre
    obtain rfl := Option.some.inj ht
    exact (Bool.and_eq_true_iff.mp h).1
  | cons b bs ih =>
    obtain ⟨cs, rfl⟩ := pre
    obtain ⟨s', st, ht⟩ := Option.bind_eq_some_iff.mp ht
    have rest := (Bool.and_eq_true_iff.mp h).2
    rw [st] at rest
    exact ih rest (List.prefix_append _ cs) ht

/-- A run from the state that the initialization leaves. -/
def runFrom (step : S → A → Option S) (init : Option S) (as : List A) : Option S :=
  init.bind fun s => run step s as

section
variable {step : S → A → Option S} {init : Option S} {s t : S} {as bs : List A} {a : A}

/-- Before the first action there is the initial state. -/
lemma runFrom_nil : runFrom step init [] = init := by
  cases init <;> rfl

/-- One more action is one more step. -/
lemma runFrom_snoc :
    runFrom step init (as ++ [a]) = some t ↔
      ∃ s, runFrom step init as = some s ∧ step s a = some t := by
  cases init with
  | none => simp [runFrom]
  | some s₀ => exact run_snoc

/-- A run starts at an initial state. -/
lemma runFrom_init (h : runFrom step init as = some s) :
    ∃ s₀, init = some s₀ ∧ run step s₀ as = some s :=
  Option.bind_eq_some_iff.mp h

/-- A run that comes to its end has come through all its beginnings. -/
lemma runFrom_prefix (pre : bs <+: as) (h : runFrom step init as = some s) :
    ∃ t, runFrom step init bs = some t := by
  obtain ⟨cs, rfl⟩ := pre
  obtain ⟨s₀, rfl, hrun⟩ := runFrom_init h
  obtain ⟨t, ht, _⟩ := run_prefix hrun
  exact ⟨t, ht⟩

/-- `run_inv_of` for a run from the initialization. -/
theorem runFrom_inv (Inv : List A → S → Prop) (base : ∀ s, init = some s → Inv [] s)
    (ind : ∀ bs a, bs ++ [a] <+: as → ∀ s t, runFrom step init bs = some s → Inv bs s →
      step s a = some t → Inv (bs ++ [a]) t)
    (h : runFrom step init as = some s) : Inv as s := by
  obtain ⟨s₀, rfl, hrun⟩ := runFrom_init h
  exact run_inv_of (base s₀ rfl) ind hrun

/-- A condition that the run from the initialization meets holds wherever it has come. -/
lemma runFrom_meets {ok : S → A → Bool} (h : init.all (meets step ok · as) = true) (pre : bs ++ [a] <+: as)
    (ht : runFrom step init bs = some t) : ok t a = true := by
  obtain ⟨s₀, rfl, hrun⟩ := runFrom_init ht
  exact meets_spec h pre hrun

end

/-- Where an input stands that is the last of a prefix. -/
lemma snoc_prefix {as bs : List A} {a : A} (h : bs ++ [a] <+: as) :
    bs.length < as.length ∧ as.take bs.length = bs ∧ as[bs.length]? = some a := by
  obtain ⟨cs, rfl⟩ := h
  simp

/-- Every number up to that of the inputs with property `p` is reached by the input that is the
    last of a prefix. -/
lemma exists_prefix_countP {p : A → Bool} {as : List A} {n : Nat} (pos : 1 ≤ n)
    (le : n ≤ as.countP p) :
    ∃ bs a, bs ++ [a] <+: as ∧ p a = true ∧ (bs ++ [a]).countP p = n := by
  induction as using List.reverseRecOn with
  | nil =>
    rw [List.countP_nil] at le
    omega
  | append_singleton as a ih =>
    rcases Nat.lt_or_ge (as.countP p) n with last | earlier
    · -- the last input is the one
      have e : (as ++ [a]).countP p = as.countP p + [a].countP p := List.countP_append
      rw [List.countP_singleton] at e
      split at e
      case isTrue hit => exact ⟨as, a, List.prefix_refl _, hit, by omega⟩
      case isFalse => omega
    · obtain ⟨bs, b, pre, hit, count⟩ := ih earlier
      exact ⟨bs, b, pre.trans (List.prefix_append as [a]), hit, count⟩

end PromotionCache.Lib
