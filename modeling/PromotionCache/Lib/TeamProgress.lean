import PromotionCache.Lib.Run
import PromotionCache.Lib.TeamSpec
import Mathlib.Algebra.Order.BigOperators.Group.Finset

/-!
# A team comes to its end

Where the bodies end, and no epoch is too large (`Budget`), a team has less to do after every step
(`Stands.total_lt`), so that its runs are bounded. No step fails that a thread can take
(`Stands.enabled_iff`), and where no thread can take one all have returned (`Stands.stuck`): none waits at a
barrier to which another one does not come.
-/

namespace PromotionCache.Lib.Team
variable {V M L C : Type*} {n : ℕ}

/-- What a run may take: epochs, entries in one of them, and steps of the body for an entry, of which
    `cost l` are left at `l`. -/
structure Budget (L : Type*) where
  levels : ℕ
  entries : ℕ
  most : ℕ
  cost : L → ℕ

namespace Budget
variable (B : Budget L)

/-- What a step of the body leaves to do for the entry. An append takes two steps. -/
def after : Next V L → ℕ
  | .go l => B.cost l
  | .push _ l => B.cost l + 2
  | .finish => 0

/-- The bodies go through within the budget. -/
structure Covers (K : Kernel V M L C) : Prop where
  start : ∀ u, B.cost (K.start u) ≤ B.most
  step : ∀ c b hop m u l, ∃ r, K.step c b hop m u l = some r ∧ B.after r.2 < B.cost l
  capacity : ∀ c ∈ K.capacity, B.entries ≤ c
  bound : B.levels + 1 < K.bound

/-- An epoch within the budget. -/
structure Admits (a : Epoch V M L n) : Prop where
  level : a.front ≠ [] → a.level < B.levels
  front : a.front.length ≤ B.entries
  pushed : a.pushed.length ≤ B.entries

/-- What an entry takes at most. -/
def entryCost : ℕ := B.most + 2

/-- What is left of the epoch, or of the way between the barriers. -/
def rank : Pc V L → ℕ
  | .head => B.entries * B.entryCost + 2
  | .entry i => (B.entries - i) * B.entryCost + 1
  | .fetch i => (B.entries - i) * B.entryCost
  | .body i _ l => (B.entries - i - 1) * B.entryCost + B.cost l + 1
  | .add i _ _ l => (B.entries - i - 1) * B.entryCost + B.cost l + 3
  | .write i _ _ l _ => (B.entries - i - 1) * B.entryCost + B.cost l + 2
  | .barrier1 => B.entries * B.entryCost + 7
  | .loadOut => B.entries * B.entryCost + 6
  | .storeIn _ => B.entries * B.entryCost + 5
  | .clearOut => B.entries * B.entryCost + 4
  | .barrier2 => B.entries * B.entryCost + 3
  | .done => 0

/-- What a thread has left to do: epochs, and the rest of its own. -/
def left (th : Thread V L) : ℕ :=
  (B.levels + 2 - th.hop) * (B.entries * B.entryCost + 8) + B.rank th.pc

/-- What the team has left to do. -/
def total (s : State V M L n) : ℕ := ∑ tid, B.left (s.threads tid)

end Budget

section
variable {B : Budget L} {K : Kernel V M L C} {s t : State V M L n} {a : Epoch V M L n} {tid : Fin n}
  {th : Thread V L} {act : Action C n} {c : C} {i : ℕ} {u : V} {l : L}

/-- Only what is enabled goes through. -/
lemma enabled_of_step (h : step K s act = some t) : Enabled s act := by
  cases act with
  | thread tid c =>
    intro idle
    change threadStep K s tid c = some t at h
    cases hpc : (s.threads tid).pc with
    | barrier1 => simp [threadStep, hpc] at h
    | barrier2 => simp [threadStep, hpc] at h
    | done => simp [threadStep, hpc] at h
    | _ =>
      rw [hpc] at idle
      exact idle
  | release =>
    rw [step] at h
    by_cases b1 : AllAtBarrier1 s
    · exact .inl b1
    · rw [if_neg b1, Option.ite_none_right_eq_some] at h
      exact .inr h.1

/-- A thread that works on an epoch can go on. -/
lemma Working.exists_step (wk : Working s a) (covers : B.Covers K) (admits : B.Admits a) (c : C)
    (busy : ¬ (s.threads tid).pc.idle) : ∃ t, threadStep K s tid c = some t := by
  obtain ⟨hop, side, place⟩ := wk.fits tid
  rw [← Option.isSome_iff_exists]
  cases hpc : (s.threads tid).pc with
  | head => simp only [threadStep, hpc, Option.isSome_some]
  | entry i =>
    rw [hpc] at hop place
    have level := admits.level place.1
    have bound := covers.bound
    have below : (s.threads tid).hop + 1 < K.bound := by
      rw [hop]
      dsimp only [Pc.atBarrier1, Bool.toNat_false]
      omega
    simp only [threadStep, hpc, below, if_true]
    split <;> rfl
  | fetch i =>
    rw [hpc] at side place
    have input : (s.threads tid).side = a.side := by simpa [Pc.atBarrier1] using side
    have load := wk.loaded i _ (List.getElem?_eq_getElem place.2.2)
    simp only [threadStep, hpc, input, load, Option.map_some, Option.isSome_some]
  | body i u l =>
    obtain ⟨r, st, -⟩ := covers.step c (s.threads tid).side (s.threads tid).hop s.mem u l
    simp only [threadStep, hpc, st, Option.map_some, Option.isSome_some]
  | add i u v l => simp only [threadStep, hpc, Option.isSome_some]
  | write i u v l index =>
    have slot := wk.writer tid v index (by rw [hpc]; rfl)
    have lt := (List.getElem?_eq_some_iff.mp slot).1
    have room : ∀ c ∈ K.capacity, index < c := fun c hc =>
      lt.trans_le (admits.pushed.trans (covers.capacity c hc))
    simp only [threadStep, hpc]
    rw [if_pos room]
    rfl
  | barrier1 =>
    rw [hpc] at busy
    exact absurd trivial busy
  | barrier2 =>
    rw [hpc] at busy
    exact absurd trivial busy
  | done =>
    rw [hpc] at busy
    exact absurd trivial busy
  | loadOut => simp only [threadStep, hpc, Option.isSome_some]
  | storeIn value => simp only [threadStep, hpc, Option.isSome_some]
  | clearOut => simp only [threadStep, hpc, Option.isSome_some]

/-- So can a thread between the barriers. -/
lemma Turning.exists_step (tn : Turning s a) (c : C) (busy : ¬ (s.threads tid).pc.idle) :
    ∃ t, threadStep K s tid c = some t := by
  have place := (tn.fits tid).place
  rw [← Option.isSome_iff_exists]
  cases hpc : (s.threads tid).pc with
  | loadOut => simp only [threadStep, hpc, Option.isSome_some]
  | storeIn value => simp only [threadStep, hpc, Option.isSome_some]
  | clearOut => simp only [threadStep, hpc, Option.isSome_some]
  | barrier2 =>
    rw [hpc] at busy
    exact absurd trivial busy
  | _ =>
    rw [hpc] at place
    exact place.elim

/-- What is enabled goes through, and nothing else. -/
theorem Stands.enabled_iff (stands : Stands s a) (covers : B.Covers K) (admits : B.Admits a) :
    Enabled s act ↔ ∃ t, Team.step K s act = some t := by
  refine ⟨fun enabled => ?_, fun ⟨t, h⟩ => enabled_of_step h⟩
  cases act with
  | thread tid c =>
    rcases stands with wk | tn
    · exact wk.exists_step covers admits c enabled
    · exact tn.exists_step c enabled
  | release =>
    rw [Team.step]
    by_cases b1 : AllAtBarrier1 s
    · exact ⟨_, if_pos b1⟩
    · exact ⟨_, (if_neg b1).trans (if_pos (enabled.resolve_left b1))⟩

/-- Where nothing is enabled all threads have returned. -/
theorem Stands.stuck [Nonempty C] (stands : Stands s a) (stuck : ∀ act : Action C n, ¬ Enabled s act) :
    Returned s := by
  obtain ⟨c⟩ := ‹Nonempty C›
  have idle : ∀ tid, (s.threads tid).pc.idle := fun tid => not_not.mp (stuck (.thread tid c))
  have open1 : ¬ AllAtBarrier1 s := fun all => stuck .release (.inl all)
  have open2 : ¬ AllAtBarrier2 s := fun all => stuck .release (.inr all)
  rcases stands with wk | tn
  · have place : ∀ tid, (s.threads tid).pc = .barrier1 ∧ a.front ≠ [] ∨
        (s.threads tid).pc = .done ∧ a.front = [] := by
      intro tid
      have place := (wk.fits tid).place
      have idle := idle tid
      cases hpc : (s.threads tid).pc with
      | barrier1 =>
        rw [hpc] at place
        exact .inl ⟨rfl, place.1⟩
      | done =>
        rw [hpc] at place
        exact .inr ⟨rfl, place.1⟩
      | barrier2 =>
        rw [hpc] at place
        exact place.elim
      | _ =>
        rw [hpc] at idle
        exact idle.elim
    by_cases none : a.front = []
    · exact fun tid => ((place tid).resolve_left fun h => h.2 none).1
    · refine absurd (fun tid => ?_) open1
      rw [((place tid).resolve_right fun h => none h.2).1]
      rfl
  · refine absurd (fun tid => ?_) open2
    have place := (tn.fits tid).place
    have idle := idle tid
    cases hpc : (s.threads tid).pc with
    | barrier2 => rfl
    | barrier1 =>
      rw [hpc] at place
      exact place.elim
    | done =>
      rw [hpc] at place
      exact place.elim
    | _ =>
      rw [hpc] at idle
      exact idle.elim

/-- A thread that goes on within its epoch. -/
lemma left_lt {pc : Pc V L} (lt : B.rank pc < B.rank th.pc) : B.left { th with pc } < B.left th :=
  Nat.add_lt_add_left lt _

/-- The end of an epoch leaves one epoch less. -/
lemma left_exit (hpc : th.pc = .entry i) (le : th.hop ≤ B.levels + 1) (b : Bool) :
    B.left { pc := .barrier1, hop := th.hop + 1, side := b : Thread V L } < B.left th := by
  obtain ⟨m, hm⟩ : ∃ m, B.levels + 2 - th.hop = m + 1 := ⟨B.levels + 1 - th.hop, by omega⟩
  have hm' : B.levels + 2 - (th.hop + 1) = m := by omega
  simp only [Budget.left, hpc, hm, hm', Nat.succ_mul, Budget.rank]
  omega

/-- One thread goes on. -/
lemma total_lt (threads : t.threads = Function.update s.threads tid th)
    (lt : B.left th < B.left (s.threads tid)) : B.total t < B.total s := by
  have sum := sum_update s.threads tid th B.left
  rw [← threads] at sum
  unfold Budget.total
  omega

/-- One thread goes on within its epoch. -/
lemma total_lt_of_goto {pc : Pc V L}
    (threads : t.threads = Function.update s.threads tid { s.threads tid with pc })
    (lt : B.rank pc < B.rank (s.threads tid).pc) : B.total t < B.total s :=
  total_lt threads (left_lt lt)

/-- The body of an entry takes less than what is left at the entry. -/
lemma rank_start (covers : B.Covers K) (lt : i < B.entries) (u : V) :
    B.rank (.body i u (K.start u)) < B.rank (.fetch i : Pc V L) := by
  have le := covers.start u
  obtain ⟨m, hm⟩ : ∃ m, B.entries - i = m + 1 := ⟨B.entries - i - 1, by omega⟩
  simp only [Budget.rank, hm, Nat.succ_mul, Nat.add_sub_cancel, Budget.entryCost]
  omega

/-- So does every step in it. -/
lemma rank_after (team : 0 < n) {next : Next V L} (lt : B.after next < B.cost l) :
    B.rank (.after n i u next) < B.rank (.body i u l) := by
  cases next with
  | go l' =>
    simp only [Budget.after] at lt
    simp only [Pc.after, Budget.rank]
    omega
  | push v l' =>
    simp only [Budget.after] at lt
    simp only [Pc.after, Budget.rank]
    omega
  | finish =>
    have fewer : B.entries - (i + n) ≤ B.entries - i - 1 := by omega
    have le := Nat.mul_le_mul_right B.entryCost fewer
    simp only [Budget.after] at lt
    simp only [Pc.after, Budget.rank]
    omega

/-- A step of a thread leaves less to do. -/
lemma threadStep_total (team : 0 < n) (covers : B.Covers K)
    (fetch : ∀ i, (s.threads tid).pc = .fetch i → i < B.entries)
    (exit : ∀ i, (s.threads tid).pc = .entry i → (s.threads tid).hop ≤ B.levels + 1)
    (h : threadStep K s tid c = some t) : B.total t < B.total s := by
  cases hpc : (s.threads tid).pc with
  | head =>
    simp only [threadStep, hpc, Option.some.injEq] at h
    subst h
    refine total_lt_of_goto rfl ?_
    rw [hpc]
    have le := Nat.mul_le_mul_right B.entryCost (Nat.sub_le B.entries tid)
    split
    · simp only [Budget.rank]
      omega
    · simp only [Budget.rank]
      omega
  | entry i =>
    simp only [threadStep, hpc] at h
    split at h
    · cases h
      refine total_lt_of_goto rfl ?_
      rw [hpc]
      exact Nat.lt_succ_self _
    · rw [Option.ite_none_right_eq_some, Option.some.injEq] at h
      obtain ⟨-, rfl⟩ := h
      exact total_lt rfl (left_exit hpc (exit i hpc) _)
  | fetch i =>
    simp only [threadStep, hpc, Option.map_eq_some_iff] at h
    obtain ⟨u, -, rfl⟩ := h
    refine total_lt_of_goto rfl ?_
    rw [hpc]
    exact rank_start covers (fetch i hpc) u
  | body i u l =>
    obtain ⟨r, st, lt⟩ := covers.step c (s.threads tid).side (s.threads tid).hop s.mem u l
    simp only [threadStep, hpc, st, Option.map_some, Option.some.injEq] at h
    subst h
    refine total_lt_of_goto rfl ?_
    rw [hpc]
    exact rank_after team lt
  | add i u v l =>
    simp only [threadStep, hpc, Option.some.injEq] at h
    subst h
    refine total_lt_of_goto rfl ?_
    rw [hpc]
    exact Nat.lt_succ_self _
  | write i u v l index =>
    simp only [threadStep, hpc, Option.ite_none_right_eq_some, Option.some.injEq] at h
    obtain ⟨-, rfl⟩ := h
    refine total_lt_of_goto rfl ?_
    rw [hpc]
    exact Nat.lt_succ_self _
  | loadOut =>
    simp only [threadStep, hpc, Option.some.injEq] at h
    subst h
    refine total_lt_of_goto rfl ?_
    rw [hpc]
    exact Nat.lt_succ_self _
  | storeIn value =>
    simp only [threadStep, hpc, Option.some.injEq] at h
    subst h
    refine total_lt_of_goto rfl ?_
    rw [hpc]
    exact Nat.lt_succ_self _
  | clearOut =>
    simp only [threadStep, hpc, Option.some.injEq] at h
    subst h
    refine total_lt_of_goto rfl ?_
    rw [hpc]
    exact Nat.lt_succ_self _
  | barrier1 => simp [threadStep, hpc] at h
  | barrier2 => simp [threadStep, hpc] at h
  | done => simp [threadStep, hpc] at h

/-- The end of a barrier leaves less to do for every thread. -/
lemma release_total (team : 0 < n) (h : step K s .release = some t) : B.total t < B.total s := by
  have sum : ∀ t : State V M L n, (∀ tid, B.left (t.threads tid) < B.left (s.threads tid)) →
      B.total t < B.total s := fun t lt =>
    Finset.sum_lt_sum_of_nonempty ⟨⟨0, team⟩, Finset.mem_univ _⟩ fun tid _ => lt tid
  rw [step] at h
  by_cases b1 : AllAtBarrier1 s
  · rw [if_pos b1] at h
    cases h
    refine sum _ fun tid => left_lt ?_
    rw [atBarrier1_eq (b1 tid)]
    split
    · exact Nat.lt_succ_self _
    · simp only [Budget.rank]
      omega
  · rw [if_neg b1, Option.ite_none_right_eq_some, Option.some.injEq] at h
    obtain ⟨b2, rfl⟩ := h
    refine sum _ fun tid => left_lt ?_
    rw [atBarrier2_eq (b2 tid)]
    exact Nat.lt_succ_self _

/-- Every step leaves less to do. -/
theorem Stands.total_lt (stands : Stands s a) (team : 0 < n) (covers : B.Covers K) (admits : B.Admits a)
    (h : Team.step K s act = some t) : B.total t < B.total s := by
  cases act with
  | release => exact release_total team h
  | thread tid c =>
    refine threadStep_total team covers ?_ ?_ h
    · intro i hpc
      rcases stands with wk | tn
      · have place := (wk.fits tid).place
        rw [hpc] at place
        exact place.2.2.trans_le admits.front
      · have place := (tn.fits tid).place
        rw [hpc] at place
        exact place.elim
    · intro i hpc
      rcases stands with wk | tn
      · obtain ⟨hop, -, place⟩ := wk.fits tid
        rw [hpc] at hop place
        have level := admits.level place.1
        rw [hop]
        dsimp only [Pc.atBarrier1, Bool.toNat_false]
        omega
      · have place := (tn.fits tid).place
        rw [hpc] at place
        exact place.elim

end

/-- A state of a team in an epoch of which `Inv` holds. -/
def Within (Inv : Epoch V M L n → Prop) (s : State V M L n) : Prop := ∃ a, Stands s a ∧ Inv a

section
variable {B : Budget L} {K : Kernel V M L C} {Inv : Epoch V M L n → Prop} {s t : State V M L n}
  {as : List (Action C n)} {act : Action C n}
  (team : 0 < n) (ind : ∀ a b, Inv a → Epoch.Step K (fun _ _ _ _ => True) a b → Inv b)

include team ind

/-- What the epochs keep the team keeps. -/
lemma Within.step (within : Within Inv s) (h : step K s act = some t) : Within Inv t := by
  obtain ⟨a, stands, inv⟩ := within
  have stood : Stands t a ∨ ∃ b, Epoch.Step K (fun _ _ _ _ => True) a b ∧ Stands t b :=
    stands.step team (fun _ _ _ _ _ _ _ => trivial) h
  rcases stood with stands' | ⟨b, st, stands'⟩
  · exact ⟨a, stands', inv⟩
  · exact ⟨b, stands', ind a b inv st⟩

variable (covers : B.Covers K) (admits : ∀ a, Inv a → B.Admits a)

include covers admits

/-- A run is no longer than what there is to do. -/
theorem Within.run (within : Within Inv s) (h : Lib.run (Team.step K) s as = some t) :
    Within Inv t ∧ as.length + B.total t ≤ B.total s := by
  refine @run_inv_of _ _ (Team.step K) s
    (fun as t => Within Inv t ∧ as.length + B.total t ≤ B.total s) as ⟨within, by simp⟩ ?_ t h
  rintro bs act - s' t' - ⟨⟨a, stands, inv⟩, le⟩ st
  have lt := stands.total_lt team covers (admits a inv) st
  refine ⟨Within.step team ind ⟨a, stands, inv⟩ st, ?_⟩
  rw [List.length_append, List.length_singleton]
  omega

/-- Some run comes to its end. -/
theorem Within.exists_ended (within : Within Inv s) :
    ∃ as t, Lib.run (Team.step K) s as = some t ∧ Within Inv t ∧ ∀ act : Action C n, ¬ Enabled t act := by
  refine Lib.exists_ended B.total ?_ within
  rintro s act ⟨a, stands, inv⟩ enabled
  obtain ⟨t, st⟩ := (stands.enabled_iff covers (admits a inv)).mp enabled
  exact ⟨t, st, Within.step team ind ⟨a, stands, inv⟩ st, stands.total_lt team covers (admits a inv) st⟩

end

end PromotionCache.Lib.Team
