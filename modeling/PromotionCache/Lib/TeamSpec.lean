import PromotionCache.Lib.Team
import Mathlib.Data.List.Nodup

/-!
# A team goes through epochs

Every step of a team is a step of the epochs, or none (`Stands.step`), so that every run of it is one of the
epochs (`run_epochs`). What is shown of the epochs, by their few steps, then holds of the team in any order
of its threads. Between the second barrier and the first one the team works on an epoch (`Working`); between
the first and the second one the thread 0 turns the worklists over (`Turning`).
-/

namespace PromotionCache.Lib.Team
variable {V M L C : Type*} {n : ℕ}

/-- The write that a thread is at: the vertex, and the index it has taken. -/
def Pc.writing : Pc V L → Option (V × ℕ)
  | .write _ _ v _ index => some (v, index)
  | _ => none

/-- What the thread has still to write. -/
def Pc.pending (pc : Pc V L) : Multiset V := pc.writing.elim 0 fun w => {w.1}

/-- A thread is where the epoch says. -/
def Place (a : Epoch V M L n) (tid : Fin n) : Pc V L → Prop
  | .head => a.jobs tid = .todo tid
  | .entry i => a.front ≠ [] ∧ a.jobs tid = .todo i
  | .fetch i => a.front ≠ [] ∧ a.jobs tid = .todo i ∧ i < a.front.length
  | .body i u l | .write i u _ l _ => a.front ≠ [] ∧ a.jobs tid = .busy i u l
  | .add i u v l => a.front ≠ [] ∧ a.jobs tid = .owes i u v l
  | .barrier1 => a.front ≠ [] ∧ ∃ i, a.jobs tid = .todo i ∧ a.front.length ≤ i
  | .done => a.front = [] ∧ a.jobs tid = .todo tid
  | .loadOut | .storeIn _ | .clearOut | .barrier2 => False

/-- A thread that works on an epoch. At the barrier it has gone over to the next one. -/
structure Fits (a : Epoch V M L n) (tid : Fin n) (th : Thread V L) : Prop where
  hop : th.hop = a.level + 1 + th.pc.atBarrier1.toNat
  side : th.side = (a.side ^^ th.pc.atBarrier1)
  place : Place a tid th.pc

/-- The team works on the epoch `a`. -/
structure Working (s : State V M L n) (a : Epoch V M L n) : Prop where
  mem : s.mem = a.mem
  inIndex : s.inIndex = a.front.length
  outIndex : s.outIndex = a.pushed.length
  loaded : ∀ i v, a.front[i]? = some v → s.wl a.side i = some v
  slotted : ∀ i v, a.pushed[i]? = some v →
    s.wl (!a.side) i = some v ∨ ∃ tid, (s.threads tid).pc.writing = some (v, i)
  writer : ∀ tid v i, (s.threads tid).pc.writing = some (v, i) → a.pushed[i]? = some v
  appended : ∑ tid, (s.threads tid).pc.pending + (s.appended : Multiset V) = (a.past ++ a.pushed : List V)
  fits : ∀ tid, Fits a tid (s.threads tid)

/-- A thread between the barriers; `length` is that of the next input. -/
structure Turns (a : Epoch V M L n) (inIndex outIndex : ℕ) (tid : Fin n) (th : Thread V L) : Prop where
  hop : th.hop = a.level + 2
  side : th.side = !a.side
  place :
    match th.pc with
    | .loadOut => tid.val = 0 ∧ outIndex = a.pushed.length
    | .storeIn value => tid.val = 0 ∧ value = a.pushed.length
    | .clearOut => tid.val = 0 ∧ inIndex = a.pushed.length
    | .barrier2 => tid.val = 0 → inIndex = a.pushed.length ∧ outIndex = 0
    | _ => False

/-- The epoch `a` is over, and the team turns to the next one. -/
structure Turning (s : State V M L n) (a : Epoch V M L n) : Prop where
  mem : s.mem = a.mem
  nonempty : a.front ≠ []
  finished : a.Over
  loaded : ∀ i v, a.pushed[i]? = some v → s.wl (!a.side) i = some v
  outIndex : s.outIndex ≤ a.pushed.length
  appended : (s.appended : Multiset V) = (a.past ++ a.pushed : List V)
  fits : ∀ tid, Turns a s.inIndex s.outIndex tid (s.threads tid)

/-- The team is in the epoch `a`. -/
def Stands (s : State V M L n) (a : Epoch V M L n) : Prop := Working s a ∨ Turning s a

section
variable {K : Kernel V M L C} {ok : Bool → M → V → L → Prop} {s t : State V M L n}
  {a b : Epoch V M L n} {tid x : Fin n} {th : Thread V L} {i : ℕ} {u v : V}
  {l : L} {c : C}

/-- A thread that is at no write has nothing to write. -/
lemma Pc.pending_of {pc : Pc V L} (h : pc.writing = none) : pc.pending = 0 := by
  rw [Pc.pending, h]
  rfl

/-- A thread fits every epoch that has the same entries and the same place for it. -/
lemma Fits.congr (fits : Fits a tid th) (level : b.level = a.level) (side : b.side = a.side)
    (front : b.front = a.front) (jobs : b.jobs tid = a.jobs tid) : Fits b tid th := by
  obtain ⟨hop, hside, place⟩ := fits
  have same : Place b tid th.pc = Place a tid th.pc := by
    cases th.pc <;> simp only [Place, front, jobs]
  exact ⟨level ▸ hop, side ▸ hside, same ▸ place⟩

/-- A step of one thread that is at no write before nor after. -/
lemma Working.moved (wk : Working s a) (job : Job V L) (m : M)
    (old : (s.threads tid).pc.writing = none)
    (new : th.pc.writing = none) (fits : Fits { a.setJob tid job with mem := m } tid th) :
    Working { s.setThread tid th with mem := m } { a.setJob tid job with mem := m } where
  mem := rfl
  inIndex := wk.inIndex
  outIndex := wk.outIndex
  loaded := wk.loaded
  slotted := by
    intro i v hv
    refine (wk.slotted i v hv).imp_right ?_
    rintro ⟨x, hx⟩
    have ne : x ≠ tid := by
      rintro rfl
      rw [old] at hx
      cases hx
    exact ⟨x, by simpa [State.setThread, ne] using hx⟩
  writer := by
    intro x v i hx
    rcases eq_or_ne x tid with rfl | ne
    · simp [State.setThread, new] at hx
    · exact wk.writer x v i (by simpa [State.setThread, ne] using hx)
  appended := by
    have sum := sum_update s.threads tid th fun th => th.pc.pending
    rw [Pc.pending_of old, Pc.pending_of new, add_zero, add_zero] at sum
    dsimp only [State.setThread, Epoch.setJob]
    rw [sum]
    exact wk.appended
  fits := by
    intro x
    rcases eq_or_ne x tid with rfl | ne
    · simpa [State.setThread] using fits
    · have old := (wk.fits x).congr (b := { a.setJob tid job with mem := m }) rfl rfl rfl
        (by simp [Epoch.setJob, ne])
      simpa [State.setThread, ne] using old

/-- A step that is none of the epoch. -/
lemma Working.stays (wk : Working s a) (old : (s.threads tid).pc.writing = none)
    (new : th.pc.writing = none) (fits : Fits a tid th) : Working (s.setThread tid th) a := by
  have same : ({ a.setJob tid (a.jobs tid) with mem := s.mem } : Epoch V M L n) = a := by
    rw [wk.mem]
    simp [Epoch.setJob]
  have moved := wk.moved (a.jobs tid) s.mem old new (same.symm ▸ fits)
  rw [same] at moved
  exact moved

/-- The fetch-and-add: from here on the vertex counts as appended. -/
lemma Working.add (wk : Working s a) (hpc : (s.threads tid).pc = .add i u v l) :
    Working { s.goto tid (.write i u v l s.outIndex) with outIndex := s.outIndex + 1 }
      { a.setJob tid (.busy i u l) with pushed := a.pushed ++ [v] } := by
  obtain ⟨hop, side, place⟩ := wk.fits tid
  rw [hpc] at hop side place
  have last : (a.pushed ++ [v])[s.outIndex]? = some v := by
    rw [wk.outIndex]
    exact List.getElem?_concat_length
  constructor
  case mem => exact wk.mem
  case inIndex => exact wk.inIndex
  case outIndex =>
    dsimp only
    rw [wk.outIndex, List.length_append, List.length_singleton]
  case loaded => exact wk.loaded
  case slotted =>
    intro j w hw
    dsimp only at hw
    rcases Nat.lt_trichotomy j a.pushed.length with lt | rfl | gt
    · rw [List.getElem?_append_left lt] at hw
      refine (wk.slotted j w hw).imp_right ?_
      rintro ⟨x, hx⟩
      have ne : x ≠ tid := by
        rintro rfl
        rw [hpc] at hx
        cases hx
      exact ⟨x, by simpa [State.goto, State.setThread, ne] using hx⟩
    · rw [← wk.outIndex, last] at hw
      cases hw
      exact .inr ⟨tid, by simp [State.goto, State.setThread, Pc.writing, wk.outIndex]⟩
    · have beyond : (a.pushed ++ [v]).length ≤ j := by
        rw [List.length_append, List.length_singleton]
        exact gt
      rw [List.getElem?_eq_none beyond] at hw
      cases hw
  case writer =>
    intro x w j hx
    rcases eq_or_ne x tid with rfl | ne
    · simp only [State.goto, State.setThread, Function.update_self, Pc.writing,
        Option.some.injEq, Prod.mk.injEq] at hx
      obtain ⟨rfl, rfl⟩ := hx
      exact last
    · have old := wk.writer x w j (by simpa [State.goto, State.setThread, ne] using hx)
      have lt := (List.getElem?_eq_some_iff.mp old).1
      dsimp only
      rw [List.getElem?_append_left lt, old]
  case appended =>
    have sum := sum_update s.threads tid { s.threads tid with pc := .write i u v l s.outIndex }
      fun th => th.pc.pending
    have none : (s.threads tid).pc.pending = 0 := Pc.pending_of (by rw [hpc]; rfl)
    have one : (Pc.write i u v l s.outIndex).pending = {v} := rfl
    rw [none, add_zero, one] at sum
    dsimp only [State.goto, State.setThread, Epoch.setJob]
    rw [sum, add_right_comm, wk.appended, ← List.append_assoc, ← Multiset.coe_add _ [v],
      Multiset.coe_singleton]
  case fits =>
    intro x
    rcases eq_or_ne x tid with rfl | ne
    · refine ⟨?_, ?_, ?_⟩
      · simpa [State.goto, State.setThread, Pc.atBarrier1, Epoch.setJob] using hop
      · simpa [State.goto, State.setThread, Pc.atBarrier1, Epoch.setJob] using side
      · simpa [State.goto, State.setThread, Place, Epoch.setJob] using place.1
    · have old := (wk.fits x).congr
        (b := { a.setJob tid (.busy i u l) with pushed := a.pushed ++ [v] }) rfl rfl rfl
        (by simp [Epoch.setJob, ne])
      simpa [State.goto, State.setThread, ne] using old

/-- The write to the slot that was taken. -/
lemma Working.write {index : ℕ} (wk : Working s a)
    (hpc : (s.threads tid).pc = .write i u v l index) :
    Working
      { s.goto tid (.body i u l) with
        wl := Function.update s.wl (!(s.threads tid).side)
          (Function.update (s.wl (!(s.threads tid).side)) index (some v))
        appended := s.appended ++ [v] } a := by
  obtain ⟨hop, side, place⟩ := wk.fits tid
  rw [hpc] at hop side place
  simp only [Pc.atBarrier1, Bool.xor_false] at side
  have slot := wk.writer tid v index (by rw [hpc]; rfl)
  rw [side]
  constructor
  case mem => exact wk.mem
  case inIndex => exact wk.inIndex
  case outIndex => exact wk.outIndex
  case loaded =>
    intro j w hw
    dsimp only
    rw [Function.update_of_ne (by simp)]
    exact wk.loaded j w hw
  case slotted =>
    intro j w hw
    dsimp only
    rw [Function.update_self]
    rcases eq_or_ne j index with rfl | ne
    · rw [slot] at hw
      cases hw
      exact .inl (Function.update_self ..)
    · rw [Function.update_of_ne ne]
      refine (wk.slotted j w hw).imp_right ?_
      rintro ⟨x, hx⟩
      have other : x ≠ tid := by
        rintro rfl
        rw [hpc] at hx
        cases hx
        exact ne rfl
      exact ⟨x, by simpa [State.goto, State.setThread, other] using hx⟩
  case writer =>
    intro x w j hx
    rcases eq_or_ne x tid with rfl | ne
    · simp [State.goto, State.setThread, Pc.writing] at hx
    · exact wk.writer x w j (by simpa [State.goto, State.setThread, ne] using hx)
  case appended =>
    have sum := sum_update s.threads tid { s.threads tid with pc := .body i u l } fun th => th.pc.pending
    have one : (s.threads tid).pc.pending = {v} := by
      rw [hpc]
      rfl
    have none : (Pc.body i u l).pending = 0 := rfl
    rw [one, none, add_zero] at sum
    dsimp only [State.goto, State.setThread]
    rw [← Multiset.coe_add, Multiset.coe_singleton, ← add_assoc, add_right_comm, sum]
    exact wk.appended
  case fits =>
    intro x
    rcases eq_or_ne x tid with rfl | ne
    · refine ⟨?_, ?_, ?_⟩
      · simpa [State.goto, State.setThread, Pc.atBarrier1] using hop
      · simpa [State.goto, State.setThread, Pc.atBarrier1] using side
      · simpa [State.goto, State.setThread, Place] using place
    · simpa [State.goto, State.setThread, ne] using wk.fits x

/-- A step of a thread that works. -/
lemma Working.step (wk : Working s a)
    (good : ∀ i u l, (s.threads tid).pc = .body i u l → ok (s.threads tid).side s.mem u l)
    (h : threadStep K s tid c = some t) :
    Working t a ∨ ∃ b, Epoch.Step K ok a b ∧ Working t b := by
  obtain ⟨hop, side, place⟩ := wk.fits tid
  cases hpc : (s.threads tid).pc with
  | head =>
    rw [hpc] at hop side place
    simp only [threadStep, hpc, Option.some.injEq] at h
    subst h
    left
    by_cases more : 0 < s.inIndex
    · rw [if_pos more]
      have ne : a.front ≠ [] := by
        rintro eq
        rw [wk.inIndex, eq] at more
        exact Nat.lt_irrefl 0 more
      exact wk.stays (by rw [hpc]; rfl) rfl ⟨hop, side, ne, place⟩
    · rw [if_neg more]
      have eq : a.front = [] := by
        rw [wk.inIndex, List.length_pos_iff, not_not] at more
        exact more
      exact wk.stays (by rw [hpc]; rfl) rfl ⟨hop, side, eq, place⟩
  | entry i =>
    rw [hpc] at hop side place
    simp only [threadStep, hpc] at h
    left
    split at h
    case isTrue more =>
      cases h
      rw [wk.inIndex] at more
      exact wk.stays (by rw [hpc]; rfl) rfl ⟨hop, side, place.1, place.2, more⟩
    case isFalse last =>
      rw [Option.ite_none_right_eq_some, Option.some.injEq] at h
      obtain ⟨-, rfl⟩ := h
      rw [wk.inIndex, Nat.not_lt] at last
      refine wk.stays (by rw [hpc]; rfl) rfl ⟨?_, ?_, place.1, i, place.2, last⟩
      · exact congrArg (· + 1) hop
      · rw [side]
        simp [Pc.atBarrier1]
  | fetch i =>
    rw [hpc] at hop side place
    simp only [threadStep, hpc, Option.map_eq_some_iff] at h
    obtain ⟨u, load, rfl⟩ := h
    obtain ⟨ne, todo, lt⟩ := place
    have input : (s.threads tid).side = a.side := by simpa [Pc.atBarrier1] using side
    have entry : a.front[i]? = some u := by
      have node := List.getElem?_eq_getElem lt
      rw [node, ← load, input]
      exact (wk.loaded i _ node).symm
    have same : ({ a.setJob tid (.busy i u (K.start u)) with mem := s.mem } : Epoch V M L n) =
        a.setJob tid (.busy i u (K.start u)) := by
      rw [wk.mem]
      rfl
    have moved : Working (s.goto tid (.body i u (K.start u)))
        { a.setJob tid (.busy i u (K.start u)) with mem := s.mem } :=
      wk.moved _ _ (by rw [hpc]; rfl) rfl ⟨hop, side, ne, Function.update_self ..⟩
    rw [same] at moved
    exact .inr ⟨_, .start todo entry, moved⟩
  | body i u l =>
    have allowed := good i u l hpc
    rw [hpc] at hop side place
    simp only [threadStep, hpc, Option.map_eq_some_iff] at h
    obtain ⟨⟨m, next⟩, st, rfl⟩ := h
    obtain ⟨ne, busy⟩ := place
    have input : (s.threads tid).side = a.side := by simpa [Pc.atBarrier1] using side
    have epoch : (s.threads tid).hop = a.level + 1 := hop
    rw [epoch] at st
    rw [input, wk.mem] at st allowed
    right
    refine ⟨_, .body busy allowed st, ?_⟩
    cases next with
    | go l' =>
      exact wk.moved _ _ (by rw [hpc]; rfl) rfl ⟨hop, side, ne, Function.update_self ..⟩
    | push v l' =>
      exact wk.moved _ _ (by rw [hpc]; rfl) rfl ⟨hop, side, ne, Function.update_self ..⟩
    | finish =>
      exact wk.moved _ _ (by rw [hpc]; rfl) rfl ⟨hop, side, ne, Function.update_self ..⟩
  | add i u v l =>
    rw [hpc] at place
    simp only [threadStep, hpc, Option.some.injEq] at h
    subst h
    exact .inr ⟨_, .push place.2, wk.add hpc⟩
  | write i u v l index =>
    simp only [threadStep, hpc, Option.ite_none_right_eq_some, Option.some.injEq] at h
    obtain ⟨-, rfl⟩ := h
    exact .inl (wk.write hpc)
  | barrier1 => simp [threadStep, hpc] at h
  | barrier2 => simp [threadStep, hpc] at h
  | done => simp [threadStep, hpc] at h
  | loadOut =>
    rw [hpc] at place
    exact place.elim
  | storeIn value =>
    rw [hpc] at place
    exact place.elim
  | clearOut =>
    rw [hpc] at place
    exact place.elim

/-- The threads other than 0 wait, whatever it does. -/
lemma Turns.of_ne {inIndex outIndex inIndex' outIndex' : ℕ} (turns : Turns a inIndex outIndex tid th)
    (ne : tid.val ≠ 0) : Turns a inIndex' outIndex' tid th := by
  obtain ⟨pc, hop, side⟩ := th
  obtain ⟨hop, side, place⟩ := turns
  refine ⟨hop, side, ?_⟩
  cases pc with
  | loadOut => exact absurd place.1 ne
  | storeIn value => exact absurd place.1 ne
  | clearOut => exact absurd place.1 ne
  | barrier2 => exact fun zero => absurd zero ne
  | _ => exact place.elim

/-- A step of the thread 0. -/
lemma Turning.moved (tn : Turning s a) (zero : tid.val = 0)
    (threads : t.threads = Function.update s.threads tid th)
    (fits : Turns a t.inIndex t.outIndex tid th) (mem : t.mem = s.mem) (wl : t.wl = s.wl)
    (appended : t.appended = s.appended) (outIndex : t.outIndex ≤ s.outIndex) : Turning t a where
  mem := mem.trans tn.mem
  nonempty := tn.nonempty
  finished := tn.finished
  loaded := wl ▸ tn.loaded
  outIndex := Nat.le_trans outIndex tn.outIndex
  appended := (congrArg _ appended).trans tn.appended
  fits := by
    intro x
    rcases eq_or_ne x tid with rfl | ne
    · rw [threads, Function.update_self]
      exact fits
    · rw [threads, Function.update_of_ne ne]
      refine (tn.fits x).of_ne fun h => ne (Fin.ext ?_)
      rw [h, zero]

/-- A step of a thread between the barriers is none of the epochs. -/
lemma Turning.step (tn : Turning s a) (h : threadStep K s tid c = some t) : Turning t a := by
  obtain ⟨hop, side, place⟩ := tn.fits tid
  cases hpc : (s.threads tid).pc with
  | loadOut =>
    rw [hpc] at place
    simp only [threadStep, hpc, Option.some.injEq] at h
    subst h
    exact tn.moved place.1 rfl ⟨hop, side, place⟩ rfl rfl rfl (Nat.le_refl _)
  | storeIn value =>
    rw [hpc] at place
    simp only [threadStep, hpc, Option.some.injEq] at h
    subst h
    exact tn.moved place.1 rfl ⟨hop, side, place⟩ rfl rfl rfl (Nat.le_refl _)
  | clearOut =>
    rw [hpc] at place
    simp only [threadStep, hpc, Option.some.injEq] at h
    subst h
    exact tn.moved place.1 rfl ⟨hop, side, fun _ => ⟨place.2, rfl⟩⟩ rfl rfl rfl (Nat.zero_le _)
  | barrier2 => simp [threadStep, hpc] at h
  | _ =>
    rw [hpc] at place
    exact place.elim

/-- Only one place is at the first barrier. -/
lemma atBarrier1_eq {pc : Pc V L} (h : pc.atBarrier1 = true) : pc = .barrier1 := by
  cases pc <;> first | rfl | cases h

/-- Only one place is at the second barrier. -/
lemma atBarrier2_eq {pc : Pc V L} (h : pc.atBarrier2 = true) : pc = .barrier2 := by
  cases pc <;> first | rfl | cases h

/-- Where no thread is at a write, what the epochs have appended is written. -/
lemma Working.written (wk : Working s a) (none : ∀ tid, (s.threads tid).pc.writing = none) :
    (s.appended : Multiset V) = (a.past ++ a.pushed : List V) := by
  have sum : ∑ tid, (s.threads tid).pc.pending = 0 := Finset.sum_eq_zero fun tid _ => Pc.pending_of (none tid)
  rw [← wk.appended, sum, zero_add]

/-- With all threads at the first barrier the entries are done, and what was appended is written. -/
lemma Working.at_barrier1 (wk : Working s a) (all : AllAtBarrier1 s) :
    a.Over ∧ (∀ i v, a.pushed[i]? = some v → s.wl (!a.side) i = some v) ∧
      ∀ tid, a.front ≠ [] ∧ (s.threads tid).hop = a.level + 2 ∧ (s.threads tid).side = !a.side := by
  refine ⟨?_, ?_, ?_⟩
  · intro tid
    have place := (wk.fits tid).place
    rw [atBarrier1_eq (all tid)] at place
    exact place.2
  · intro i v hv
    refine (wk.slotted i v hv).resolve_right ?_
    rintro ⟨tid, h⟩
    rw [atBarrier1_eq (all tid)] at h
    cases h
  · intro tid
    obtain ⟨hop, side, place⟩ := wk.fits tid
    rw [atBarrier1_eq (all tid)] at hop side place
    exact ⟨place.1, hop, by simpa [Pc.atBarrier1] using side⟩

/-- Past the first barrier the thread 0 turns the worklists over. -/
lemma Working.release (wk : Working s a) (team : 0 < n) (all : AllAtBarrier1 s) :
    Turning { s with threads := fun tid => afterBarrier1 tid (s.threads tid) } a := by
  obtain ⟨finished, loaded, fits⟩ := wk.at_barrier1 all
  constructor
  case mem => exact wk.mem
  case nonempty => exact (fits ⟨0, team⟩).1
  case finished => exact finished
  case loaded => exact loaded
  case outIndex => exact Nat.le_of_eq wk.outIndex
  case appended => exact wk.written fun tid => by rw [atBarrier1_eq (all tid)]; rfl
  case fits =>
    intro tid
    obtain ⟨-, hop, side⟩ := fits tid
    dsimp only
    by_cases zero : tid.val = 0
    · have place : afterBarrier1 tid (s.threads tid) = { s.threads tid with pc := .loadOut } := by
        rw [afterBarrier1, if_pos zero]
      rw [place]
      exact ⟨hop, side, zero, wk.outIndex⟩
    · have place : afterBarrier1 tid (s.threads tid) = { s.threads tid with pc := .barrier2 } := by
        rw [afterBarrier1, if_neg zero]
      rw [place]
      exact ⟨hop, side, fun h => absurd h zero⟩

/-- With all threads at the second barrier the output is the input. -/
lemma Turning.release (tn : Turning s a) (team : 0 < n) (all : AllAtBarrier2 s) :
    Working { s with threads := fun tid => { s.threads tid with pc := .head } } a.next := by
  have fits : ∀ tid, (s.threads tid).hop = a.level + 2 ∧ ((s.threads tid).side = !a.side) ∧
      (tid.val = 0 → s.inIndex = a.pushed.length ∧ s.outIndex = 0) := by
    intro tid
    obtain ⟨hop, side, place⟩ := tn.fits tid
    rw [atBarrier2_eq (all tid)] at place
    exact ⟨hop, side, place⟩
  have indices := (fits ⟨0, team⟩).2.2 rfl
  constructor
  case mem => exact tn.mem
  case inIndex => exact indices.1
  case outIndex => exact indices.2
  case loaded => exact tn.loaded
  case slotted => simp [Epoch.next]
  case writer =>
    intro tid v i h
    cases h
  case appended =>
    have none : ∑ tid : Fin n, (Pc.head : Pc V L).pending = 0 := Finset.sum_eq_zero fun _ _ => rfl
    dsimp only [Epoch.next]
    rw [none, zero_add, List.append_nil]
    exact tn.appended
  case fits =>
    intro tid
    obtain ⟨hop, side, -⟩ := fits tid
    exact ⟨hop, by simpa [Epoch.next, Pc.atBarrier1] using side, rfl⟩

/-- Every step of the team is a step of the epochs, or none. -/
theorem Stands.step {act : Action C n} (stands : Stands s a) (team : 0 < n)
    (good : ∀ tid c i u l, act = .thread tid c → (s.threads tid).pc = .body i u l →
      ok (s.threads tid).side s.mem u l)
    (h : step K s act = some t) : Stands t a ∨ ∃ b, Epoch.Step K ok a b ∧ Stands t b := by
  cases act with
  | thread tid c =>
    rcases stands with wk | tn
    · rcases wk.step (good tid c · · · rfl) h with wk' | ⟨b, st, wk'⟩
      · exact .inl (.inl wk')
      · exact .inr ⟨b, st, .inl wk'⟩
    · exact .inl (.inr (tn.step h))
  | release =>
    rw [Team.step] at h
    rcases stands with wk | tn
    · by_cases all : AllAtBarrier1 s
      · rw [if_pos all] at h
        cases h
        exact .inl (.inr (wk.release team all))
      · rw [if_neg all, Option.ite_none_right_eq_some] at h
        have place := (wk.fits ⟨0, team⟩).place
        rw [atBarrier2_eq (h.1 ⟨0, team⟩)] at place
        exact place.elim
    · have no : ¬ AllAtBarrier1 s := by
        intro all
        have place := (tn.fits ⟨0, team⟩).place
        rw [atBarrier1_eq (all ⟨0, team⟩)] at place
        exact place
      rw [if_neg no, Option.ite_none_right_eq_some, Option.some.injEq] at h
      obtain ⟨all, rfl⟩ := h
      exact .inr ⟨_, .turn tn.nonempty tn.finished, .inl (tn.release team all)⟩

/-- A team starts in the first epoch. -/
lemma start_stands (mem : M) (front : List V) :
    Stands (State.start mem front : State V M L n) (.start mem front) := by
  left
  constructor
  case mem => rfl
  case inIndex => rfl
  case outIndex => rfl
  case loaded =>
    intro i v hv
    simpa [State.start, Epoch.start] using hv
  case slotted => simp [Epoch.start]
  case writer =>
    intro tid v i h
    cases h
  case appended =>
    have none : ∑ tid : Fin n, (Pc.head : Pc V L).pending = 0 := Finset.sum_eq_zero fun _ _ => rfl
    exact (congrArg (· + _) none).trans (zero_add _)
  case fits => exact fun tid => ⟨rfl, rfl, rfl⟩

end

/-- Every step of the run that is one of a body is taken where `ok` holds. -/
def Along (K : Kernel V M L C) (ok : Bool → M → V → L → Prop) (s₀ : State V M L n)
    (as : List (Action C n)) : Prop :=
  ∀ bs tid c s, bs ++ [.thread tid c] <+: as → run (step K) s₀ bs = some s →
    ∀ i u l, (s.threads tid).pc = .body i u l → ok (s.threads tid).side s.mem u l

section
variable {K : Kernel V M L C} {ok : Bool → M → V → L → Prop} {s₀ s : State V M L n}
  {a₀ a b : Epoch V M L n} {as : List (Action C n)}

/-- Every run of the team is a run of the epochs. -/
theorem run_epochs (team : 0 < n) (stands : Stands s₀ a₀) (along : Along K ok s₀ as)
    (h : run (step K) s₀ as = some s) :
    ∃ a, Stands s a ∧ Relation.ReflTransGen (Epoch.Step K ok) a₀ a := by
  refine @run_inv_of _ _ (step K) s₀
    (fun _ s => ∃ a, Stands s a ∧ Relation.ReflTransGen (Epoch.Step K ok) a₀ a) as
    ⟨a₀, stands, .refl⟩ ?_ s h
  rintro bs act pre s t hbs ⟨a, stands, steps⟩ st
  have good : ∀ tid c i u l, act = .thread tid c → (s.threads tid).pc = .body i u l →
      ok (s.threads tid).side s.mem u l := by
    rintro tid c i u l rfl
    exact along bs tid c s pre hbs i u l
  rcases stands.step team good st with stands' | ⟨b, stB, stands'⟩
  · exact ⟨a, stands', steps⟩
  · exact ⟨b, stands', steps.tail stB⟩

/-- What the steps of the epochs keep. -/
theorem inv_of_steps {Inv : Epoch V M L n → Prop} (base : Inv a₀)
    (ind : ∀ a b, Inv a → Epoch.Step K ok a b → Inv b)
    (steps : Relation.ReflTransGen (Epoch.Step K ok) a₀ a) : Inv a := by
  induction steps with
  | refl => exact base
  | tail _ st ih => exact ind _ _ ih st

/-- A step of a body is one where `ok` holds. -/
def allowed (ok : Bool → M → V → L → Bool) (s : State V M L n) : Action C n → Bool
  | .release => true
  | .thread tid _ =>
    match (s.threads tid).pc with
    | .body _ u l => ok (s.threads tid).side s.mem u l
    | _ => true

/-- `Along`, step by step. -/
def alongCheck (K : Kernel V M L C) (ok : Bool → M → V → L → Bool) :
    State V M L n → List (Action C n) → Bool
  | _, [] => true
  | s, act :: as => allowed ok s act && (step K s act).all fun t => alongCheck K ok t as

/-- What the check finds of a run holds along it. -/
lemma along_of_check {check : Bool → M → V → L → Bool}
    (sound : ∀ b m u l, check b m u l = true → ok b m u l)
    (h : alongCheck K check s₀ as = true) : Along K ok s₀ as := by
  induction as generalizing s₀ with
  | nil =>
    intro bs tid c s pre
    have len := pre.length_le
    rw [List.length_append, List.length_singleton, List.length_nil] at len
    omega
  | cons act as ih =>
    rw [alongCheck, Bool.and_eq_true] at h
    obtain ⟨here, rest⟩ := h
    intro bs tid c s pre hs i u l hpc
    cases bs with
    | nil =>
      cases hs
      obtain ⟨rfl, -⟩ := List.cons_prefix_cons.mp pre
      simp only [allowed, hpc] at here
      exact sound _ _ _ _ here
    | cons act' bs =>
      obtain ⟨rfl, shorter⟩ := List.cons_prefix_cons.mp pre
      obtain ⟨t, st, run⟩ := Option.bind_eq_some_iff.mp hs
      rw [st, Option.all_some] at rest
      exact ih rest bs tid c s shorter run i u l hpc

/-- No condition holds along every run. -/
lemma along_true : Along K (fun _ _ _ _ => True) s₀ as := fun _ _ _ _ _ _ _ _ _ _ => trivial

/-- The team has returned: the input is empty, and what the epochs have appended is written. -/
lemma Stands.of_returned (stands : Stands s a) (team : 0 < n) (returned : Returned s) :
    s.mem = a.mem ∧ a.front = [] ∧ (s.appended : Multiset V) = (a.past ++ a.pushed : List V) := by
  rcases stands with wk | tn
  · have place := (wk.fits ⟨0, team⟩).place
    rw [returned ⟨0, team⟩] at place
    exact ⟨wk.mem, place.1, wk.written fun tid => by rw [returned tid]; rfl⟩
  · have place := (tn.fits ⟨0, team⟩).place
    rw [returned ⟨0, team⟩] at place
    exact place.elim

/-- Only an epoch that is worked on has threads at the first barrier. -/
lemma Stands.working (stands : Stands s a) (team : 0 < n) (all : AllAtBarrier1 s) : Working s a := by
  refine stands.resolve_right fun tn => ?_
  have place := (tn.fits ⟨0, team⟩).place
  rw [atBarrier1_eq (all ⟨0, team⟩)] at place
  exact place

/-- The index of the output is at most what has been appended. -/
lemma Stands.outIndex_le (stands : Stands s a) : s.outIndex ≤ a.pushed.length := by
  rcases stands with wk | tn
  · exact Nat.le_of_eq wk.outIndex
  · exact tn.outIndex

/-- The input stays while the epoch does. -/
lemma front_of_level (steps : Relation.ReflTransGen (Epoch.Step K ok) a b) :
    a.level ≤ b.level ∧ (b.level = a.level → b.front = a.front) := by
  induction steps with
  | refl => exact ⟨Nat.le_refl _, fun _ => rfl⟩
  | tail _ st ih =>
    cases st with
    | turn _ _ =>
      refine ⟨Nat.le_succ_of_le ih.1, fun eq => ?_⟩
      dsimp only [Epoch.next] at eq
      omega
    | _ => exact ih

end

/-- The index that the loop is at. -/
def Job.index : Job V L → ℕ
  | .todo i | .busy i _ _ | .owes i _ _ _ => i

/-- The entry whose body the thread is in. -/
def Job.entry : Job V L → Option (ℕ × V)
  | .todo _ => none
  | .busy i u _ | .owes i u _ _ => some (i, u)

/-- The threads are at entries of their own, and with no input there is no output. -/
structure Epoch.Placed (a : Epoch V M L n) : Prop where
  mine : ∀ tid, (a.jobs tid).index % n = tid
  entry : ∀ tid i u, (a.jobs tid).entry = some (i, u) → a.front[i]? = some u
  idle : a.front = [] → a.pushed = []

section
variable {K : Kernel V M L C} {ok : Bool → M → V → L → Prop} {a b : Epoch V M L n} {tid : Fin n}
  {i j : ℕ} {u : V}

/-- Past the entry `i` of a thread the next one is `n` on. -/
lemma next_entry (mine : i % n = j % n) (lt : i < j) : i + n ≤ j := by
  have zero := Nat.sub_mod_eq_zero_of_mod_eq mine.symm
  by_contra less
  rw [Nat.mod_eq_of_lt (by omega)] at zero
  omega

/-- A thread in a body is in that of an entry of the epoch. -/
lemma Stands.node {s : State V M L n} (stands : Stands s a)
    (h : (s.threads tid).pc.node = some u) :
    ∃ i, (a.jobs tid).entry = some (i, u) ∧ (s.threads tid).hop = a.level + 1 := by
  rcases stands with wk | tn
  · obtain ⟨hop, -, place⟩ := wk.fits tid
    cases hpc : (s.threads tid).pc with
    | body i u' l =>
      rw [hpc] at hop place h
      cases h
      exact ⟨i, by rw [place.2]; rfl, hop⟩
    | add i u' v l =>
      rw [hpc] at hop place h
      cases h
      exact ⟨i, by rw [place.2]; rfl, hop⟩
    | write i u' v l index =>
      rw [hpc] at hop place h
      cases h
      exact ⟨i, by rw [place.2]; rfl, hop⟩
    | _ =>
      rw [hpc] at h
      cases h
  · have place := (tn.fits tid).place
    cases hpc : (s.threads tid).pc with
    | body i u' l =>
      rw [hpc] at place
      exact place.elim
    | add i u' v l =>
      rw [hpc] at place
      exact place.elim
    | write i u' v l index =>
      rw [hpc] at place
      exact place.elim
    | _ =>
      rw [hpc] at h
      cases h

/-- If the input holds no vertex twice, no two threads are in the body for the same vertex in one epoch, at
    whatever times. -/
lemma node_unique {s t : State V M L n} {x : Fin n} (placedA : a.Placed) (placedB : b.Placed)
    (standsA : Stands s a) (standsB : Stands t b)
    (steps : Relation.ReflTransGen (Epoch.Step K ok) a b) (nodup : a.front.Nodup)
    (inA : (s.threads tid).pc.node = some u) (inB : (t.threads x).pc.node = some u)
    (epoch : (s.threads tid).hop = (t.threads x).hop) : tid = x := by
  obtain ⟨i, entryA, hopA⟩ := standsA.node inA
  obtain ⟨j, entryB, hopB⟩ := standsB.node inB
  have front := (front_of_level steps).2 (by omega)
  have hi := placedA.entry tid i u entryA
  have hj := placedB.entry x j u entryB
  rw [front] at hj
  obtain ⟨lt, atI⟩ := List.getElem?_eq_some_iff.mp hi
  obtain ⟨lt', atJ⟩ := List.getElem?_eq_some_iff.mp hj
  obtain rfl : i = j := (List.Nodup.getElem_inj_iff nodup).mp (atI.trans atJ.symm)
  have mineA := placedA.mine tid
  have mineB := placedB.mine x
  have index : (a.jobs tid).index = i := by
    cases h : a.jobs tid <;> rw [h] at entryA <;> cases entryA <;> rfl
  have index' : (b.jobs x).index = i := by
    cases h : b.jobs x <;> rw [h] at entryB <;> cases entryB <;> rfl
  rw [index] at mineA
  rw [index'] at mineB
  exact Fin.ext (mineA.symm.trans mineB)

/-- The threads of the first epoch are at entries of their own. -/
lemma start_placed (mem : M) (front : List V) : (Epoch.start mem front : Epoch V M L n).Placed where
  mine := fun tid => Nat.mod_eq_of_lt tid.isLt
  entry := by
    intro tid i u h
    cases h
  idle := fun _ => rfl

/-- One thread goes on to an entry of its own. -/
lemma Epoch.Placed.setJob (placed : a.Placed) (job : Job V L) (m : M) (mine : job.index % n = tid)
    (entry : ∀ i u, job.entry = some (i, u) → a.front[i]? = some u) :
    ({ a.setJob tid job with mem := m } : Epoch V M L n).Placed where
  mine := by
    intro x
    rcases eq_or_ne x tid with rfl | ne
    · simpa [Epoch.setJob] using mine
    · simpa [Epoch.setJob, ne] using placed.mine x
  entry := by
    intro x i u h
    rcases eq_or_ne x tid with rfl | ne
    · exact entry i u (by simpa [Epoch.setJob] using h)
    · exact placed.entry x i u (by simpa [Epoch.setJob, ne] using h)
  idle := placed.idle

/-- Every step keeps the threads at entries of their own. -/
lemma Epoch.Placed.step (placed : a.Placed) (st : Epoch.Step K ok a b) : b.Placed := by
  cases st with
  | @start tid i u todo front =>
    have mine := placed.mine tid
    rw [todo] at mine
    refine placed.setJob _ a.mem mine ?_
    rintro i u ⟨⟩
    exact front
  | @body tid i u l c m next busy _ _ =>
    have mine := placed.mine tid
    have entry := placed.entry tid i u (by rw [busy]; rfl)
    rw [busy] at mine
    cases next with
    | go l' =>
      refine placed.setJob _ m mine ?_
      rintro i u ⟨⟩
      exact entry
    | push v l' =>
      refine placed.setJob _ m mine ?_
      rintro i u ⟨⟩
      exact entry
    | finish =>
      refine placed.setJob _ m ?_ ?_
      · exact (Nat.add_mod_right i n).trans mine
      · rintro i u ⟨⟩
  | @push tid i u v l owes =>
    have mine := placed.mine tid
    have entry := placed.entry tid i u (by rw [owes]; rfl)
    rw [owes] at mine
    have moved := placed.setJob (.busy i u l) a.mem mine (by
      rintro i u ⟨⟩
      exact entry)
    refine ⟨moved.mine, moved.entry, ?_⟩
    intro none
    dsimp only [Epoch.setJob] at none
    rw [none] at entry
    cases entry
  | turn ne _ =>
    refine ⟨fun tid => Nat.mod_eq_of_lt tid.isLt, ?_, fun _ => rfl⟩
    intro tid i u h
    cases h

end

end PromotionCache.Lib.Team
