import PromotionCache.Apps.Sssp
import PromotionCache.Lib.TeamSpec

/-!
# Parallel shortest paths

`init_sssp`, `fetch_min` and `sssp` of `launch/parallel/sssp/sssp.h`, run by a team of threads in any order
of their loads, stores and compare-and-swaps; a weak compare-and-swap may fail for no reason. The
worklists have no bound. The load for `curr_dist`, which nothing uses, is left out.

A thread may work with a distance of its vertex that is out of date. Then some other thread has lowered it
since, and appends the vertex: an edge that is not relaxed has its source appended, or about to be, or its
turn in this epoch is still to come (`Pending`).
-/

namespace PromotionCache.Apps.ParallelSssp
open Lib Lib.Team PromotionCache.Graph
variable {G : CsrGraph} {n : ℕ}

/-- Where a thread is in the loop over the edges of `node`; `es` are the edges that are left after `e`. -/
inductive Local (G : CsrGraph) where
  /-- at the loop, and at the load of `ret[node]` if there is an edge left -/
  | edges (es : List (Fin G.edges))
  /-- at `value = *addr` in `fetch_min` -/
  | load (e : Fin G.edges) (es : List (Fin G.edges)) (toMin : ℕ)
  /-- at `to_min < value`, and at the compare-and-swap where that holds -/
  | swap (e : Fin G.edges) (es : List (Fin G.edges)) (toMin value : ℕ)
  deriving DecidableEq

/-- A step in the loop over the edges. A compare-and-swap that fails loads the value anew. -/
def bodyStep (spurious : Bool) (_ : Bool) (ret : Fin G.nodes → ℕ) (node : Fin G.nodes) :
    Local G → Option ((Fin G.nodes → ℕ) × Next (Fin G.nodes) (Local G))
  | .edges [] => some (ret, .finish)
  | .edges (e :: es) => some (ret, .go (.load e es (ulong (ret node + G.edgeValues e))))
  | .load e es toMin => some (ret, .go (.swap e es toMin (ret (G.edgeArray e))))
  | .swap e es toMin value =>
    let addr := G.edgeArray e
    if toMin < value then
      if ret addr = value ∧ spurious = false then
        some (Function.update ret addr toMin, .push addr (.edges es))
      else some (ret, .go (.swap e es toMin (ret addr)))
    else some (ret, .go (.edges es))

/-- `sssp`; `hop` is an `int`. -/
def sssp (G : CsrGraph) : Kernel (Fin G.nodes) (Fin G.nodes → ℕ) (Local G) Bool where
  start := fun node => .edges (G.edgesOf node)
  step := fun spurious b _ => bodyStep spurious b
  capacity := none
  bound := intBound

/-- `init_sssp`, before the team starts; the size of the worklists is an `int`. -/
def initSssp (G : CsrGraph) (n : ℕ) (startSeed : Fin G.nodes) :
    Option (State (Fin G.nodes) (Fin G.nodes → ℕ) (Local G) n) :=
  if G.nodes * 5 < intBound then
    some (.start (Function.update (fun _ => weightMax) startSeed 0) [startSeed])
  else none

/-- The distances are weights of walks, but for `WEIGHT_MAX`. -/
structure Sound (seed : Fin G.nodes) (ret : Fin G.nodes → ℕ) : Prop where
  le : ∀ v, ret v ≤ weightMax
  source : ret seed = 0
  walk : ∀ v, ret v < weightMax → ∃ k, Walk G.Edge seed k (ret v) v

/-- A thread with edges of `u` left, that has the weight of a walk in its hand, or one from `WEIGHT_MAX` on,
    and a value of `ret` that was there once. -/
def Carries (seed : Fin G.nodes) (ret : Fin G.nodes → ℕ) (u : Fin G.nodes) : Local G → Prop
  | .edges es => ∀ e ∈ es, e ∈ G.edgesOf u
  | .load e es toMin =>
    (∀ e' ∈ e :: es, e' ∈ G.edgesOf u) ∧
      (toMin < weightMax → ∃ k, Walk G.Edge seed k toMin (G.edgeArray e))
  | .swap e es toMin value =>
    (∀ e' ∈ e :: es, e' ∈ G.edgesOf u) ∧
      (toMin < weightMax → ∃ k, Walk G.Edge seed k toMin (G.edgeArray e)) ∧
      ret (G.edgeArray e) ≤ value

/-- A thread at the entry `u` still has the edge `e` before it, or has it in hand with a distance of `u`
    that is not out of date. -/
def Left (ret : Fin G.nodes → ℕ) (u : Fin G.nodes) (e : Fin G.edges) : Local G → Prop
  | .edges es => e ∈ es
  | .load e' es toMin | .swap e' es toMin _ => e ∈ es ∨ e' = e ∧ toMin ≤ ret u + G.edgeValues e

/-- A thread has the edge `e` of the entry `j`, which is `u`, still before it. -/
def Ahead (ret : Fin G.nodes → ℕ) (u : Fin G.nodes) (e : Fin G.edges) (j : ℕ) :
    Job (Fin G.nodes) (Local G) → Prop
  | .todo i => i ≤ j
  | .busy i _ l | .owes i _ _ l => i < j ∨ i = j ∧ Left ret u e l

/-- The epochs of `sssp`. -/
abbrev SsspEpoch (G : CsrGraph) (n : ℕ) := Epoch (Fin G.nodes) (Fin G.nodes → ℕ) (Local G) n

/-- The edge `e` of `u` will be relaxed: `u` is appended, or about to be, or the turn of the edge is to
    come. -/
def Pending (a : SsspEpoch G n) (u : Fin G.nodes) (e : Fin G.edges) : Prop :=
  u ∈ a.pushed ∨ (∃ tid i u' l, a.jobs tid = .owes i u' u l) ∨
    ∃ tid j, a.front[j]? = some u ∧ j % n = Fin.val tid ∧ Ahead a.mem u e j (a.jobs tid)

/-- What holds in every epoch. -/
structure Inv (seed : Fin G.nodes) (a : SsspEpoch G n) : Prop where
  placed : a.Placed
  sound : Sound seed a.mem
  busy : ∀ tid i u l, a.jobs tid = .busy i u l → Carries seed a.mem u l
  owes : ∀ tid i u v l, a.jobs tid = .owes i u v l → Carries seed a.mem u l
  relaxed : ∀ u e, e ∈ G.edgesOf u →
    a.mem (G.edgeArray e) ≤ a.mem u + G.edgeValues e ∨ Pending a u e

section
variable {seed u v : Fin G.nodes} {ret ret' : Fin G.nodes → ℕ} {e : Fin G.edges} {i j toMin : ℕ}
  {es : List (Fin G.edges)} {l : Local G} {a b : SsspEpoch G n} {tid : Fin n}
  {job : Job (Fin G.nodes) (Local G)}

/-- Lower distances change nothing for a thread. -/
lemma Carries.mono (carries : Carries seed ret u l) (le : ∀ v, ret' v ≤ ret v) :
    Carries seed ret' u l := by
  cases l with
  | edges es => exact carries
  | load e es toMin => exact carries
  | swap e es toMin value => exact ⟨carries.1, carries.2.1, (le _).trans carries.2.2⟩

/-- The sum does not wrap around, and is the weight of a walk if it can matter. -/
lemma Sound.newDist (sound : Sound seed ret) (weights : ∀ e, G.edgeValues e < 2 ^ 32)
    (he : e ∈ G.edgesOf u) :
    ulong (ret u + G.edgeValues e) = ret u + G.edgeValues e ∧
      (ret u + G.edgeValues e < weightMax →
        ∃ k, Walk G.Edge seed k (ret u + G.edgeValues e) (G.edgeArray e)) := by
  have le := sound.le u
  have lt := weights e
  refine ⟨ulong_of_lt (by unfold weightMax at le; omega), ?_⟩
  intro below
  obtain ⟨k, walk⟩ := sound.walk u (by omega)
  exact ⟨k + 1, walk.step (CsrGraph.edge_of_mem he)⟩

/-- A distance that goes down to the weight of a walk. -/
lemma Sound.lower (sound : Sound seed ret) (lt : toMin < ret v)
    (walk : toMin < weightMax → ∃ k, Walk G.Edge seed k toMin v) :
    Sound seed (Function.update ret v toMin) := by
  have below : toMin < weightMax := lt.trans_le (sound.le v)
  constructor
  case le =>
    intro w
    rcases eq_or_ne w v with rfl | ne
    · simpa using below.le
    · simpa [ne] using sound.le w
  case source =>
    have ne : seed ≠ v := by
      rintro rfl
      rw [sound.source] at lt
      cases lt
    simpa [ne] using sound.source
  case walk =>
    intro w hw
    rcases eq_or_ne w v with rfl | ne
    · simpa using walk below
    · simp only [Function.update_of_ne ne] at hw ⊢
      exact sound.walk w hw

/-- What is pending stays so when one thread goes on, but for what this thread stood for. -/
lemma Pending.setJob {P : Prop} {m : Fin G.nodes → ℕ} {pushed : List (Fin G.nodes)}
    (pending : Pending a u e) (same : m u = a.mem u) (sub : ∀ v ∈ a.pushed, v ∈ pushed)
    (owed : ∀ i u' l, a.jobs tid = .owes i u' u l → P)
    (own : ∀ j, a.front[j]? = some u → j % n = tid → Ahead a.mem u e j (a.jobs tid) → P) :
    Pending { a.setJob tid job with mem := m, pushed } u e ∨ P := by
  rcases pending with mem | ⟨x, i, u', l, hx⟩ | ⟨x, j, front, mine, ahead⟩
  · exact .inl (.inl (sub u mem))
  · rcases eq_or_ne x tid with rfl | ne
    · exact .inr (owed i u' l hx)
    · refine .inl (.inr (.inl ⟨x, i, u', l, ?_⟩))
      simpa [Epoch.setJob, ne] using hx
  · rcases eq_or_ne x tid with rfl | ne
    · exact .inr (own j front mine ahead)
    · refine .inl (.inr (.inr ⟨x, j, front, mine, ?_⟩))
      have other : Function.update a.jobs tid job x = a.jobs x := Function.update_of_ne ne ..
      dsimp only [Epoch.setJob]
      rw [other]
      cases hx : a.jobs x with
      | todo i => rwa [hx] at ahead
      | busy i u' l =>
        rw [hx] at ahead
        refine ahead.imp_right (And.imp_right ?_)
        cases l <;> simp only [Left, same, imp_self]
      | owes i u' v l =>
        rw [hx] at ahead
        refine ahead.imp_right (And.imp_right ?_)
        cases l <;> simp only [Left, same, imp_self]

/-- One thread goes on. What it lowers it owes, what it owed is appended, and an edge it had before it is
    relaxed now or still before it. -/
lemma Inv.setJob {m : Fin G.nodes → ℕ} {pushed : List (Fin G.nodes)} (inv : Inv seed a)
    (placed : Epoch.Placed { a.setJob tid job with mem := m, pushed }) (sound : Sound seed m)
    (le : ∀ v, m v ≤ a.mem v)
    (busy : ∀ i u l, job = .busy i u l → Carries seed m u l)
    (owes : ∀ i u v l, job = .owes i u v l → Carries seed m u l)
    (lowered : ∀ u, m u ≠ a.mem u → ∃ i u' l, job = .owes i u' u l)
    (owed : ∀ i u' u l, a.jobs tid = .owes i u' u l → u ∈ pushed)
    (sub : ∀ v ∈ a.pushed, v ∈ pushed)
    (own : ∀ u e j, e ∈ G.edgesOf u → m u = a.mem u → a.front[j]? = some u → j % n = tid →
      Ahead a.mem u e j (a.jobs tid) →
      m (G.edgeArray e) ≤ m u + G.edgeValues e ∨ Ahead m u e j job) :
    Inv seed { a.setJob tid job with mem := m, pushed } where
  placed := placed
  sound := sound
  busy := by
    intro x i u l hx
    rcases eq_or_ne x tid with rfl | ne
    · exact busy i u l (by simpa [Epoch.setJob] using hx)
    · exact (inv.busy x i u l (by simpa [Epoch.setJob, ne] using hx)).mono le
  owes := by
    intro x i u v l hx
    rcases eq_or_ne x tid with rfl | ne
    · exact owes i u v l (by simpa [Epoch.setJob] using hx)
    · exact (inv.owes x i u v l (by simpa [Epoch.setJob, ne] using hx)).mono le
  relaxed := by
    intro u e he
    by_cases same : m u = a.mem u
    · rcases inv.relaxed u e he with less | pending
      · left
        dsimp only
        rw [same]
        exact (le _).trans less
      · refine (pending.setJob same sub ?_ ?_).elim .inr id
        · intro i u' l h
          exact .inr (.inl (owed i u' u l h))
        · intro j front mine ahead
          refine (own u e j he same front mine ahead).imp_right fun ahead' => ?_
          exact .inr (.inr ⟨tid, j, front, mine, by simpa [Epoch.setJob] using ahead'⟩)
    · obtain ⟨i, u', l, rfl⟩ := lowered u same
      exact .inr (.inr (.inl ⟨tid, i, u', l, by simp [Epoch.setJob]⟩))

/-- A thread begins with an entry. -/
lemma Inv.start (inv : Inv seed a)
    (placed : Epoch.Placed (a.setJob tid (.busy i u (.edges (G.edgesOf u)))))
    (todo : a.jobs tid = .todo i) (front : a.front[i]? = some u) :
    Inv seed (a.setJob tid (.busy i u (.edges (G.edgesOf u)))) := by
  refine inv.setJob (m := a.mem) placed inv.sound (fun _ => le_rfl) ?_ ?_ ?_ ?_ (fun _ => id) ?_
  · rintro i u l ⟨⟩
    exact fun e he => he
  · rintro i u v l ⟨⟩
  · exact fun u ne => absurd rfl ne
  · intro i u' u l h
    rw [todo] at h
    cases h
  · intro w e j he _ frontJ _ ahead
    rw [todo] at ahead
    rcases Nat.lt_or_eq_of_le ahead with lt | rfl
    · exact .inr (.inl lt)
    · rw [front] at frontJ
      cases frontJ
      exact .inr (.inr ⟨rfl, he⟩)

/-- A step in the body that lowers nothing and has nothing to append. -/
lemma Inv.go {l' : Local G} (inv : Inv seed a)
    (placed : Epoch.Placed { a.setJob tid (.busy i u l') with mem := a.mem })
    (busy : a.jobs tid = .busy i u l) (carries : Carries seed a.mem u l')
    (left : ∀ e, Left a.mem u e l →
      a.mem (G.edgeArray e) ≤ a.mem u + G.edgeValues e ∨ Left a.mem u e l') :
    Inv seed { a.setJob tid (.busy i u l') with mem := a.mem } := by
  have entry := inv.placed.entry tid i u (by rw [busy]; rfl)
  refine inv.setJob placed inv.sound (fun _ => le_rfl) ?_ ?_ ?_ ?_ (fun _ => id) ?_
  · rintro i u l ⟨⟩
    exact carries
  · rintro i u v l ⟨⟩
  · exact fun u ne => absurd rfl ne
  · intro i u' u l h
    rw [busy] at h
    cases h
  · intro w e j _ _ frontJ _ ahead
    rw [busy] at ahead
    rcases ahead with lt | ⟨rfl, here⟩
    · exact .inr (.inl lt)
    · rw [entry] at frontJ
      cases frontJ
      exact (left e here).imp_right fun h => .inr ⟨rfl, h⟩

/-- The compare-and-swap succeeds: the end of the edge is lower now, and owed. -/
lemma Inv.swap (inv : Inv seed a)
    (placed : Epoch.Placed { a.setJob tid (.owes i u (G.edgeArray e) (.edges es)) with
      mem := Function.update a.mem (G.edgeArray e) toMin })
    (busy : a.jobs tid = .busy i u (.swap e es toMin (a.mem (G.edgeArray e))))
    (lt : toMin < a.mem (G.edgeArray e)) :
    Inv seed { a.setJob tid (.owes i u (G.edgeArray e) (.edges es)) with
      mem := Function.update a.mem (G.edgeArray e) toMin } := by
  have entry := inv.placed.entry tid i u (by rw [busy]; rfl)
  obtain ⟨sub, walk, -⟩ := inv.busy tid i u _ busy
  have le : ∀ v, Function.update a.mem (G.edgeArray e) toMin v ≤ a.mem v := by
    intro v
    rcases eq_or_ne v (G.edgeArray e) with rfl | ne
    · simpa using lt.le
    · simp [ne]
  refine inv.setJob placed (inv.sound.lower lt walk) le ?_ ?_ ?_ ?_ (fun _ => id) ?_
  · rintro i u l ⟨⟩
  · rintro i u v l ⟨⟩
    exact fun e' he' => sub e' (.tail e he')
  · intro v ne
    have eq : v = G.edgeArray e := by
      by_contra other
      exact ne (Function.update_of_ne other ..)
    exact ⟨i, u, .edges es, by rw [eq]⟩
  · intro i u' u l h
    rw [busy] at h
    cases h
  · intro w e' j _ same frontJ _ ahead
    rw [busy] at ahead
    rcases ahead with lt | ⟨rfl, here⟩
    · exact .inr (.inl lt)
    · rw [entry] at frontJ
      cases frontJ
      rcases here with mem | ⟨rfl, up⟩
      · exact .inr (.inr ⟨rfl, mem⟩)
      · left
        rw [Function.update_self, same]
        exact up

/-- An entry is done when none of its edges is left. -/
lemma Inv.finish (inv : Inv seed a)
    (placed : Epoch.Placed { a.setJob tid (.todo (i + n)) with mem := a.mem })
    (busy : a.jobs tid = .busy i u (.edges [])) :
    Inv seed { a.setJob tid (.todo (i + n)) with mem := a.mem } := by
  have mine := inv.placed.mine tid
  rw [busy] at mine
  refine inv.setJob placed inv.sound (fun _ => le_rfl) ?_ ?_ ?_ ?_ (fun _ => id) ?_
  · rintro i u l ⟨⟩
  · rintro i u v l ⟨⟩
  · exact fun u ne => absurd rfl ne
  · intro i u' u l h
    rw [busy] at h
    cases h
  · intro w e j _ _ _ mineJ ahead
    rw [busy] at ahead
    rcases ahead with lt | ⟨-, here⟩
    · exact .inr (next_entry (mine.trans mineJ.symm) lt)
    · cases here

/-- The append. -/
lemma Inv.push (inv : Inv seed a)
    (placed : Epoch.Placed { a.setJob tid (.busy i u l) with pushed := a.pushed ++ [v] })
    (owes : a.jobs tid = .owes i u v l) :
    Inv seed { a.setJob tid (.busy i u l) with pushed := a.pushed ++ [v] } := by
  have carries := inv.owes tid i u v l owes
  refine inv.setJob (m := a.mem) placed inv.sound (fun _ => le_rfl) ?_ ?_ ?_ ?_ ?_ ?_
  · rintro i u l ⟨⟩
    exact carries
  · rintro i u v l ⟨⟩
  · exact fun u ne => absurd rfl ne
  · intro i u' u l h
    rw [owes] at h
    cases h
    exact List.mem_append_right _ (List.mem_singleton_self _)
  · exact fun w h => List.mem_append_left _ h
  · intro w e j _ _ _ _ ahead
    rw [owes] at ahead
    exact .inr ahead

/-- In an epoch that is over only what was appended is pending, and is the input of the next one. -/
lemma Inv.turn (inv : Inv seed a) (placed : Epoch.Placed a.next) (team : 0 < n)
    (finished : a.Over) : Inv seed a.next where
  placed := placed
  sound := inv.sound
  busy := by
    intro tid i u l h
    cases h
  owes := by
    intro tid i u v l h
    cases h
  relaxed := by
    intro u e he
    refine (inv.relaxed u e he).imp_right ?_
    rintro (mem | ⟨tid, i, u', l, h⟩ | ⟨tid, j, front, -, ahead⟩)
    · obtain ⟨j, front⟩ := List.getElem?_of_mem mem
      exact .inr (.inr ⟨⟨j % n, Nat.mod_lt j team⟩, j, front, rfl, Nat.mod_le j n⟩)
    · obtain ⟨i', h', -⟩ := finished tid
      rw [h'] at h
      cases h
    · obtain ⟨i', h', le⟩ := finished tid
      have lt := (List.getElem?_eq_some_iff.mp front).1
      rw [h'] at ahead
      exact absurd ahead (by simp only [Ahead]; omega)

/-- A step of the body keeps what holds. -/
lemma Inv.body {spurious : Bool} {next : Next (Fin G.nodes) (Local G)} {m : Fin G.nodes → ℕ}
    (inv : Inv seed a) (weights : ∀ e, G.edgeValues e < 2 ^ 32)
    (placed : Epoch.Placed { a.setJob tid (.after n i u next) with mem := m })
    (busy : a.jobs tid = .busy i u l)
    (h : bodyStep spurious a.side a.mem u l = some (m, next)) :
    Inv seed { a.setJob tid (.after n i u next) with mem := m } := by
  have carries := inv.busy tid i u l busy
  cases l with
  | edges es =>
    cases es with
    | nil =>
      cases h
      exact inv.finish placed busy
    | cons e es =>
      cases h
      have mem := carries e (.head es)
      obtain ⟨sum, walk⟩ := inv.sound.newDist weights mem
      refine inv.go placed busy ⟨carries, ?_⟩ ?_
      · rw [sum]
        exact walk
      · intro e' here
        right
        rcases List.mem_cons.mp here with rfl | tail
        · exact .inr ⟨rfl, sum.le⟩
        · exact .inl tail
  | load e es toMin =>
    cases h
    exact inv.go placed busy ⟨carries.1, carries.2, le_rfl⟩ fun e' here => .inr here
  | swap e es toMin value =>
    obtain ⟨sub, walk, le⟩ := carries
    simp only [bodyStep] at h
    split at h
    case isTrue lt =>
      split at h
      case isTrue hit =>
        cases h
        obtain ⟨rfl, -⟩ := hit
        exact inv.swap placed busy lt
      case isFalse =>
        cases h
        exact inv.go placed busy ⟨sub, walk, le_rfl⟩ fun e' here => .inr here
    case isFalse ge =>
      cases h
      refine inv.go placed busy (fun e' he' => sub e' (.tail e he')) ?_
      rintro e' (tail | ⟨rfl, up⟩)
      · exact .inr tail
      · left
        omega

/-- A step of the epochs keeps what holds. -/
lemma Inv.step (inv : Inv seed a) (weights : ∀ e, G.edgeValues e < 2 ^ 32) (team : 0 < n)
    (st : Epoch.Step (sssp G) (fun _ _ _ _ => True) a b) : Inv seed b := by
  have placed := inv.placed.step st
  cases st with
  | start todo front => exact inv.start placed todo front
  | body busy _ h => exact inv.body weights placed busy h
  | push owes => exact inv.push placed owes
  | turn _ finished => exact inv.turn placed team finished

/-- The distances as the team starts. -/
lemma start_sound (seed : Fin G.nodes) :
    Sound seed (Function.update (fun _ => weightMax) seed 0) where
  le := by
    intro v
    rcases eq_or_ne v seed with rfl | ne
    · simp
    · simp [ne]
  source := by simp
  walk := by
    intro v lt
    rcases eq_or_ne v seed with rfl | ne
    · exact ⟨0, by simpa using Walk.start⟩
    · simp [ne] at lt

/-- What holds as the team starts. -/
lemma start_inv (seed : Fin G.nodes) (team : 0 < n) :
    Inv seed (.start (Function.update (fun _ => weightMax) seed 0) [seed] : SsspEpoch G n) where
  placed := start_placed _ _
  sound := start_sound seed
  busy := by
    intro tid i u l h
    cases h
  owes := by
    intro tid i u v l h
    cases h
  relaxed := by
    intro u e _
    rcases eq_or_ne u seed with rfl | ne
    · exact .inr (.inr (.inr ⟨⟨0, team⟩, 0, rfl, Nat.zero_mod n, le_rfl⟩))
    · left
      have top := (start_sound seed).le (G.edgeArray e)
      dsimp only [Epoch.start]
      rw [Function.update_of_ne ne]
      exact top.trans (Nat.le_add_right _ _)

/-- With no input nothing is pending, and every walk is accounted for. -/
lemma Inv.le_walk {k c : ℕ} (inv : Inv seed a) (none : a.front = [])
    (walk : Walk G.Edge seed k c v) : a.mem v ≤ c := by
  have idle : ∀ u e, ¬ Pending a u e := by
    rintro u e (mem | ⟨tid, i, u', l, h⟩ | ⟨tid, j, front, -, -⟩)
    · rw [inv.placed.idle none] at mem
      cases mem
    · have front := inv.placed.entry tid i u' (by rw [h]; rfl)
      rw [none] at front
      cases front
    · rw [none] at front
      cases front
  induction walk with
  | start => exact inv.sound.source.le
  | @step k c u v w walk edge ih =>
    obtain ⟨e, he, rfl, rfl⟩ := edge
    have := (inv.relaxed u e he).resolve_right (idle u e)
    omega

end

/-- In any order of the steps of any number of threads: where all threads have returned, `ret` holds the
    distance of every vertex, or `WEIGHT_MAX` where that is smaller or the vertex cannot be reached. -/
theorem sssp_any_order (G : CsrGraph) (weights : ∀ e, G.edgeValues e < 2 ^ 32) (n : ℕ) (team : 0 < n)
    (seed : Fin G.nodes) (s₀ s : State (Fin G.nodes) (Fin G.nodes → ℕ) (Local G) n)
    (as : List (Action Bool n)) (init : initSssp G n seed = some s₀)
    (h : run (step (sssp G)) s₀ as = some s) (returned : Returned s) :
    (∀ v d, Dist G.Edge seed v d → s.mem v = min d weightMax) ∧
      ∀ v, ¬ Reachable G.Edge seed v → s.mem v = weightMax := by
  rw [initSssp, Option.ite_none_right_eq_some, Option.some.injEq] at init
  obtain ⟨-, rfl⟩ := init
  obtain ⟨a, stands, steps⟩ := run_epochs team (start_stands _ _) along_true h
  have inv : Inv seed a :=
    inv_of_steps (start_inv seed team) (fun _ _ inv st => inv.step weights team st) steps
  obtain ⟨mem, none, -⟩ := stands.of_returned team returned
  rw [mem]
  refine ⟨?_, ?_⟩
  · intro v d dist
    have leMax := inv.sound.le v
    obtain ⟨k, walk⟩ := dist.1
    have leD := inv.le_walk none walk
    rcases lt_or_eq_of_le leMax with lt | top
    · obtain ⟨k', walk'⟩ := inv.sound.walk v lt
      have := dist.le walk'
      omega
    · omega
  · intro v far
    rcases lt_or_eq_of_le (inv.sound.le v) with lt | top
    · obtain ⟨k, walk⟩ := inv.sound.walk v lt
      exact absurd ⟨k, _, walk⟩ far
    · exact top

/-- The offsets start at 0. -/
lemma diamond_first : (![0, 2, 3, 4, 4] : Fin 5 → ℕ) 0 = 0 := rfl

/-- They end at the number of edges. -/
lemma diamond_last : (![0, 2, 3, 4, 4] : Fin 5 → ℕ) (Fin.last 4) = 4 := rfl

/-- They ascend. -/
lemma diamond_mono : Monotone (![0, 2, 3, 4, 4] : Fin 5 → ℕ) := Fin.monotone_iff_le_succ.mpr (by decide)

/-- Two paths from 0 to 3, the shorter of them through 2. -/
def diamond : CsrGraph where
  nodes := 4
  edges := 4
  nodeArray := ![0, 2, 3, 4, 4]
  edgeArray :=
    let left : Fin 4 := ⟨1, Nat.one_lt_succ_succ 2⟩
    let right : Fin 4 := ⟨2, Nat.succ_lt_succ (Nat.one_lt_succ_succ 1)⟩
    let bottom : Fin 4 := ⟨3, Nat.lt_succ_self 3⟩
    ![left, right, bottom, bottom]
  edgeValues := ![5, 1, 1, 1]
  first := diamond_first
  last := diamond_last
  mono := diamond_mono

/-- The vertex 0. -/
def diamondSeed : Fin diamond.nodes := ⟨0, Nat.zero_lt_succ 3⟩

/-- The first of the two threads. -/
def thread₀ : Fin 2 := ⟨0, Nat.zero_lt_two⟩

/-- The second one. -/
def thread₁ : Fin 2 := ⟨1, Nat.one_lt_two⟩

/-- Steps of one of two threads. -/
def only (tid : Fin 2) (k : ℕ) : List (Action Bool 2) := List.replicate k (.thread tid false)

/-- Steps of two threads in turn. -/
def both (k : ℕ) : List (Action Bool 2) :=
  (List.replicate k [.thread thread₀ false, .thread thread₁ false]).flatten

/-- Three epochs of two threads. In the second, both have read the old distance of 3 when the thread 0 stores the
    longer one: the first compare-and-swap of the thread 1 fails for that, and its second for no reason. -/
def diamondSchedule : List (Action Bool 2) :=
  both 2 ++ only thread₀ 13 ++ [.release] ++ only thread₀ 3 ++ [.release] ++
    both 6 ++ [.thread thread₀ false, .thread thread₁ true] ++ both 3 ++ only thread₁ 2 ++ [.release] ++
    only thread₀ 3 ++ [.release] ++ both 5 ++ [.release] ++ only thread₀ 3 ++ [.release] ++ both 1

/-- The two threads come to their end. -/
theorem sssp_any_order_diamond :
    ∃ s₀ s, initSssp diamond 2 diamondSeed = some s₀ ∧
      run (step (sssp diamond)) s₀ diamondSchedule = some s ∧ Returned s ∧
      (∀ v d, Dist diamond.Edge diamondSeed v d → s.mem v = min d weightMax) ∧
      ∀ v, ¬ Reachable diamond.Edge diamondSeed v → s.mem v = weightMax := by
  have ends : ((initSssp diamond 2 diamondSeed).bind fun s₀ =>
      run (step (sssp diamond)) s₀ diamondSchedule).any (fun s => decide (Returned s)) = true := by
    decide +kernel
  obtain ⟨s, hs, returned⟩ := (Option.any_eq_true _ _).mp ends
  obtain ⟨s₀, init, h⟩ := Option.bind_eq_some_iff.mp hs
  have returned := of_decide_eq_true returned
  exact ⟨s₀, s, init, h, returned, sssp_any_order diamond (by decide) 2 (by decide) diamondSeed s₀ s _ init h returned⟩

end PromotionCache.Apps.ParallelSssp
