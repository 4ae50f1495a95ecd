import PromotionCache.Apps.ParallelBfs

/-!
# The parallel search that is simulated

`init_bfs` and `bfs` of `pin_source/parallel/bfs/bfs.h`. The program is the one of
`launch/parallel/bfs/bfs.h`, with the store `ret[edge_index] = hop` in a comment: a thread that has claimed
a vertex goes on to the append. So a claimed slot keeps the upper half of the -1 it was set to. Every step
of its epochs is matched by one or two steps of the epochs of the other program, on the slots as they would be
with the store (`Image.step`), and from this the two arrays differ at every vertex that is claimed.
-/

namespace PromotionCache.Apps.PinBfs
open Lib Lib.Team PromotionCache.Graph ParallelBfs
variable {G : CsrGraph} {n : ℕ}

/-- A step in the loop over the edges: at the loop, and at `compare_and_swap` if there is an edge left. -/
def bodyStep (hop : ℕ) (ret : Fin G.nodes → ℕ) :
    List (Fin G.edges) → (Fin G.nodes → ℕ) × Next (Fin G.nodes) (List (Fin G.edges))
  | [] => (ret, .finish)
  | e :: es =>
    let edgeIndex := G.edgeArray e
    if lowHalf (ret edgeIndex) = toCompare then
      (Function.update ret edgeIndex (setLowHalf (ret edgeIndex) hop), .push edgeIndex es)
    else (ret, .go es)

/-- `bfs`; `hop` is an `int`. -/
def bfs (G : CsrGraph) : Kernel (Fin G.nodes) (Fin G.nodes → ℕ) (List (Fin G.edges)) Unit where
  start := G.edgesOf
  step := fun _ _ hop ret _ es => some (bodyStep hop ret es)
  capacity := some (G.nodes * 2)
  bound := intBound

/-- `init_bfs`, which only allocates the worklists in another way. -/
def initBfs (G : CsrGraph) (n : ℕ) (startSeed : Fin G.nodes) :
    Option (State (Fin G.nodes) (Fin G.nodes → ℕ) (List (Fin G.edges)) n) :=
  if G.nodes * 2 < intBound then
    some (.start (Function.update (fun _ => unset) startSeed 0) [startSeed])
  else none

/-- No step is left. -/
def Ended {L : Type} (s : State (Fin G.nodes) (Fin G.nodes → ℕ) L n) : Prop :=
  ∀ act : Action Unit n, ¬ Enabled s act

/-- In any order of their steps the two programs end with the same slots. -/
def SameRet (G : CsrGraph) (n : ℕ) (seed : Fin G.nodes) : Prop :=
  ∃ p₀ s₀, initBfs G n seed = some p₀ ∧ ParallelBfs.initBfs G n seed = some s₀ ∧
    ∀ as p bs s, run (step (bfs G)) p₀ as = some p → Ended p →
      run (step (ParallelBfs.bfs G)) s₀ bs = some s → Ended s → p.mem = s.mem

/-- The slot that is left without the store. -/
def halfOf (r : ℕ) : ℕ := if r = 0 ∨ r = unset then r else halfSet r

/-- The epochs of `bfs`. -/
abbrev PinEpoch (G : CsrGraph) (n : ℕ) := Epoch (Fin G.nodes) (Fin G.nodes → ℕ) (List (Fin G.edges)) n

/-- The same place in the other program. -/
def lift : Job (Fin G.nodes) (List (Fin G.edges)) → Job (Fin G.nodes) (Local G)
  | .todo i => .todo i
  | .busy i u es => .busy i u (.edges es)
  | .owes i u v es => .owes i u v (.edges es)

/-- The epoch `p` of this program stands for the epoch `a` of the other one. -/
structure Image (p : PinEpoch G n) (a : BfsEpoch G n) : Prop where
  mem : p.mem = fun v => halfOf (a.mem v)
  level : p.level = a.level
  front : p.front = a.front
  pushed : p.pushed = a.pushed
  jobs : a.jobs = fun tid => lift (p.jobs tid)

/-- What holds in every epoch: it stands for one of the other program. -/
def Inv (seed : Fin G.nodes) (p : PinEpoch G n) : Prop := ∃ a, Image p a ∧ ParallelBfs.Inv seed a

section
variable {r d : ℕ}

/-- The compare-and-swap does not see the difference. -/
lemma lowHalf_halfOf (r : ℕ) : lowHalf (halfOf r) = lowHalf r := by
  unfold halfOf
  split
  · rfl
  · unfold halfSet setLowHalf
    rw [lowHalf_unset]
    unfold lowHalf toCompare unset
    omega

/-- A slot that is not claimed is the same in both programs. -/
lemma halfOf_unset : halfOf unset = unset := if_pos (.inr rfl)

/-- A distance but 0 is left in the low half. -/
lemma halfOf_hop (pos : 0 < d) (lt : d < intBound) : halfOf d = halfSet d := by
  refine if_neg ?_
  unfold intBound at lt
  unfold unset
  omega

/-- A claimed slot is not the distance. -/
lemma halfSet_ne (lt : d < intBound) : halfSet d ≠ d := by
  unfold intBound at lt
  unfold halfSet setLowHalf
  rw [lowHalf_unset]
  unfold toCompare unset
  omega

/-- A free slot is the -1 of the start in both programs. -/
lemma halfOf_free (free : lowHalf r = toCompare) : halfOf r = unset := by
  unfold halfOf
  split
  case isTrue h =>
    rcases h with rfl | rfl
    · cases free
    · rfl
  case isFalse =>
    unfold halfSet setLowHalf
    unfold lowHalf toCompare at *
    rw [free]
    rfl

end

section
variable {seed u v w : Fin G.nodes} {a b : BfsEpoch G n} {p q : PinEpoch G n} {tid : Fin n} {i : ℕ}
  {e : Fin G.edges} {es : List (Fin G.edges)} {job : Job (Fin G.nodes) (List (Fin G.edges))}

/-- One thread goes on in both programs. -/
lemma Image.setJob {m m' : Fin G.nodes → ℕ} {pushed pushed' : List (Fin G.nodes)} (im : Image p a)
    (job : Job (Fin G.nodes) (List (Fin G.edges))) (mem : m = fun v => halfOf (m' v)) (same : pushed = pushed') :
    Image { p.setJob tid job with mem := m, pushed }
      { a.setJob tid (lift job) with mem := m', pushed := pushed' } where
  mem := mem
  level := im.level
  front := im.front
  pushed := same
  jobs := by
    funext x
    dsimp only [Epoch.setJob]
    rcases eq_or_ne x tid with rfl | ne
    · rw [Function.update_self, Function.update_self]
    · rw [Function.update_of_ne ne, Function.update_of_ne ne, im.jobs]

/-- Where a thread of the other program is. -/
lemma Image.lifted (im : Image p a) (h : p.jobs tid = job) : a.jobs tid = lift job := by
  rw [im.jobs, ← h]

/-- The claim of this program is the claim and the store of the other one. -/
lemma Image.claim (im : Image p a) (inv : ParallelBfs.Inv seed a) (small : G.nodes < 2 ^ 30)
    (busy : p.jobs tid = .busy i u (e :: es)) (free : lowHalf (p.mem (G.edgeArray e)) = toCompare) :
    ∃ b, Relation.ReflTransGen (Epoch.Step (ParallelBfs.bfs G) (fun _ _ _ _ => True)) a b ∧
      Image { p.setJob tid (.owes i u (G.edgeArray e) es) with
        mem := Function.update p.mem (G.edgeArray e)
          (setLowHalf (p.mem (G.edgeArray e)) (p.level + 1)) } b := by
  have busy' := im.lifted busy
  have slot : p.mem (G.edgeArray e) = unset := by
    rw [im.mem] at free ⊢
    exact halfOf_free ((lowHalf_halfOf _).symm.trans free)
  have free' : lowHalf (a.mem (G.edgeArray e)) = toCompare := by
    rw [im.mem] at free
    exact (lowHalf_halfOf _).symm.trans free
  have entry : (a.jobs tid).entry = some (i, u) := by rw [busy']; rfl
  obtain ⟨-, lt⟩ := inv.entry_level entry
  -- the compare-and-swap of the other program, and its store
  have first : Epoch.Step (ParallelBfs.bfs G) (fun _ _ _ _ => True) a _ :=
    .body (c := ()) busy' trivial (congrArg some (bodyStep_claim free'))
  have second : Epoch.Step (ParallelBfs.bfs G) (fun _ _ _ _ => True)
      { a.setJob tid (.busy i u (.store (G.edgeArray e) es)) with
        mem := Function.update a.mem (G.edgeArray e)
          (setLowHalf (a.mem (G.edgeArray e)) (a.level + 1)) } _ :=
    .body (c := ()) (Function.update_self ..) trivial rfl
  refine ⟨_, (Relation.ReflTransGen.single first).tail second, ?_⟩
  have image : Image
      { p.setJob tid (.owes i u (G.edgeArray e) es) with
        mem := Function.update p.mem (G.edgeArray e)
          (setLowHalf (p.mem (G.edgeArray e)) (p.level + 1)) }
      { a.setJob tid (.owes i u (G.edgeArray e) (.edges es)) with
        mem := Function.update a.mem (G.edgeArray e) (a.level + 1) } := by
    refine im.setJob (.owes i u (G.edgeArray e) es) ?_ im.pushed
    funext v
    rcases eq_or_ne v (G.edgeArray e) with rfl | ne
    · rw [Function.update_self, Function.update_self, slot, im.level,
        halfOf_hop (Nat.succ_pos _) (by unfold intBound; omega), halfSet]
    · rw [Function.update_of_ne ne, Function.update_of_ne ne, im.mem]
  simpa [Epoch.setJob, Job.after] using image

/-- Every step is matched by one or two steps of the other program. -/
theorem Image.step (im : Image p a) (inv : ParallelBfs.Inv seed a) (small : G.nodes < 2 ^ 30)
    (st : Epoch.Step (bfs G) (fun _ _ _ _ => True) p q) :
    ∃ b, Relation.ReflTransGen (Epoch.Step (ParallelBfs.bfs G) (fun _ _ _ _ => True)) a b ∧ Image q b := by
  cases st with
  | @start tid i u todo front =>
    rw [im.front] at front
    exact ⟨_, .single (.start (im.lifted todo) front), im.setJob (.busy i u (G.edgesOf u)) im.mem im.pushed⟩
  | @body tid i u es c m next busy _ h =>
    have h := Option.some.inj h
    cases es with
    | nil =>
      cases h
      refine ⟨_, .single (.body (c := ()) (im.lifted busy) trivial rfl), ?_⟩
      exact im.setJob (.todo (i + n)) im.mem im.pushed
    | cons e es =>
      simp only [bodyStep] at h
      split at h
      case isTrue free =>
        cases h
        exact im.claim inv small busy free
      case isFalse taken =>
        cases h
        have taken' : ¬ lowHalf (a.mem (G.edgeArray e)) = toCompare := fun free => by
          rw [im.mem, lowHalf_halfOf] at taken
          exact taken free
        refine ⟨_, .single (.body (c := ()) (im.lifted busy) trivial (congrArg some (bodyStep_skip taken'))), ?_⟩
        exact im.setJob (.busy i u es) im.mem im.pushed
  | @push tid i u v es owes =>
    refine ⟨_, .single (.push (im.lifted owes)), ?_⟩
    exact im.setJob (.busy i u es) im.mem (congrArg (· ++ [v]) im.pushed)
  | turn ne finished =>
    rw [im.front] at ne
    have ended : a.Over := by
      intro tid
      obtain ⟨i, todo, le⟩ := finished tid
      exact ⟨i, im.lifted todo, im.front ▸ le⟩
    refine ⟨_, .single (.turn ne ended), ?_⟩
    exact ⟨im.mem, congrArg (· + 1) im.level, im.pushed, rfl, rfl⟩

/-- So what holds in the epochs of the other program holds in those of this one. -/
lemma Inv.step (inv : Inv seed p) (small : G.nodes < 2 ^ 30) (team : 0 < n)
    (st : Epoch.Step (bfs G) (fun _ _ _ _ => True) p q) : Inv seed q := by
  obtain ⟨a, im, inv⟩ := inv
  obtain ⟨b, steps, im'⟩ := im.step inv small st
  exact ⟨b, im', inv_of_steps inv (fun _ _ inv st => inv.step small team st) steps⟩

/-- A claim takes three steps. -/
def budget (G : CsrGraph) : Budget (List (Fin G.edges)) where
  levels := G.nodes
  entries := G.nodes
  most := 4 * G.edges + 1
  cost := fun es => 4 * es.length + 1

/-- The bodies go through. -/
lemma budget_covers (small : G.nodes < 2 ^ 30) : (budget G).Covers (bfs G) where
  start := by
    intro u
    have le := length_edgesOf_le u
    simp only [budget, bfs]
    omega
  step := by
    intro c b hop ret u es
    refine ⟨_, rfl, ?_⟩
    cases es with
    | nil => exact Nat.one_pos
    | cons e es =>
      simp only [bodyStep]
      split
      · simp only [Budget.after, budget, List.length_cons]
        omega
      · simp only [Budget.after, budget, List.length_cons]
        omega
  capacity := by
    rintro c ⟨⟩
    simp only [budget]
    omega
  bound := by
    simp only [budget, bfs, intBound]
    omega

/-- The epochs stay within the budget. -/
lemma Inv.admits (inv : Inv seed p) : (budget G).Admits p := by
  obtain ⟨a, im, inv⟩ := inv
  obtain ⟨level, front, pushed⟩ := inv.admits
  refine ⟨?_, im.front ▸ front, im.pushed ▸ pushed⟩
  rw [im.front, im.level]
  exact level

/-- The state from which a team starts. -/
lemma initBfs_within (small : G.nodes < 2 ^ 30) (seed : Fin G.nodes) (n : ℕ) :
    ∃ s : State (Fin G.nodes) (Fin G.nodes → ℕ) (List (Fin G.edges)) n,
      initBfs G n seed = some s ∧ Within (Inv seed) s := by
  refine ⟨_, if_pos (by unfold intBound; omega), _, start_stands _ _, _, ⟨?_, rfl, rfl, rfl, ?_⟩,
    start_inv seed n⟩
  · funext v
    dsimp only [Epoch.start]
    rcases eq_or_ne v seed with rfl | ne
    · rw [Function.update_self]
      rfl
    · rw [Function.update_of_ne ne, halfOf_unset]
  · rfl

end

section
variable {seed v : Fin G.nodes} {e : Fin G.edges}
  {p : State (Fin G.nodes) (Fin G.nodes → ℕ) (List (Fin G.edges)) n}
  {s : State (Fin G.nodes) (Fin G.nodes → ℕ) (Local G) n}

/-- The slots at the end of the measured program. -/
lemma ended_launch (within : Within (ParallelBfs.Inv seed) s) (team : 0 < n) (ended : Ended s) :
    (∀ v d, Hops G.Edge seed v d → s.mem v = d) ∧ ∀ v, ¬ Reachable G.Edge seed v → s.mem v = unset := by
  obtain ⟨a, stands, inv⟩ := within
  obtain ⟨mem, none, -⟩ := stands.of_returned team (stands.stuck ended)
  obtain ⟨known, far, -⟩ := inv.complete none
  rw [mem]
  exact ⟨known, far⟩

/-- The slots at the end of the simulated program: the seed has its distance, and no other vertex that
    can be reached has. -/
lemma ended_ret (within : Within (Inv seed) p) (team : 0 < n) (small : G.nodes < 2 ^ 30)
    (ended : Ended p) :
    p.mem seed = 0 ∧ (∀ v d, 0 < d → Hops G.Edge seed v d → p.mem v = halfSet d) ∧
      ∀ v, ¬ Reachable G.Edge seed v → p.mem v = unset := by
  obtain ⟨q, stands, a, im, inv⟩ := within
  obtain ⟨mem, none, -⟩ := stands.of_returned team (stands.stuck ended)
  obtain ⟨known, far, -⟩ := inv.complete (im.front ▸ none)
  have slot : ∀ v, p.mem v = halfOf (a.mem v) := fun v => by rw [mem, im.mem]
  refine ⟨?_, ?_, ?_⟩
  · rw [slot, known seed 0 hops_source]
    exact if_pos (.inl rfl)
  · intro v d pos hd
    have lt := hd.lt_card
    rw [Fintype.card_fin] at lt
    rw [slot, known v d hd, halfOf_hop pos (by unfold intBound; omega)]
  · intro v h
    rw [slot, far v h, halfOf_unset]

/-- If all edges out of the seed lead back to it, nothing else can be reached. -/
lemma reachable_of_loops (loops : ∀ e ∈ G.edgesOf seed, G.edgeArray e = seed)
    (reach : Reachable G.Edge seed v) : v = seed := by
  obtain ⟨k, c, walk⟩ := reach
  induction walk with
  | start => rfl
  | step walk edge ih =>
    obtain ⟨e, he, rfl, -⟩ := edge
    rw [ih] at he
    exact loops e he

/-- The end of an edge out of the seed is one step away. -/
lemma hops_one (he : e ∈ G.edgesOf seed) (ne : G.edgeArray e ≠ seed) :
    Hops G.Edge seed (G.edgeArray e) 1 := by
  have start : Hops G.Edge seed seed 0 := hops_source
  obtain ⟨d, le, hd⟩ := start.step (CsrGraph.edge_of_mem he)
  rcases Nat.eq_zero_or_pos d with rfl | pos
  · exact absurd hd.eq_source ne
  · obtain rfl : d = 1 := by omega
    exact hd

/-- An edge that leads away from the seed leaves a slot in which the two programs differ. -/
lemma not_sameRet (team : 0 < n) (he : e ∈ G.edgesOf seed) (ne : G.edgeArray e ≠ seed) :
    ¬ SameRet G n seed := by
  rintro ⟨p₀, s₀, initP, initS, same⟩
  rw [ParallelBfs.initBfs, Option.ite_none_right_eq_some] at initS
  have small : G.nodes < 2 ^ 30 := by
    have bound := initS.1
    unfold intBound at bound
    omega
  obtain ⟨p, initP', withinP⟩ := initBfs_within small seed n
  obtain rfl := Option.some.inj (initP'.symm.trans initP)
  obtain ⟨as, p', hp, withinP', endP⟩ := withinP.exists_ended team
    (fun _ _ inv st => inv.step small team st) (budget_covers small) (fun _ => Inv.admits)
  have withinS : Within (ParallelBfs.Inv seed) s₀ := by
    rw [← Option.some.inj initS.2]
    exact ⟨_, start_stands _ _, start_inv seed n⟩
  obtain ⟨bs, s', hs, withinS', endS⟩ := withinS.exists_ended team
    (fun _ _ inv st => inv.step small team st) (ParallelBfs.budget_covers small)
    (fun _ => ParallelBfs.Inv.admits)
  have half := (ended_ret withinP' team small endP).2.1 _ 1 Nat.one_pos (hops_one he ne)
  have whole := (ended_launch withinS' team endS).1 _ 1 (hops_one he ne)
  have initS' : ParallelBfs.initBfs G n seed = some s₀ := by
    rw [ParallelBfs.initBfs, if_pos initS.1, initS.2]
  have eq := congrFun (same as p' bs s' hp endP hs endS) (G.edgeArray e)
  rw [half, whole] at eq
  exact halfSet_ne (by unfold intBound; omega) eq

end

/-- The simulated program ends with the array of the measured one if and only if the worklists can be
    allocated and the seed is the only vertex that its edges lead to: then no slot is claimed. -/
theorem bfs_same_ret_iff (G : CsrGraph) (n : ℕ) (team : 0 < n) (seed : Fin G.nodes) :
    SameRet G n seed ↔
      G.nodes * 2 < intBound ∧ ∀ e ∈ G.edgesOf seed, G.edgeArray e = seed := by
  constructor
  · intro same
    refine ⟨?_, ?_⟩
    · obtain ⟨p₀, s₀, -, init, -⟩ := same
      rw [ParallelBfs.initBfs, Option.ite_none_right_eq_some] at init
      exact init.1
    · intro e he
      by_contra ne
      exact not_sameRet team he ne same
  · rintro ⟨bound, loops⟩
    have small : G.nodes < 2 ^ 30 := by
      unfold intBound at bound
      omega
    obtain ⟨p₀, initP, withinP⟩ := initBfs_within small seed n
    obtain ⟨s₀, initS, withinS⟩ := ParallelBfs.initBfs_within small seed n
    refine ⟨p₀, s₀, initP, initS, ?_⟩
    intro as p bs s hp endP hs endS
    have runP := (withinP.run team (fun _ _ inv st => inv.step small team st) (budget_covers small)
      (fun _ => Inv.admits) hp).1
    have runS := (withinS.run team (fun _ _ inv st => inv.step small team st)
      (ParallelBfs.budget_covers small) (fun _ => ParallelBfs.Inv.admits) hs).1
    obtain ⟨seedP, -, farP⟩ := ended_ret runP team small endP
    obtain ⟨known, far⟩ := ended_launch runS team endS
    funext v
    by_cases reach : Reachable G.Edge seed v
    · obtain rfl := reachable_of_loops loops reach
      rw [seedP, known v 0 hops_source]
    · rw [farP v reach, far v reach]

/-- The vertex 2 of the sample has no edge. -/
theorem bfs_same_ret_iff_lone :
    SameRet .sample 2 (2 : Fin 3) ↔
      CsrGraph.sample.nodes * 2 < intBound ∧
        ∀ e ∈ CsrGraph.sample.edgesOf (2 : Fin 3), CsrGraph.sample.edgeArray e = (2 : Fin 3) :=
  bfs_same_ret_iff .sample 2 (by decide) (2 : Fin 3)

/-- The vertex 1 of the sample is claimed. -/
theorem claimed_slot_differs :
    ¬ ∀ (G : CsrGraph) (n : ℕ), 0 < n → ∀ seed, SameRet G n seed := by
  intro same
  have edge : (⟨0, by decide⟩ : Fin CsrGraph.sample.edges) ∈
      CsrGraph.sample.edgesOf CsrGraph.sampleSeed := by decide
  exact not_sameRet (by decide) edge (by decide) (same .sample 2 (by decide) CsrGraph.sampleSeed)

end PromotionCache.Apps.PinBfs
