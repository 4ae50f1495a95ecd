import PromotionCache.Graph.Csr
import PromotionCache.Lib.Machine
import PromotionCache.Lib.While
import Mathlib.Logic.Function.Basic

/-!
# Single-source shortest paths

`init_sssp` and `sssp` of `launch/sssp/sssp.h`, run by one thread, with worklists without a bound; how
far the program writes into the ones it has is the subject of `Apps/SsspWorklist`. An operation returns
`none` where an `int` overflows.

Every value of `ret` below `WEIGHT_MAX` is the weight of a walk (`Sound`). A pass over the worklist
takes every edge at the distance that its source had before the pass, or at a smaller one (`Pass`), so
that at the head of the loop the edges out of vertices that are not in the worklist are relaxed, and
walks of fewer than `hop` edges are accounted for (`Frontier`).
-/

namespace PromotionCache.Apps
open Lib PromotionCache.Graph

/-- `WEIGHT_MAX` -/
def weightMax : ℕ := 1073741823

namespace Sssp
variable {G : CsrGraph}

/-- What the two functions share; a worklist is what is below its index. -/
structure State (G : CsrGraph) where
  ret : Fin G.nodes → ℕ
  inWl : List (Fin G.nodes)
  outWl : List (Fin G.nodes)
  hop : ℕ

/-- `init_sssp`; the size of the worklists is an `int`. -/
def initSssp (G : CsrGraph) (startSeed : Fin G.nodes) : Option (State G) :=
  if G.nodes * 5 < intBound then
    some
      { ret := Function.update (fun _ => weightMax) startSeed 0
        inWl := [startSeed]
        outWl := []
        hop := 1 }
  else none

/-- `new_dist` -/
def newDist (s : State G) (node : Fin G.nodes) (e : Fin G.edges) : ℕ :=
  ulong (s.ret node + G.edgeValues e)

/-- The body of the loop over the edges of an entry. -/
def relax (node : Fin G.nodes) (s : State G) (e : Fin G.edges) : State G :=
  let edgeIndex := G.edgeArray e
  let currDist := s.ret edgeIndex
  if newDist s node e < currDist then
    { s with
      ret := Function.update s.ret edgeIndex (newDist s node e)
      outWl := s.outWl ++ [edgeIndex] }
  else s

/-- The body of the loop over the worklist. -/
def entry (s : State G) (node : Fin G.nodes) : State G := (G.edgesOf node).foldl (relax node) s

/-- The body of the `while`: a pass over the input worklist, then the swap. -/
def epoch (s : State G) : Option (State G) :=
  let t := s.inWl.foldl entry s
  if t.hop + 1 < intBound then some { t with inWl := t.outWl, outWl := [], hop := t.hop + 1 }
  else none

/-- `*in_index > 0` -/
def running (s : State G) : Bool := 0 < s.inWl.length

/-- `sssp` -/
def sssp (fuel : ℕ) (s : State G) : Option (State G) := whileLoop running epoch fuel s

/-- The loop over the edges of `node`, an entry of the worklist, begins in state `s` of the run. -/
def AtEntry (G : CsrGraph) (seed node : Fin G.nodes) (s : State G) : Prop :=
  ∃ init head before, initSssp G seed = some init ∧ Heads running epoch init head ∧
    before ++ [node] <+: head.inWl ∧ s = before.foldl entry head

/-- The body of the loop over the edges of `node` runs for the edge `e` in state `s`. -/
def AtEdge (G : CsrGraph) (seed node : Fin G.nodes) (e : Fin G.edges) (s : State G) : Prop :=
  ∃ start before, AtEntry G seed node start ∧
    before ++ [e] <+: G.edgesOf node ∧ s = before.foldl (relax node) start

/-- The distances are weights of walks, but for `WEIGHT_MAX`. -/
structure Sound (seed : Fin G.nodes) (s : State G) : Prop where
  le : ∀ v, s.ret v ≤ weightMax
  source : s.ret seed = 0
  walk : ∀ v, s.ret v < weightMax → ∃ k, Walk G.Edge seed k (s.ret v) v

section
variable {seed node : Fin G.nodes} {s t : State G} {e : Fin G.edges}

/-- The sum of a distance and a weight does not wrap around. -/
lemma Sound.sum_lt (sound : Sound seed s) (weights : ∀ e, G.edgeValues e < 2 ^ 32) :
    s.ret node + G.edgeValues e < 2 ^ 64 := by
  have le := sound.le node
  have lt := weights e
  unfold weightMax at le
  omega

/-- The new distance is the sum. -/
lemma Sound.newDist (sound : Sound seed s) (weights : ∀ e, G.edgeValues e < 2 ^ 32)
    (node : Fin G.nodes) (e : Fin G.edges) : newDist s node e = s.ret node + G.edgeValues e :=
  ulong_of_lt (sound.sum_lt weights)

/-- An edge that is relaxed lowers a distance, and appends its target. -/
lemma relax_lower (h : newDist s node e < s.ret (G.edgeArray e)) :
    relax node s e =
      { s with
        ret := Function.update s.ret (G.edgeArray e) (newDist s node e)
        outWl := s.outWl ++ [G.edgeArray e] } :=
  if_pos h

/-- An edge that is not changes nothing. -/
lemma relax_keep (h : ¬ newDist s node e < s.ret (G.edgeArray e)) : relax node s e = s :=
  if_neg h

/-- A distance that goes down becomes the weight of a walk through the edge. -/
lemma Sound.relax (sound : Sound seed s) (weights : ∀ e, G.edgeValues e < 2 ^ 32)
    (he : e ∈ G.edgesOf node) : Sound seed (relax node s e) := by
  by_cases h : Sssp.newDist s node e < s.ret (G.edgeArray e)
  · rw [relax_lower h]
    have leEnd := sound.le (G.edgeArray e)
    have below : s.ret node < weightMax := by
      rw [sound.newDist weights] at h
      omega
    constructor
    case le =>
      intro v
      rcases eq_or_ne v (G.edgeArray e) with rfl | ne
      · simp only [Function.update_self]
        omega
      · simpa [ne] using sound.le v
    case source =>
      have ne : seed ≠ G.edgeArray e := by
        intro eq
        rw [← eq, sound.source] at h
        cases h
      simpa [ne] using sound.source
    case walk =>
      intro v lt
      rcases eq_or_ne v (G.edgeArray e) with rfl | ne
      · simp only [Function.update_self, sound.newDist weights] at lt ⊢
        obtain ⟨k, walk⟩ := sound.walk node below
        exact ⟨k + 1, walk.step (CsrGraph.edge_of_mem he)⟩
      · simp only [Function.update_of_ne ne] at lt ⊢
        exact sound.walk v lt
  · rwa [relax_keep h]

/-- Relaxing edges keeps the distances sound. -/
lemma Sound.foldl_relax (sound : Sound seed s) (weights : ∀ e, G.edgeValues e < 2 ^ 32)
    {es : List (Fin G.edges)} (sub : ∀ e ∈ es, e ∈ G.edgesOf node) :
    Sound seed (es.foldl (Sssp.relax node) s) := by
  induction es generalizing s with
  | nil => exact sound
  | cons e es ih =>
    rw [List.forall_mem_cons] at sub
    exact ih (sound.relax weights sub.1) sub.2

/-- So do the entries of a worklist. -/
lemma Sound.foldl_entry (sound : Sound seed s) (weights : ∀ e, G.edgeValues e < 2 ^ 32)
    (wl : List (Fin G.nodes)) : Sound seed (wl.foldl entry s) := by
  induction wl generalizing s with
  | nil => exact sound
  | cons u wl ih => exact ih (sound.foldl_relax weights fun _ he => he)

/-- So does an epoch. -/
lemma Sound.epoch (sound : Sound seed s) (weights : ∀ e, G.edgeValues e < 2 ^ 32)
    (h : epoch s = some t) : Sound seed t := by
  have pass := sound.foldl_entry weights s.inWl
  simp only [Sssp.epoch, Option.ite_none_right_eq_some, Option.some.injEq] at h
  obtain ⟨-, rfl⟩ := h
  exact ⟨pass.le, pass.source, pass.walk⟩

/-- The distances are sound at the start. -/
lemma initSssp_sound (h : initSssp G seed = some s) : Sound seed s := by
  simp only [initSssp, Option.ite_none_right_eq_some, Option.some.injEq] at h
  obtain ⟨-, rfl⟩ := h
  constructor
  case le =>
    intro v
    rcases eq_or_ne v seed with rfl | ne
    · simp
    · simp [ne]
  case source => simp
  case walk =>
    intro v lt
    rcases eq_or_ne v seed with rfl | ne
    · exact ⟨0, by simpa using Walk.start⟩
    · simp [ne] at lt

/-- Soundness holds wherever an edge is looked at. -/
lemma AtEdge.sound (weights : ∀ e, G.edgeValues e < 2 ^ 32) (h : AtEdge G seed node e s) :
    Sound seed s := by
  obtain ⟨start, before, ⟨init, head, passed, hinit, heads, -, rfl⟩, pre, rfl⟩ := h
  have headSound : Sound seed head :=
    heads.inv (initSssp_sound hinit) fun _ _ sound _ h => sound.epoch weights h
  refine (headSound.foldl_entry weights passed).foldl_relax weights ?_
  intro e' he'
  exact pre.subset (List.mem_append_left _ he')

/-- What a pass from `s` has done when it has visited the edges `es`, each with its source. -/
structure Pass (s : State G) (es : List (Fin G.nodes × Fin G.edges)) (t : State G) : Prop where
  le : ∀ v, t.ret v ≤ s.ret v
  relaxed : ∀ ue ∈ es, t.ret (G.edgeArray ue.2) ≤ s.ret ue.1 + G.edgeValues ue.2
  out : ∃ new, t.outWl = s.outWl ++ new ∧ ∀ v, v ∈ new ↔ t.ret v < s.ret v
  hop : t.hop = s.hop

/-- A pass over nothing. -/
lemma Pass.nil (s : State G) : Pass s [] s :=
  ⟨fun _ => le_rfl, by simp, ⟨[], by simp⟩, rfl⟩

/-- A pass goes on with one more edge. -/
lemma Pass.snoc {es : List (Fin G.nodes × Fin G.edges)} (pass : Pass s es t)
    (soundT : Sound seed t) (weights : ∀ e, G.edgeValues e < 2 ^ 32) :
    Pass s (es ++ [(node, e)]) (relax node t e) := by
  have source := pass.le node
  have sum := soundT.newDist weights node e
  obtain ⟨new, hout, mem⟩ := pass.out
  by_cases h : newDist t node e < t.ret (G.edgeArray e)
  · rw [relax_lower h, sum] at *
    have lower : ∀ v, Function.update t.ret (G.edgeArray e) (t.ret node + G.edgeValues e) v ≤
        t.ret v := by
      intro v
      rcases eq_or_ne v (G.edgeArray e) with rfl | ne
      · simpa using h.le
      · simp [ne]
    refine ⟨fun v => (lower v).trans (pass.le v), ?_, ⟨new ++ [G.edgeArray e], ?_, ?_⟩, pass.hop⟩
    · intro ue hue
      rw [List.mem_append, List.mem_singleton] at hue
      rcases hue with old | rfl
      · exact (lower _).trans (pass.relaxed ue old)
      · simpa using source
    · simp [hout]
    · intro v
      rw [List.mem_append, List.mem_singleton, mem v]
      rcases eq_or_ne v (G.edgeArray e) with rfl | ne
      · have := pass.le (G.edgeArray e)
        simp only [or_true, Function.update_self, true_iff]
        omega
      · simp [ne]
  · rw [relax_keep h]
    refine ⟨pass.le, ?_, ⟨new, hout, mem⟩, pass.hop⟩
    intro ue hue
    rw [List.mem_append, List.mem_singleton] at hue
    rcases hue with old | rfl
    · exact pass.relaxed ue old
    · dsimp only
      omega

/-- It goes on with the edges of one entry. -/
lemma pass_entry {es : List (Fin G.nodes × Fin G.edges)} (pass : Pass s es t)
    (soundT : Sound seed t) (weights : ∀ e, G.edgeValues e < 2 ^ 32)
    (rest : List (Fin G.edges)) (sub : ∀ e ∈ rest, e ∈ G.edgesOf node) :
    Pass s (es ++ rest.map (Prod.mk node)) (rest.foldl (relax node) t) := by
  induction rest generalizing es t with
  | nil => simpa using pass
  | cons e rest ih =>
    rw [List.forall_mem_cons] at sub
    have next := ih (pass.snoc soundT weights) (soundT.relax weights sub.1) sub.2
    rwa [List.append_assoc] at next

/-- It goes on with all entries of a worklist. -/
lemma pass_worklist {es : List (Fin G.nodes × Fin G.edges)} (pass : Pass s es t)
    (soundT : Sound seed t) (weights : ∀ e, G.edgeValues e < 2 ^ 32) (wl : List (Fin G.nodes)) :
    Pass s (es ++ G.scan wl) (wl.foldl entry t) := by
  induction wl generalizing es t with
  | nil => simpa [CsrGraph.scan] using pass
  | cons u wl ih =>
    have first := pass_entry pass soundT weights (G.edgesOf u) fun _ he => he
    have rest := ih first (soundT.foldl_relax weights fun _ he => he)
    rwa [List.append_assoc] at rest

/-- The distances known at the head of the loop. -/
structure Frontier (seed : Fin G.nodes) (s : State G) : Prop where
  pos : 1 ≤ s.hop
  sound : Sound seed s
  out : s.outWl = []
  relaxed : ∀ u, u ∉ s.inWl → ∀ e ∈ G.edgesOf u,
    s.ret (G.edgeArray e) ≤ s.ret u + G.edgeValues e
  settled : ∀ k c v, Walk G.Edge seed k c v → k < s.hop → s.ret v ≤ c
  busy : ∀ v ∈ s.inWl, ∃ u k, Shortest G.Edge seed u k ∧ s.hop ≤ k + 1

/-- A graph with fewer than `2 ^ 28` vertices is taken. -/
lemma initSssp_eq_some (small : G.nodes < 2 ^ 28) (seed : Fin G.nodes) :
    ∃ s, initSssp G seed = some s := by
  have bound : G.nodes * 5 < intBound := by
    unfold intBound
    omega
  exact ⟨_, if_pos bound⟩

/-- At the start the seed is the frontier. -/
lemma initSssp_frontier (h : initSssp G seed = some s) : Frontier seed s := by
  have sound := initSssp_sound h
  simp only [initSssp, Option.ite_none_right_eq_some, Option.some.injEq] at h
  obtain ⟨-, rfl⟩ := h
  refine ⟨le_rfl, sound, rfl, ?_, ?_, ?_⟩
  · intro u hu e _
    have top := sound.le (G.edgeArray e)
    have ne : u ≠ seed := by simpa using hu
    simp only [Function.update_of_ne ne]
    exact top.trans (Nat.le_add_right _ _)
  · intro k c v walk lt
    obtain rfl : k = 0 := by simpa using lt
    obtain ⟨rfl, rfl⟩ := walk.zero
    simp
  · intro v _
    exact ⟨seed, 0, shortest_source, le_rfl⟩

/-- There are no more epochs than vertices. -/
lemma Frontier.hop_le (fr : Frontier seed s) (run : running s = true) : s.hop ≤ G.nodes := by
  obtain ⟨v, hv⟩ := List.exists_mem_of_length_pos (of_decide_eq_true run)
  obtain ⟨u, k, short, le⟩ := fr.busy v hv
  have lt := short.lt_card
  rw [Fintype.card_fin] at lt
  omega

/-- After a pass an edge is relaxed against the distance that its source had before. -/
lemma Frontier.pass_relaxed (fr : Frontier seed s) (pass : Pass s (G.scan s.inWl) t)
    {u : Fin G.nodes} (he : e ∈ G.edgesOf u) :
    t.ret (G.edgeArray e) ≤ s.ret u + G.edgeValues e := by
  by_cases hu : u ∈ s.inWl
  · exact pass.relaxed (u, e) (CsrGraph.mem_scan.mpr ⟨hu, he⟩)
  · exact (pass.le _).trans (fr.relaxed u hu e he)

/-- One epoch accounts for walks of one more edge. -/
lemma Frontier.epoch (fr : Frontier seed s) (small : G.nodes < 2 ^ 28)
    (weights : ∀ e, G.edgeValues e < 2 ^ 32) (run : running s = true) :
    ∃ t, epoch s = some t ∧ Frontier seed t ∧ t.hop = s.hop + 1 := by
  have le := fr.hop_le run
  have pass := pass_worklist (Pass.nil s) fr.sound weights s.inWl
  have sound := fr.sound.foldl_entry weights s.inWl
  rw [List.nil_append] at pass
  generalize ht : s.inWl.foldl entry s = t at pass sound
  obtain ⟨new, hout, mem⟩ := pass.out
  rw [fr.out, List.nil_append] at hout
  have bound : t.hop + 1 < intBound := by
    rw [pass.hop]
    unfold intBound
    omega
  have step : Sssp.epoch s = some { t with inWl := t.outWl, outWl := [], hop := t.hop + 1 } := by
    simp [Sssp.epoch, ht, bound]
  refine ⟨_, step, ?_, by rw [pass.hop]⟩
  constructor
  case pos => simp
  case sound => exact fr.sound.epoch weights step
  case out => rfl
  case relaxed =>
    intro u hu e he
    have same : s.ret u ≤ t.ret u := by
      rw [hout, mem u] at hu
      omega
    exact (fr.pass_relaxed pass he).trans (by dsimp only; omega)
  case settled =>
    intro k c v walk lt
    dsimp only at lt
    rw [pass.hop] at lt
    cases k with
    | zero =>
      obtain ⟨rfl, rfl⟩ := walk.zero
      exact sound.source.le
    | succ k =>
      obtain ⟨u, a, w, front, ⟨e, he, rfl, rfl⟩, rfl⟩ := walk.last
      have := fr.settled k a u front (by omega)
      have := fr.pass_relaxed pass he
      dsimp only
      omega
  case busy =>
    intro v hv
    rw [hout, mem v] at hv
    have leMax := fr.sound.le v
    obtain ⟨k, walk⟩ := sound.walk v (by omega)
    obtain ⟨d, leD, dist⟩ := exists_dist walk
    obtain ⟨m, short⟩ := dist.exists_shortest
    obtain ⟨d', dist', best, -⟩ := id short
    obtain rfl := dist.unique dist'
    refine ⟨v, m, short, ?_⟩
    -- the distance was not settled before the pass, so its walk has `hop` edges at least
    by_contra few
    dsimp only at few
    rw [pass.hop] at few
    have := fr.settled m d v best (by omega)
    omega

/-- With an empty worklist every edge is relaxed, and every walk is accounted for. -/
lemma Frontier.le_walk (fr : Frontier seed s) (done : running s = false) {k c : ℕ}
    {v : Fin G.nodes} (walk : Walk G.Edge seed k c v) : s.ret v ≤ c := by
  have none : s.inWl = [] :=
    List.eq_nil_of_length_eq_zero (Nat.eq_zero_of_not_pos (of_decide_eq_false done))
  induction walk with
  | start => exact fr.sound.source.le
  | @step k c u v w walk edge ih =>
    obtain ⟨e, he, rfl, rfl⟩ := edge
    have := fr.relaxed u (by simp [none]) e he
    omega

end

/-- The loop ends, within its `int`, with the distance of every vertex, or `WEIGHT_MAX` where that is
    smaller or the vertex cannot be reached; and no sum on the way wraps around. -/
theorem sssp_distances (G : CsrGraph) (small : G.nodes < 2 ^ 28)
    (weights : ∀ e, G.edgeValues e < 2 ^ 32) (seed : Fin G.nodes) :
    (∃ s fuel t, initSssp G seed = some s ∧ sssp fuel s = some t ∧
      (∀ v d, Dist G.Edge seed v d → t.ret v = min d weightMax) ∧
      (∀ v, ¬ Reachable G.Edge seed v → t.ret v = weightMax)) ∧
    ∀ node e s, AtEdge G seed node e s → s.ret node + G.edgeValues e < 2 ^ 64 := by
  obtain ⟨s, init⟩ := initSssp_eq_some small seed
  obtain ⟨fuel, t, loop, fr, done⟩ :=
    whileLoop_total (Frontier seed) (fun s => G.nodes + 1 - s.hop)
      (initSssp_frontier init) (by
        intro s fr run
        have le := fr.hop_le run
        obtain ⟨t, ht, frT, hop⟩ := fr.epoch small weights run
        exact ⟨t, ht, frT, by omega⟩)
  refine ⟨⟨s, fuel, t, init, loop, ?_, ?_⟩, fun _ _ _ h => (h.sound weights).sum_lt weights⟩
  · intro v d dist
    have leMax := fr.sound.le v
    obtain ⟨k, walk⟩ := dist.1
    have leD := fr.le_walk done walk
    rcases lt_or_eq_of_le leMax with lt | top
    · obtain ⟨k', walk'⟩ := fr.sound.walk v lt
      have := dist.le walk'
      omega
    · omega
  · intro v far
    rcases lt_or_eq_of_le (fr.sound.le v) with lt | top
    · obtain ⟨k, walk⟩ := fr.sound.walk v lt
      exact absurd ⟨k, _, walk⟩ far
    · exact top

/-- The sample, where the vertex 2 is not reached. -/
theorem sssp_distances_sample :
    (∃ s fuel t, initSssp .sample CsrGraph.sampleSeed = some s ∧ sssp fuel s = some t ∧
      (∀ v d, Dist CsrGraph.sample.Edge CsrGraph.sampleSeed v d → t.ret v = min d weightMax) ∧
      (∀ v, ¬ Reachable CsrGraph.sample.Edge CsrGraph.sampleSeed v → t.ret v = weightMax)) ∧
    ∀ node e s, AtEdge .sample CsrGraph.sampleSeed node e s →
      s.ret node + CsrGraph.sample.edgeValues e < 2 ^ 64 :=
  sssp_distances .sample (by decide) (by decide) CsrGraph.sampleSeed

example : ((initSssp .sample CsrGraph.sampleSeed).bind (sssp 9)).map (fun t => List.ofFn t.ret) =
    some [0, 4, weightMax] := by
  decide

end Sssp

end PromotionCache.Apps
