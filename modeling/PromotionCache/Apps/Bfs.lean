import PromotionCache.Graph.Csr
import PromotionCache.Lib.Machine
import PromotionCache.Lib.While
import PromotionCache.Lib.Worklist
import Mathlib.Logic.Function.Basic

/-!
# Breadth-first search

`init_bfs` and `bfs` of `launch/bfs/bfs.h`, run by one thread. An operation returns `none` where the
program writes past the end of a worklist or an `int` overflows.

At the head of the loop `ret` holds the distances below `hop` and the input worklist is the level
`hop - 1` (`Levels`). A pass over the worklist visits the ends of its edges, and what it finds unset
is the next level (`Scanned`).
-/

namespace PromotionCache.Apps
open Lib PromotionCache.Graph

/-- `(unsigned long)-1` -/
def unset : ℕ := 2 ^ 64 - 1

namespace Bfs
variable {G : CsrGraph}

/-- The number of slots of either worklist. -/
abbrev capacity (G : CsrGraph) : Option ℕ := some (G.nodes * 2)

/-- What the two functions share. `appended` is no variable of the program: it lists every vertex
    written to a worklist, in the order of the writes. -/
structure State (G : CsrGraph) where
  ret : Fin G.nodes → ℕ
  inWl : Worklist (Fin G.nodes) (capacity G)
  outWl : Worklist (Fin G.nodes) (capacity G)
  hop : ℕ
  appended : List (Fin G.nodes)

/-- `init_bfs`; the size of the worklists is an `int`. -/
def initBfs (G : CsrGraph) (startSeed : Fin G.nodes) : Option (State G) :=
  if G.nodes * 2 < intBound then do
    let inWl ← Worklist.empty.push startSeed
    some
      { ret := Function.update (fun _ => unset) startSeed 0
        inWl
        outWl := .empty
        hop := 1
        appended := [startSeed] }
  else none

/-- The body of the loop over the edges of an entry. -/
def visit (s : State G) (e : Fin G.edges) : Option (State G) :=
  let edgeIndex := G.edgeArray e
  if s.ret edgeIndex = unset then do
    let outWl ← s.outWl.push edgeIndex
    some
      { s with
        ret := Function.update s.ret edgeIndex s.hop
        outWl
        appended := s.appended ++ [edgeIndex] }
  else some s

/-- The body of the `while`: a pass over the input worklist, then the swap. -/
def epoch (s : State G) : Option (State G) := do
  let t ← s.inWl.entries.foldlM (fun s node => (G.edgesOf node).foldlM visit s) s
  if t.hop + 1 < intBound then
    some { t with inWl := t.outWl, outWl := .empty, hop := t.hop + 1 }
  else none

/-- `*in_index > 0` -/
def running (s : State G) : Bool := 0 < s.inWl.index

/-- `bfs` -/
def bfs (fuel : ℕ) (s : State G) : Option (State G) := whileLoop running epoch fuel s

/-- What a pass from `s` has done when it has visited the edges `es`: the ends that were unset are at
    distance `hop`, and have been appended, each once. -/
structure Scanned (s : State G) (es : List (Fin G.edges)) (t : State G) : Prop where
  ret : ∀ v, t.ret v = if s.ret v = unset ∧ v ∈ es.map G.edgeArray then s.hop else s.ret v
  out : ∃ new, t.outWl.entries = s.outWl.entries ++ new ∧ t.appended = s.appended ++ new ∧
    new.Nodup ∧ ∀ v, v ∈ new ↔ s.ret v = unset ∧ v ∈ es.map G.edgeArray
  inWl : t.inWl = s.inWl
  hop : t.hop = s.hop

/-- A scan of no edge. -/
lemma Scanned.nil (s : State G) : Scanned s [] s :=
  ⟨by simp, ⟨[], by simp⟩, rfl, rfl⟩

variable {s t : State G} {es : List (Fin G.edges)} {e : Fin G.edges}

/-- An edge to a vertex that has its distance changes nothing. -/
lemma visit_known (h : t.ret (G.edgeArray e) ≠ unset) : visit t e = some t := by
  simp [visit, h]

/-- An edge to a new vertex sets its distance and appends it. -/
lemma visit_unset {wl} (h : t.ret (G.edgeArray e) = unset)
    (push : t.outWl.push (G.edgeArray e) = some wl) :
    visit t e = some
      { t with
        ret := Function.update t.ret (G.edgeArray e) t.hop
        outWl := wl
        appended := t.appended ++ [G.edgeArray e] } := by
  simp [visit, h, push]

/-- What is unset during the pass was so before it, and is not the end of an edge visited. -/
lemma Scanned.unset_iff (sc : Scanned s es t) (hop : s.hop ≠ unset) (v : Fin G.nodes) :
    t.ret v = unset ↔ s.ret v = unset ∧ v ∉ es.map G.edgeArray := by
  rw [sc.ret v]
  split
  case isTrue h => simp [hop, h]
  case isFalse h =>
    constructor
    · exact fun old => ⟨old, fun m => h ⟨old, m⟩⟩
    · exact fun old => old.1

/-- One more edge, whose end is unset. The output worklist has room, since it holds no vertex twice. -/
lemma Scanned.fresh (sc : Scanned s es t) (hop : s.hop ≠ unset) (empty : s.outWl.entries = [])
    (h : t.ret (G.edgeArray e) = unset) :
    ∃ u, visit t e = some u ∧ Scanned s (es ++ [e]) u := by
  obtain ⟨new, hout, happ, nodup, mem⟩ := sc.out
  obtain ⟨old, notMem⟩ := (sc.unset_iff hop _).mp h
  have room : ∀ c ∈ capacity G, t.outWl.index < c := by
    have le := nodup.length_le_card
    have pos := (G.edgeArray e).isLt
    rintro c ⟨⟩
    rw [Fintype.card_fin] at le
    rw [Worklist.index, hout, empty, List.nil_append]
    omega
  obtain ⟨wl, push, entries⟩ := Worklist.exists_push room (G.edgeArray e)
  refine ⟨_, visit_unset h push, ?_, ⟨new ++ [G.edgeArray e], ?_, ?_, ?_, ?_⟩, sc.inWl, sc.hop⟩
  · intro v
    simp only [List.map_append, List.map_singleton, List.mem_append, List.mem_singleton]
    by_cases hv : v = G.edgeArray e
    · subst hv
      simp [old, sc.hop]
    · simp [hv, sc.ret v]
  · rw [entries, hout, List.append_assoc]
  · rw [happ, List.append_assoc]
  · rw [← List.concat_eq_append]
    exact nodup.concat fun m => notMem ((mem _).mp m).2
  · intro v
    simp only [List.map_append, List.map_singleton, List.mem_append, List.mem_singleton, mem]
    constructor
    · rintro (h | rfl)
      · exact ⟨h.1, .inl h.2⟩
      · exact ⟨old, .inr rfl⟩
    · rintro ⟨h, hm | rfl⟩
      · exact .inl ⟨h, hm⟩
      · exact .inr rfl

/-- One more edge, whose end has a distance, from before the pass or from an edge before. -/
lemma Scanned.known (sc : Scanned s es t) (hop : s.hop ≠ unset)
    (h : t.ret (G.edgeArray e) ≠ unset) : Scanned s (es ++ [e]) t := by
  have same : ∀ v, (s.ret v = unset ∧ v ∈ (es ++ [e]).map G.edgeArray) ↔
      (s.ret v = unset ∧ v ∈ es.map G.edgeArray) := by
    intro v
    simp only [List.map_append, List.map_singleton, List.mem_append, List.mem_singleton]
    constructor
    · rintro ⟨old, hm | rfl⟩
      · exact ⟨old, hm⟩
      · exact ⟨old, by_contra fun m => h ((sc.unset_iff hop _).mpr ⟨old, m⟩)⟩
    · rintro ⟨old, hm⟩
      exact ⟨old, .inl hm⟩
  obtain ⟨new, hout, happ, nodup, mem⟩ := sc.out
  refine ⟨?_, ⟨new, hout, happ, nodup, ?_⟩, sc.inWl, sc.hop⟩
  · intro v
    simp only [same v, sc.ret v]
  · intro v
    rw [same v, mem v]

/-- The edges of an entry are scanned without leaving the worklist. -/
lemma scan_total (hop : s.hop ≠ unset) (empty : s.outWl.entries = [])
    (es : List (Fin G.edges)) : ∃ t, es.foldlM visit s = some t ∧ Scanned s es t := by
  induction es using List.reverseRecOn with
  | nil => exact ⟨s, rfl, .nil s⟩
  | append_singleton es e ih =>
    obtain ⟨t, ht, sc⟩ := ih
    by_cases h : t.ret (G.edgeArray e) = unset
    · obtain ⟨u, hu, sc'⟩ := sc.fresh hop empty h
      exact ⟨u, by simp [ht, hu], sc'⟩
    · exact ⟨t, by simp [ht, visit_known h], sc.known hop h⟩

/-- The distances known at the head of the loop. -/
structure Levels (seed : Fin G.nodes) (s : State G) : Prop where
  pos : 1 ≤ s.hop
  ret : ∀ v d, Hops G.Edge seed v d → s.ret v = if d < s.hop then d else unset
  unreached : ∀ v, ¬ Reachable G.Edge seed v → s.ret v = unset
  front : ∀ v, v ∈ s.inWl.entries ↔ ∃ d, d + 1 = s.hop ∧ Hops G.Edge seed v d
  out : s.outWl.entries = []
  nodup : s.appended.Nodup
  appended : ∀ v, v ∈ s.appended ↔ ∃ d, d < s.hop ∧ Hops G.Edge seed v d

section
variable {seed : Fin G.nodes} {s t : State G}

/-- A graph with fewer than `2 ^ 30` vertices is taken, and its seed is the first level. -/
lemma initBfs_eq_some (small : G.nodes < 2 ^ 30) (seed : Fin G.nodes) :
    ∃ s, initBfs G seed = some s ∧ Levels seed s := by
  have pos := seed.isLt
  have bound : G.nodes * 2 < intBound := by
    unfold intBound
    omega
  have room : ∀ c ∈ capacity G, (Worklist.empty : Worklist (Fin G.nodes) (capacity G)).index < c := by
    rintro c ⟨⟩
    rw [Worklist.index, Worklist.empty_entries, List.length_nil]
    omega
  obtain ⟨wl, push, entries⟩ := Worklist.exists_push room seed
  refine ⟨_, by simp only [initBfs, bound, if_true, push]; rfl, ⟨le_rfl, ?_, ?_, ?_, rfl, ?_, ?_⟩⟩
  · intro v d hv
    by_cases e : v = seed
    · subst e
      simp [hv.unique hops_source]
    · have : d ≠ 0 := by
        rintro rfl
        exact e hv.eq_source
      simp [e, this]
  · intro v hv
    have : v ≠ seed := by
      rintro rfl
      exact hv ⟨0, 0, .start⟩
    simp [this]
  · intro v
    simp only [entries, Worklist.empty_entries, List.nil_append, List.mem_singleton]
    constructor
    · rintro rfl
      exact ⟨0, rfl, hops_source⟩
    · rintro ⟨d, hd, hv⟩
      obtain rfl : d = 0 := by omega
      exact hv.eq_source
  · exact List.nodup_singleton _
  · intro v
    simp only [List.mem_singleton]
    constructor
    · rintro rfl
      exact ⟨0, Nat.one_pos, hops_source⟩
    · rintro ⟨d, hd, hv⟩
      obtain rfl : d = 0 := by omega
      exact hv.eq_source

/-- A vertex of a distance is not unset: there are fewer distances than vertices. -/
lemma Levels.ret_eq_unset (lv : Levels seed s) (small : G.nodes < 2 ^ 30) (v : Fin G.nodes) :
    s.ret v = unset ↔ ∀ d, Hops G.Edge seed v d → s.hop ≤ d := by
  constructor
  · intro h d hd
    have lt := hd.lt_card
    rw [lv.ret v d hd, Fintype.card_fin] at *
    split at h
    · unfold unset at h
      omega
    · omega
  · intro h
    by_cases r : Reachable G.Edge seed v
    · obtain ⟨k, c, walk⟩ := r
      obtain ⟨d, -, hd⟩ := exists_hops walk
      have := h d hd
      rw [lv.ret v d hd, if_neg (by omega)]
    · exact lv.unreached v r

/-- The unset ends of the edges of a level are the next level. -/
lemma Levels.next (lv : Levels seed s) (small : G.nodes < 2 ^ 30) (v : Fin G.nodes) :
    (s.ret v = unset ∧ v ∈ ((G.scan s.inWl.entries).map Prod.snd).map G.edgeArray) ↔
      Hops G.Edge seed v s.hop := by
  have target : v ∈ ((G.scan s.inWl.entries).map Prod.snd).map G.edgeArray ↔
      ∃ u ∈ s.inWl.entries, ∃ w, G.Edge u v w := by
    simp only [List.map_map, List.mem_map, Prod.exists, CsrGraph.mem_scan, Function.comp_apply,
      CsrGraph.Edge]
    constructor
    · rintro ⟨u, e, ⟨hu, he⟩, rfl⟩
      exact ⟨u, hu, _, e, he, rfl, rfl⟩
    · rintro ⟨u, hu, w, e, he, ht, -⟩
      exact ⟨u, e, ⟨hu, he⟩, ht⟩
  rw [target, lv.ret_eq_unset small v]
  constructor
  · rintro ⟨far, u, hu, w, e⟩
    obtain ⟨d, hd, hops⟩ := (lv.front u).mp hu
    obtain ⟨k, le, hk⟩ := hops.step e
    have := far k hk
    obtain rfl : k = s.hop := by omega
    exact hk
  · intro hv
    refine ⟨fun d hd => (hd.unique hv).ge, ?_⟩
    obtain ⟨k, hk⟩ : ∃ k, s.hop = k + 1 := ⟨s.hop - 1, by have := lv.pos; omega⟩
    rw [hk] at hv
    obtain ⟨u, w, hu, e⟩ := hv.pred
    exact ⟨u, (lv.front u).mpr ⟨k, hk.symm, hu⟩, w, e⟩

/-- There are no more levels than vertices. -/
lemma Levels.hop_le (lv : Levels seed s) (run : running s = true) : s.hop ≤ G.nodes := by
  have pos := of_decide_eq_true run
  obtain ⟨v, hv⟩ := List.exists_mem_of_length_pos pos
  obtain ⟨d, hd, hops⟩ := (lv.front v).mp hv
  have := hops.lt_card
  rw [Fintype.card_fin] at this
  omega

/-- One epoch goes one level on. -/
lemma Levels.epoch (lv : Levels seed s) (small : G.nodes < 2 ^ 30) (run : running s = true) :
    ∃ t, epoch s = some t ∧ Levels seed t ∧ t.hop = s.hop + 1 := by
  have le := lv.hop_le run
  have hop : s.hop ≠ unset := by
    unfold unset
    omega
  obtain ⟨t, ht, sc⟩ := scan_total hop lv.out ((G.scan s.inWl.entries).map Prod.snd)
  rw [List.foldlM_map] at ht
  obtain ⟨new, hout, happ, nodup, mem⟩ := sc.out
  rw [lv.out, List.nil_append] at hout
  have memNew : ∀ v, v ∈ new ↔ Hops G.Edge seed v s.hop := fun v =>
    (mem v).trans (lv.next small v)
  have hit : ∀ v, Hops G.Edge seed v s.hop → t.ret v = s.hop := fun v h => by
    rw [sc.ret v, if_pos ((lv.next small v).mpr h)]
  have miss : ∀ v, ¬ Hops G.Edge seed v s.hop → t.ret v = s.ret v := fun v h => by
    rw [sc.ret v, if_neg fun m => h ((lv.next small v).mp m)]
  have bound : t.hop + 1 < intBound := by
    rw [sc.hop]
    unfold intBound
    omega
  refine ⟨{ t with inWl := t.outWl, outWl := .empty, hop := t.hop + 1 }, ?_, ?_, by simp [sc.hop]⟩
  · have flat := CsrGraph.foldlM_scan (fun _ => visit) s.inWl.entries s
    rw [Bfs.epoch, flat, ht]
    exact if_pos bound
  constructor
  case pos => simp
  case ret =>
    intro v d hv
    simp only [sc.hop]
    by_cases e : d = s.hop
    · subst e
      rw [hit v hv, if_pos (Nat.lt_succ_self _)]
    · have iff : d < s.hop + 1 ↔ d < s.hop := by omega
      rw [miss v fun h => e (hv.unique h), lv.ret v d hv]
      simp only [iff]
  case unreached =>
    intro v hv
    exact (miss v fun h => hv h.reachable).trans (lv.unreached v hv)
  case front =>
    intro v
    simp only [hout, memNew, sc.hop, Nat.add_right_cancel_iff, exists_eq_left]
  case out => rfl
  case nodup =>
    simp only [happ, List.nodup_append]
    refine ⟨lv.nodup, nodup, ?_⟩
    rintro v hv v' hv' rfl
    obtain ⟨d, lt, hd⟩ := (lv.appended v).mp hv
    have := hd.unique ((memNew v).mp hv')
    omega
  case appended =>
    intro v
    simp only [happ, List.mem_append, lv.appended v, memNew, sc.hop]
    constructor
    · rintro (⟨d, lt, hd⟩ | hd)
      · exact ⟨d, by omega, hd⟩
      · exact ⟨s.hop, by omega, hd⟩
    · rintro ⟨d, lt, hd⟩
      rcases Nat.lt_or_ge d s.hop with below | top
      · exact .inl ⟨d, below, hd⟩
      · obtain rfl : d = s.hop := by omega
        exact .inr hd

/-- When no vertex is left in the worklist, the distances are complete. -/
lemma Levels.complete (lv : Levels seed s) (done : running s = false) {v : Fin G.nodes} {d : ℕ}
    (h : Hops G.Edge seed v d) : d < s.hop := by
  have none : s.inWl.entries = [] :=
    List.eq_nil_of_length_eq_zero (Nat.eq_zero_of_not_pos (of_decide_eq_false done))
  obtain ⟨k, hk⟩ : ∃ k, s.hop = k + 1 := ⟨s.hop - 1, by have := lv.pos; omega⟩
  have empty : ∀ u, ¬ Hops G.Edge seed u k := by
    intro u hu
    have := (lv.front u).mpr ⟨k, hk.symm, hu⟩
    rw [none] at this
    cases this
  have := h.lt_of_none empty
  omega

end

/-- The search ends, within its worklists and its `int`, with the distance of every vertex that can be
    reached and -1 at the others. No vertex is written to a worklist twice, so that all writes
    together are fewer than a worklist has slots. -/
theorem bfs_distances (G : CsrGraph) (small : G.nodes < 2 ^ 30) (seed : Fin G.nodes) :
    ∃ s fuel t, initBfs G seed = some s ∧ bfs fuel s = some t ∧
      (∀ v d, Hops G.Edge seed v d → t.ret v = d) ∧
      (∀ v, ¬ Reachable G.Edge seed v → t.ret v = unset) ∧
      t.appended.Nodup ∧ t.appended.length < G.nodes * 2 := by
  obtain ⟨s, init, lv⟩ := initBfs_eq_some small seed
  obtain ⟨fuel, t, loop, lvT, done⟩ :=
    whileLoop_total (Levels seed) (fun s => G.nodes + 1 - s.hop) lv (by
      intro s lv run
      have le := lv.hop_le run
      obtain ⟨t, ht, lvT, hop⟩ := lv.epoch small run
      exact ⟨t, ht, lvT, by omega⟩)
  refine ⟨s, fuel, t, init, loop, ?_, lvT.unreached, lvT.nodup, ?_⟩
  · intro v d hv
    rw [lvT.ret v d hv, if_pos (lvT.complete done hv)]
  · have le := lvT.nodup.length_le_card
    have pos := seed.isLt
    rw [Fintype.card_fin] at le
    omega

/-- The sample, where the vertex 2 is not reached. -/
theorem bfs_distances_sample :
    ∃ s fuel t, initBfs .sample CsrGraph.sampleSeed = some s ∧ bfs fuel s = some t ∧
      (∀ v d, Hops CsrGraph.sample.Edge CsrGraph.sampleSeed v d → t.ret v = d) ∧
      (∀ v, ¬ Reachable CsrGraph.sample.Edge CsrGraph.sampleSeed v → t.ret v = unset) ∧
      t.appended.Nodup ∧ t.appended.length < CsrGraph.sample.nodes * 2 :=
  bfs_distances .sample (by decide) CsrGraph.sampleSeed

example : ((initBfs .sample CsrGraph.sampleSeed).bind (bfs 9)).map (fun t => List.ofFn t.ret) =
    some [0, 1, unset] := by
  decide

end Bfs

end PromotionCache.Apps
