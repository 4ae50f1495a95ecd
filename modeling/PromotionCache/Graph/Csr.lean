import PromotionCache.Lib.Walk
import Mathlib.Data.List.FinRange
import Mathlib.Data.Fin.VecNotation
import Mathlib.Order.Fin.Basic

/-!
# CSR graphs

`csr_graph` of `graph.h`, with what the applications rely on as fields: `node_array` goes from 0 to
`edges` without going down, and `edge_array` holds vertices. The out-edges of a vertex are the
indices between its entry of `node_array` and the next one, in the order of the loops over them.
-/

namespace PromotionCache.Graph
open Lib

/-- `csr_graph` -/
structure CsrGraph where
  nodes : ℕ
  edges : ℕ
  nodeArray : Fin (nodes + 1) → ℕ
  edgeArray : Fin edges → Fin nodes
  edgeValues : Fin edges → ℕ
  first : nodeArray 0 = 0
  last : nodeArray (Fin.last nodes) = edges
  mono : Monotone nodeArray

namespace CsrGraph
variable (G : CsrGraph)

/-- The offsets are within the edges. -/
lemma nodeArray_le (i : Fin (G.nodes + 1)) : G.nodeArray i ≤ G.edges := by
  have h := G.mono (Fin.le_last i)
  rwa [G.last] at h

/-- `for (e = node_array[v]; e < node_array[v+1]; e++)` -/
def edgesOf (v : Fin G.nodes) : List (Fin G.edges) :=
  (List.finRange (G.nodeArray v.succ - G.nodeArray v.castSucc)).map fun i : Fin _ =>
    ⟨G.nodeArray v.castSucc + i, by
      have := G.nodeArray_le v.succ
      omega⟩

/-- `node_array[v+1]-node_array[v]` -/
def outdegree (v : Fin G.nodes) : ℕ := G.nodeArray v.succ - G.nodeArray v.castSucc

/-- The ends of the out-edges. -/
def targets (v : Fin G.nodes) : List (Fin G.nodes) := (G.edgesOf v).map G.edgeArray

/-- `w` is the value of an edge from `u` to `v`. -/
def Edge (u v : Fin G.nodes) (w : ℕ) : Prop :=
  ∃ e ∈ G.edgesOf u, G.edgeArray e = v ∧ G.edgeValues e = w

/-- The edges that a pass over the vertices of a list visits, each with its source. -/
def scan (wl : List (Fin G.nodes)) : List (Fin G.nodes × Fin G.edges) :=
  wl.flatMap fun u => (G.edgesOf u).map (Prod.mk u)

variable {G} {u v : Fin G.nodes} {e : Fin G.edges} {wl : List (Fin G.nodes)}

/-- The edges of a vertex lie between its two offsets. -/
lemma mem_edgesOf :
    e ∈ G.edgesOf v ↔ G.nodeArray v.castSucc ≤ e ∧ e.val < G.nodeArray v.succ := by
  simp only [edgesOf, List.mem_map, List.mem_finRange, true_and, Fin.ext_iff]
  constructor
  · rintro ⟨i, hi⟩
    omega
  · rintro ⟨le, lt⟩
    exact ⟨⟨e - G.nodeArray v.castSucc, by omega⟩, by dsimp; omega⟩

/-- There are as many of them as its outdegree. -/
lemma length_edgesOf : (G.edgesOf v).length = G.outdegree v := by
  simp [edgesOf, outdegree]

/-- So are its targets. -/
lemma length_targets : (G.targets v).length = G.outdegree v := by
  rw [targets, List.length_map, length_edgesOf]

/-- The loop visits the edges in ascending order. -/
lemma edgesOf_pairwise : (G.edgesOf v).Pairwise (· < ·) := by
  rw [edgesOf, List.pairwise_map]
  refine (List.pairwise_lt_finRange _).imp ?_
  intro i j lt
  exact Nat.add_lt_add_left lt _

/-- What the loop visits is an edge of the graph. -/
lemma edge_of_mem (h : e ∈ G.edgesOf u) : G.Edge u (G.edgeArray e) (G.edgeValues e) :=
  ⟨e, h, rfl, rfl⟩

/-- A scan visits the edges of the entries. -/
@[simp] lemma mem_scan : (u, e) ∈ G.scan wl ↔ u ∈ wl ∧ e ∈ G.edgesOf u := by
  simp only [scan, List.mem_flatMap, List.mem_map, Prod.mk.injEq]
  constructor
  · rintro ⟨u', hu', e', he', rfl, rfl⟩
    exact ⟨hu', he'⟩
  · rintro ⟨hu, he⟩
    exact ⟨u, hu, e, he, rfl, rfl⟩

/-- It visits none of them twice. -/
lemma nodup_scan (nodup : wl.Nodup) : (G.scan wl).Nodup := by
  rw [scan, List.nodup_flatMap]
  constructor
  · intro u _
    have edges : (G.edgesOf u).Nodup := edgesOf_pairwise.imp fun lt => Fin.ne_of_lt lt
    exact edges.map (Prod.mk_right_injective u)
  · refine nodup.imp ?_
    intro u v ne ue hu hv
    obtain ⟨_, _, rfl⟩ := List.mem_map.mp hu
    obtain ⟨_, _, e⟩ := List.mem_map.mp hv
    exact ne (Prod.mk.inj e).1.symm

/-- Every edge is one of some vertex. -/
lemma exists_mem_edgesOf (e : Fin G.edges) : ∃ v, e ∈ G.edgesOf v := by
  have upTo : ∀ i, e.val < G.nodeArray i → ∃ v, e ∈ G.edgesOf v := by
    intro i
    induction i using Fin.induction with
    | zero =>
      intro lt
      rw [G.first] at lt
      exact absurd lt (Nat.not_lt_zero _)
    | succ v ih =>
      intro lt
      rcases Nat.lt_or_ge e.val (G.nodeArray v.castSucc) with before | here
      · exact ih before
      · exact ⟨v, mem_edgesOf.mpr ⟨here, lt⟩⟩
  apply upTo (Fin.last G.nodes)
  rw [G.last]
  exact e.isLt

/-- The edges of the vertices do not overlap. -/
lemma le_of_mem_edgesOf (hu : e ∈ G.edgesOf u) (hv : e ∈ G.edgesOf v) : u ≤ v := by
  by_contra lt
  have above : v.succ ≤ u.castSucc := Fin.le_castSucc_iff.mpr (Fin.succ_lt_succ_iff.mpr (not_le.mp lt))
  have le := G.mono above
  have high := (mem_edgesOf.mp hv).2
  have low := (mem_edgesOf.mp hu).1
  omega

/-- A pass over all vertices visits every edge once. -/
lemma length_scan : (G.scan (List.finRange G.nodes)).length = G.edges := by
  have nodup : ((G.scan (List.finRange G.nodes)).map Prod.snd).Nodup := by
    refine (nodup_scan (List.nodup_finRange _)).map_on ?_
    rintro ⟨u, e⟩ hu ⟨v, e'⟩ hv same
    obtain rfl : e = e' := same
    have mu := (mem_scan.mp hu).2
    have mv := (mem_scan.mp hv).2
    rw [le_antisymm (le_of_mem_edgesOf mu mv) (le_of_mem_edgesOf mv mu)]
  have perm := (List.perm_ext_iff_of_nodup nodup (List.nodup_finRange G.edges)).mpr fun e => by
    obtain ⟨u, h⟩ := G.exists_mem_edgesOf e
    have mem : (u, e) ∈ G.scan (List.finRange G.nodes) := mem_scan.mpr ⟨List.mem_finRange u, h⟩
    exact iff_of_true (List.mem_map.mpr ⟨_, mem, rfl⟩) (List.mem_finRange e)
  have len := perm.length_eq
  rwa [List.length_map, List.length_finRange] at len

/-- A bound of the degrees bounds the number of edges. -/
lemma edges_le {d : ℕ} (le : ∀ v, G.outdegree v ≤ d) : G.edges ≤ G.nodes * d := by
  have upTo : ∀ i : Fin (G.nodes + 1), G.nodeArray i ≤ i * d := by
    intro i
    induction i using Fin.induction with
    | zero =>
      rw [G.first]
      exact Nat.zero_le _
    | succ v ih =>
      have here := le v
      rw [outdegree] at here
      rw [Fin.val_succ, Nat.succ_mul]
      rw [Fin.val_castSucc] at ih
      omega
  have all := upTo (Fin.last G.nodes)
  rwa [G.last, Fin.val_last] at all

/-- Two nested loops, over a worklist and over the edges of each entry, are one loop. -/
lemma foldlM_scan {S : Type*} (step : Fin G.nodes → S → Fin G.edges → Option S)
    (wl : List (Fin G.nodes)) (s : S) :
    wl.foldlM (fun s u => (G.edgesOf u).foldlM (step u) s) s =
      (G.scan wl).foldlM (fun s ue => step ue.1 s ue.2) s := by
  induction wl generalizing s with
  | nil => rfl
  | cons u wl ih =>
    have e : G.scan (u :: wl) = (G.edgesOf u).map (Prod.mk u) ++ G.scan wl := rfl
    rw [e, List.foldlM_append, List.foldlM_map, List.foldlM_cons]
    exact bind_congr fun t => ih t

/-- Parallel edges from 0 to 1, a loop at 1, and a vertex 2 by itself. -/
def sample : CsrGraph where
  nodes := 3
  edges := 3
  nodeArray := ![0, 2, 3, 3]
  edgeArray := ![1, 1, 1]
  edgeValues := ![5, 4, 0]
  first := rfl
  last := rfl
  mono := Fin.monotone_iff_le_succ.mpr (by decide)

/-- A vertex from which not all others are reached. -/
def sampleSeed : Fin sample.nodes := ⟨0, by decide⟩

end CsrGraph

end PromotionCache.Graph
