import PromotionCache.Apps.Sssp
import PromotionCache.Lib.Run
import Mathlib.Data.Fin.VecNotation

/-!
# The worklists of the shortest paths

`init_sssp` gives a worklist `5 * nodes` slots, and `sssp` appends a vertex whenever its distance goes
down, also several times in one pass. How many appends an entry of the worklist makes can be told
from the state before it (`gains`), and the program stays within its worklists exactly when every
entry finds that much room (`inBounds_iff`).
-/

namespace PromotionCache.Apps.Sssp
open Lib PromotionCache.Graph
variable {G : CsrGraph}

/-- Every write to a worklist is below its capacity. -/
def InBounds (G : CsrGraph) (seed : Fin G.nodes) : Prop :=
  ∀ node e s, AtEdge G seed node e s → newDist s node e < s.ret (G.edgeArray e) →
    s.outWl.length < 5 * G.nodes

/-- The distance of an entry when some of its edges have been looked at: a loop lowers it where the sum
    wraps around. -/
def ownDist (s : State G) (node : Fin G.nodes) (es : List (Fin G.edges)) : ℕ :=
  es.foldl
    (fun d e => if G.edgeArray e = node then min d (ulong (d + G.edgeValues e)) else d)
    (s.ret node)

/-- The distance that an edge of an entry offers to its end. -/
def offered (s : State G) (node : Fin G.nodes) (e : Fin G.edges) : ℕ :=
  ulong (ownDist s node ((G.edgesOf node).filter (· < e)) + G.edgeValues e)

/-- An edge of an entry offers less than its end has before the entry, and less than the parallel edges
    before it. -/
def Undercuts (s : State G) (node : Fin G.nodes) (e : Fin G.edges) : Prop :=
  offered s node e < s.ret (G.edgeArray e) ∧
    ∀ e' ∈ G.edgesOf node, e' < e → G.edgeArray e' = G.edgeArray e →
      offered s node e < offered s node e'

instance (s : State G) (node : Fin G.nodes) : DecidablePred (Undercuts s node) :=
  fun _ => inferInstanceAs (Decidable (_ ∧ _))

/-- The number of edges of an entry that undercut. -/
def gains (s : State G) (node : Fin G.nodes) : ℕ := (G.edgesOf node).countP (Undercuts s node)

section
variable {node : Fin G.nodes} {s t : State G} {e : Fin G.edges} {es : List (Fin G.edges)}

/-- The distances after an edge. -/
lemma relax_ret (v : Fin G.nodes) :
    (relax node t e).ret v =
      if v = G.edgeArray e then min (t.ret v) (newDist t node e) else t.ret v := by
  by_cases h : newDist t node e < t.ret (G.edgeArray e)
  · rw [relax_lower h]
    rcases eq_or_ne v (G.edgeArray e) with rfl | ne
    · simp [h.le]
    · simp [ne]
  · rw [relax_keep h]
    rcases eq_or_ne v (G.edgeArray e) with rfl | ne
    · simpa using Nat.not_lt.mp h
    · simp [ne]

/-- The distance of the vertex itself after one more of its edges. -/
lemma ownDist_snoc :
    ownDist s node (es ++ [e]) =
      if G.edgeArray e = node then
        min (ownDist s node es) (ulong (ownDist s node es + G.edgeValues e))
      else ownDist s node es := by
  simp [ownDist]

/-- The edges before one of the loop are the smaller ones. -/
lemma filter_lt_eq (pre : es ++ [e] <+: G.edgesOf node) :
    (G.edgesOf node).filter (· < e) = es := by
  have sorted := CsrGraph.edgesOf_pairwise (G := G) (v := node)
  obtain ⟨rest, eq⟩ := pre
  rw [← eq] at sorted ⊢
  rw [List.append_assoc, List.singleton_append, List.pairwise_append] at sorted
  obtain ⟨-, tail, cross⟩ := sorted
  have after := (List.pairwise_cons.mp tail).1
  have before : es.filter (· < e) = es := by
    rw [List.filter_eq_self]
    intro e' he'
    exact decide_eq_true (cross e' he' e List.mem_cons_self)
  have none : rest.filter (· < e) = [] := by
    rw [List.filter_eq_nil_iff]
    intro e' he'
    simpa using (after e' he').le
  simp [before, none]

/-- The entry when it has looked at the edges `es`: its own distance, all distances, and the index of
    the output worklist, from the state before it. -/
structure Offered (s : State G) (node : Fin G.nodes) (es : List (Fin G.edges)) (t : State G) :
    Prop where
  own : t.ret node = ownDist s node es
  lt_ret : ∀ c v, c < t.ret v ↔
    c < s.ret v ∧ ∀ e ∈ es, G.edgeArray e = v → c < offered s node e
  index : t.outWl.length = s.outWl.length + es.countP (Undercuts s node)

/-- The distance that an edge offers depends on the edges before it. -/
lemma Offered.newDist (of : Offered s node es t) (pre : es ++ [e] <+: G.edgesOf node) :
    newDist t node e = offered s node e := by
  rw [Sssp.newDist, of.own, offered, filter_lt_eq pre]

/-- The branch that appends is taken at the edges that undercut. -/
lemma Offered.lower_iff (of : Offered s node es t) (pre : es ++ [e] <+: G.edgesOf node) :
    Sssp.newDist t node e < t.ret (G.edgeArray e) ↔ Undercuts s node e := by
  have mem : ∀ e', (e' ∈ G.edgesOf node ∧ e' < e) ↔ e' ∈ es := by
    intro e'
    rw [← filter_lt_eq pre, List.mem_filter, decide_eq_true_iff]
  rw [of.newDist pre, of.lt_ret, Undercuts]
  refine and_congr_right fun _ => ?_
  constructor
  · intro h e' he' lt
    exact h e' ((mem e').mp ⟨he', lt⟩)
  · intro h e' he'
    obtain ⟨he, lt⟩ := (mem e').mpr he'
    exact h e' he lt

/-- One more edge is offered. -/
lemma Offered.snoc (of : Offered s node es t) (pre : es ++ [e] <+: G.edgesOf node) :
    Offered s node (es ++ [e]) (relax node t e) := by
  have iff := of.lower_iff pre
  have dist := of.newDist pre
  constructor
  case own =>
    rw [relax_ret, ownDist_snoc, ← of.own]
    simp only [eq_comm (a := node)]
    rfl
  case lt_ret =>
    intro c v
    rw [relax_ret, List.forall_mem_append, List.forall_mem_singleton, ← and_assoc, ← of.lt_ret,
      dist]
    rcases eq_or_ne v (G.edgeArray e) with rfl | ne
    · simp
    · simp [ne, ne.symm]
  case index =>
    rw [List.countP_append, List.countP_singleton]
    by_cases h : Sssp.newDist t node e < t.ret (G.edgeArray e)
    · rw [relax_lower h, if_pos (decide_eq_true (iff.mp h)), List.length_append, of.index]
      rfl
    · rw [relax_keep h, if_neg (by simpa using mt iff.mpr h), of.index]
      rfl

/-- The edges of an entry are offered one after the other. -/
lemma offered_foldl (pre : es <+: G.edgesOf node) :
    Offered s node es (es.foldl (relax node) s) := by
  induction es using List.reverseRecOn with
  | nil => exact ⟨rfl, by simp, rfl⟩
  | append_singleton es e ih =>
    rw [List.foldl_append]
    exact (ih ((List.prefix_append es [e]).trans pre)).snoc pre

end

/-- The writes of a run are within the worklists exactly when every entry with appends to make has room
    for all of them. -/
theorem inBounds_iff (G : CsrGraph) (seed : Fin G.nodes) :
    InBounds G seed ↔
      ∀ node s, AtEntry G seed node s → 0 < gains s node →
        s.outWl.length + gains s node ≤ 5 * G.nodes := by
  constructor
  · intro inb node s entry pos
    -- the last of the appends
    obtain ⟨es, e, pre, hit, count⟩ := exists_prefix_countP pos le_rfl
    have of := offered_foldl (s := s) ((List.prefix_append es [e]).trans pre)
    have lower := (of.lower_iff pre).mpr (of_decide_eq_true hit)
    have lt := inb node e _ ⟨s, es, entry, pre, rfl⟩ lower
    rw [of.index] at lt
    rw [List.countP_append, List.countP_singleton, if_pos hit] at count
    unfold gains at count ⊢
    omega
  · rintro room node e s ⟨start, es, entry, pre, rfl⟩ lower
    have of := offered_foldl (s := start) ((List.prefix_append es [e]).trans pre)
    have hit := decide_eq_true ((of.lower_iff pre).mp lower)
    have le := pre.sublist.countP_le (p := fun e => decide (Undercuts start node e))
    rw [List.countP_append, List.countP_singleton, if_pos hit] at le
    have fits := room node start entry (by unfold gains; omega)
    rw [of.index]
    unfold gains at fits
    omega

/-- The first of the parallel edges. -/
lemma shrinking_first : (![0, 11, 11] : Fin 3 → ℕ) 0 = 0 := rfl

/-- The last of them. -/
lemma shrinking_last : (![0, 11, 11] : Fin 3 → ℕ) (Fin.last 2) = 11 := rfl

/-- All of them are edges of the first vertex. -/
lemma shrinking_mono : Monotone (![0, 11, 11] : Fin 3 → ℕ) := Fin.monotone_iff_le_succ.mpr (by decide)

/-- Two vertices, and eleven edges from one to the other, each shorter than the ones before. -/
def shrinking : CsrGraph where
  nodes := 2
  edges := 11
  nodeArray := ![0, 11, 11]
  edgeArray := fun _ => ⟨1, Nat.one_lt_two⟩
  edgeValues := fun e => 10 - e
  first := shrinking_first
  last := shrinking_last
  mono := shrinking_mono

/-- The eleventh append of the first pass is one past the ten slots. -/
theorem shrinking_out_of_bounds : ¬ InBounds shrinking ⟨0, by decide⟩ := by
  intro inb
  have entry : AtEntry shrinking ⟨0, by decide⟩ ⟨0, by decide⟩ _ :=
    ⟨_, _, [], if_pos (by decide), .start, List.prefix_refl _, rfl⟩
  have edge : AtEdge shrinking ⟨0, by decide⟩ ⟨0, by decide⟩ ⟨10, by decide⟩ _ :=
    ⟨_, (shrinking.edgesOf ⟨0, by decide⟩).take 10, entry, by decide, rfl⟩
  exact absurd (inb _ _ _ edge (by decide)) (by decide)

end PromotionCache.Apps.Sssp
