import Mathlib.Order.Bounds.Basic
import Mathlib.Data.Fintype.Card
import Mathlib.Tactic.Common

/-!
# Walks in a weighted graph

A graph is its relation of weighted edges; it may have loops, parallel edges and edges of weight
zero. `Walk` counts the edges of a walk from a source and adds their weights. From it come the two
distances, by number of edges (`Hops`) and by weight (`Dist`), and the number of edges that a walk
of least weight needs (`Shortest`). Both counts go down by one at some vertex before, so that they
stay below the number of vertices (`lt_card_of_pred`).
-/

namespace PromotionCache.Lib

variable {V : Type*}

/-- A walk from `s` to a vertex, with the number of its edges and its weight. -/
inductive Walk (edge : V → V → ℕ → Prop) (s : V) : ℕ → ℕ → V → Prop where
  | start : Walk edge s 0 0 s
  | step {k c u v w} :
    Walk edge s k c u →
    edge u v w →
    Walk edge s (k + 1) (c + w) v

/-- The least number of edges of a walk from `s` to `v`. -/
def Hops (edge : V → V → ℕ → Prop) (s v : V) (k : ℕ) : Prop :=
  IsLeast {k | ∃ c, Walk edge s k c v} k

/-- The least weight of a walk from `s` to `v`. -/
def Dist (edge : V → V → ℕ → Prop) (s v : V) (d : ℕ) : Prop :=
  IsLeast {c | ∃ k, Walk edge s k c v} d

/-- The least number of edges of a walk of least weight. -/
def Shortest (edge : V → V → ℕ → Prop) (s v : V) (k : ℕ) : Prop :=
  ∃ d, Dist edge s v d ∧ IsLeast {k | Walk edge s k d v} k

/-- There is a walk from `s` to `v`. -/
def Reachable (edge : V → V → ℕ → Prop) (s v : V) : Prop := ∃ k c, Walk edge s k c v

/-- A set of numbers with an element has a least one. -/
lemma exists_isLeast {P : Set ℕ} {n : ℕ} (h : n ∈ P) : ∃ m ≤ n, IsLeast P m := by
  classical
  have ex : ∃ n, n ∈ P := ⟨n, h⟩
  refine ⟨Nat.find ex, Nat.find_min' ex h, Nat.find_spec ex, ?_⟩
  intro m hm
  exact Nat.find_min' ex hm

/-- A count that no vertex has twice, and that goes down by one at some vertex before, stays below
    the number of vertices. -/
lemma lt_card_of_pred [Fintype V] {L : V → ℕ → Prop} (det : ∀ v k l, L v k → L v l → k = l)
    (pred : ∀ v k, L v (k + 1) → ∃ u, L u k) {v : V} {k : ℕ} (h : L v k) :
    k < Fintype.card V := by
  have down : ∀ j i u, L u (i + j) → ∃ u', L u' i := by
    intro j
    induction j with
    | zero => exact fun i u hu => ⟨u, hu⟩
    | succ j ih =>
      intro i u hu
      obtain ⟨u', hu'⟩ := pred u (i + j) hu
      exact ih i u' hu'
  have all : ∀ i : Fin (k + 1), ∃ u, L u i := by
    intro i
    have e : i + (k - i) = k := by omega
    exact down (k - i) i v (by rwa [e])
  choose f hf using all
  have inj : Function.Injective f := by
    intro i j e
    exact Fin.ext (det (f i) i j (hf i) (e ▸ hf j))
  have := Fintype.card_le_of_injective f inj
  rw [Fintype.card_fin] at this
  omega

variable {edge : V → V → ℕ → Prop} {s u v : V} {k l c d w : ℕ}

/-- A walk of no step ends where it starts. -/
lemma Walk.zero (h : Walk edge s 0 c v) : v = s ∧ c = 0 := by
  cases h
  exact ⟨rfl, rfl⟩

/-- The last edge of a walk. -/
lemma Walk.last (h : Walk edge s (k + 1) c v) :
    ∃ u a w, Walk edge s k a u ∧ edge u v w ∧ c = a + w := by
  cases h with
  | step walk e => exact ⟨_, _, _, walk, e, rfl⟩

/-- The number of hops is determined. -/
lemma Hops.unique (h : Hops edge s v k) (h' : Hops edge s v l) : k = l := IsLeast.unique h h'

/-- What a walk reaches has a number of hops. -/
lemma exists_hops (h : Walk edge s k c v) : ∃ d ≤ k, Hops edge s v d :=
  exists_isLeast (P := {k | ∃ c, Walk edge s k c v}) ⟨c, h⟩

/-- No walk is shorter. -/
lemma Hops.le (h : Hops edge s v d) (walk : Walk edge s k c v) : d ≤ k := h.2 ⟨c, walk⟩

/-- What has a number of hops is reachable. -/
lemma Hops.reachable (h : Hops edge s v k) : Reachable edge s v := by
  obtain ⟨c, walk⟩ := h.1
  exact ⟨k, c, walk⟩

/-- The source has no hop. -/
lemma hops_source : Hops edge s s 0 := ⟨⟨0, .start⟩, fun _ _ => Nat.zero_le _⟩

/-- Only the source has none. -/
lemma Hops.eq_source (h : Hops edge s v 0) : v = s := by
  obtain ⟨c, walk⟩ := h.1
  exact walk.zero.1

/-- An edge leads at most one level on. -/
lemma Hops.step (h : Hops edge s u k) (e : edge u v w) : ∃ d ≤ k + 1, Hops edge s v d := by
  obtain ⟨c, walk⟩ := h.1
  exact exists_hops (walk.step e)

/-- A vertex of one level is the end of an edge from the level before. -/
lemma Hops.pred (h : Hops edge s v (k + 1)) : ∃ u w, Hops edge s u k ∧ edge u v w := by
  obtain ⟨c, walk⟩ := h.1
  obtain ⟨u, a, w, walk, e, -⟩ := walk.last
  obtain ⟨d, le, hu⟩ := exists_hops walk
  obtain ⟨d', le', hv⟩ := hu.step e
  have := h.unique hv
  obtain rfl : d = k := by omega
  exact ⟨u, w, hu, e⟩

/-- Above an empty level all levels are empty. -/
lemma Hops.lt_of_none (none : ∀ u, ¬ Hops edge s u k) (h : Hops edge s v d) : d < k := by
  induction d generalizing v with
  | zero =>
    rcases Nat.eq_zero_or_pos k with rfl | pos
    · exact absurd h (none v)
    · exact pos
  | succ d ih =>
    obtain ⟨u, w, hu, -⟩ := h.pred
    rcases Nat.lt_or_eq_of_le (Nat.succ_le_of_lt (ih hu)) with lt | rfl
    · exact lt
    · exact absurd h (none v)

/-- There are fewer hops than vertices. -/
lemma Hops.lt_card [Fintype V] (h : Hops edge s v k) : k < Fintype.card V := by
  refine lt_card_of_pred (L := Hops edge s) (fun v k l => Hops.unique) ?_ h
  intro v k hv
  obtain ⟨u, _, hu, _⟩ := hv.pred
  exact ⟨u, hu⟩

/-- The distance is determined. -/
lemma Dist.unique (h : Dist edge s v c) (h' : Dist edge s v d) : c = d := IsLeast.unique h h'

/-- What a walk reaches has a distance. -/
lemma exists_dist (h : Walk edge s k c v) : ∃ d ≤ c, Dist edge s v d :=
  exists_isLeast (P := {c | ∃ k, Walk edge s k c v}) ⟨k, h⟩

/-- No walk is lighter. -/
lemma Dist.le (h : Dist edge s v d) (walk : Walk edge s k c v) : d ≤ c := h.2 ⟨k, walk⟩

/-- A vertex with a distance has a lightest walk with fewest steps. -/
lemma Dist.exists_shortest (h : Dist edge s v d) : ∃ k, Shortest edge s v k := by
  obtain ⟨k, walk⟩ := h.1
  obtain ⟨m, -, least⟩ := exists_isLeast (P := {k | Walk edge s k d v}) walk
  exact ⟨m, d, h, least⟩

/-- Its number of steps is determined. -/
lemma Shortest.unique (h : Shortest edge s v k) (h' : Shortest edge s v l) : k = l := by
  obtain ⟨d, hd, least⟩ := h
  obtain ⟨d', hd', least'⟩ := h'
  obtain rfl := hd.unique hd'
  exact least.unique least'

/-- The lightest walk to the source has no step. -/
lemma shortest_source : Shortest edge s s 0 :=
  ⟨0, ⟨⟨0, .start⟩, fun _ _ => Nat.zero_le _⟩, .start, fun _ _ => Nat.zero_le _⟩

/-- Every walk of least weight comes through a walk of least weight. -/
lemma Shortest.pred (h : Shortest edge s v (k + 1)) : ∃ u, Shortest edge s u k := by
  obtain ⟨d, dist, walk, least⟩ := h
  obtain ⟨u, a, w, front, e, rfl⟩ := Walk.last walk
  have distU : Dist edge s u a := by
    refine ⟨⟨k, front⟩, ?_⟩
    rintro a' ⟨k', walk'⟩
    have := dist.le (walk'.step e)
    omega
  refine ⟨u, a, distU, front, ?_⟩
  intro k' walk'
  have longer : Walk edge s (k' + 1) (a + w) v := Walk.step walk' e
  have := least longer
  omega

/-- A lightest walk has fewer steps than there are vertices. -/
lemma Shortest.lt_card [Fintype V] (h : Shortest edge s v k) : k < Fintype.card V :=
  lt_card_of_pred (L := Shortest edge s) (fun _ _ _ => Shortest.unique)
    (fun _ _ => Shortest.pred) h

end PromotionCache.Lib
