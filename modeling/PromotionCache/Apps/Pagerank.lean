import PromotionCache.Graph.Csr
import PromotionCache.Lib.While
import PromotionCache.Lib.Worklist
import Mathlib.Algebra.BigOperators.Fin
import Mathlib.Algebra.BigOperators.Field
import Mathlib.Algebra.Order.Archimedean.Basic
import Mathlib.Algebra.Order.Floor.Ring
import Mathlib.Data.Fintype.BigOperators
import Mathlib.Tactic.FieldSimp
import Mathlib.Tactic.Linarith
import Mathlib.Tactic.NormNum
import Mathlib.Tactic.Positivity
import Mathlib.Tactic.Ring

/-!
# PageRank

`init_pagerank` and `pagerank` of `launch/pagerank/pagerank.h`, run by one thread, over the rational
numbers and for any `alpha` and `epsilon`. An operation returns `none` where the program writes past the
end of a worklist.

An entry of the worklist moves the residual of a vertex into its `x` and passes on a share of it, which
keeps a linear equation between `x` and the residuals at every vertex (`Balanced`). What it takes off
the sum of the residuals makes the loop end.
-/

namespace PromotionCache.Apps.Pagerank
open Lib PromotionCache.Graph
variable {G : CsrGraph}

/-- The number of slots of either worklist. -/
abbrev capacity (G : CsrGraph) : Option ℕ := some G.nodes

/-- What the two functions share. -/
structure State (G : CsrGraph) where
  x : Fin G.nodes → ℚ
  inR : Fin G.nodes → ℚ
  ret : Fin G.nodes → ℚ
  inWl : Worklist (Fin G.nodes) (capacity G)
  outWl : Worklist (Fin G.nodes) (capacity G)

/-- `r[w] = r[w] + a` for the end `w` of an edge. -/
def addTo (a : ℚ) (r : Fin G.nodes → ℚ) (e : Fin G.edges) : Fin G.nodes → ℚ :=
  Function.update r (G.edgeArray e) (r (G.edgeArray e) + a)

/-- The body of the loop over the vertices of `init_pagerank`. -/
def initVertex (s : (Fin G.nodes → ℚ) × Worklist (Fin G.nodes) (capacity G)) (v : Fin G.nodes) :
    Option ((Fin G.nodes → ℚ) × Worklist (Fin G.nodes) (capacity G)) := do
  let inWl ← s.2.push v
  some ((G.edgesOf v).foldl (addTo (1 / G.outdegree v)) s.1, inWl)

section
variable (alpha epsilon : ℚ)

/-- `init_pagerank` -/
def initPagerank (G : CsrGraph) : Option (State G) := do
  let (inR, inWl) ← (List.finRange G.nodes).foldlM initVertex (fun _ => 0, .empty)
  some
    { x := fun _ => 1 - alpha
      inR := fun v => (1 - alpha) * alpha * inR v
      ret := fun _ => 0
      inWl
      outWl := .empty }

/-- The body of the loop over the edges of an entry. -/
def visit (newR : ℚ) (s : State G) (e : Fin G.edges) : Option (State G) :=
  let w := G.edgeArray e
  let rOld := s.ret w
  let ret := addTo newR s.ret e
  if epsilon ≤ ret w ∧ rOld < epsilon then do
    let outWl ← s.outWl.push w
    some { s with ret, outWl }
  else some { s with ret }

/-- The body of the loop over the worklist. -/
def entry (s : State G) (v : Fin G.nodes) : Option (State G) := do
  let newR := s.inR v * alpha / G.outdegree v
  let t ← (G.edgesOf v).foldlM (visit epsilon newR)
    { s with x := Function.update s.x v (s.x v + s.inR v) }
  some { t with inR := Function.update t.inR v 0 }

/-- The body of the `while`: a pass over the input worklist, then the swaps. -/
def epoch (s : State G) : Option (State G) := do
  let t ← s.inWl.entries.foldlM (entry alpha epsilon) s
  some { t with inWl := t.outWl, outWl := .empty, inR := t.ret, ret := t.inR }

/-- `*in_index > 0` -/
def running (s : State G) : Bool := 0 < s.inWl.index

/-- `pagerank` -/
def pagerank (fuel : ℕ) (s : State G) : Option (State G) :=
  whileLoop running (epoch alpha epsilon) fuel s

/-- `(1-alpha) + alpha * Σ x[u]/outdegree(u)` over the edges from `u` to `v`. -/
def rank (x : Fin G.nodes → ℚ) (v : Fin G.nodes) : ℚ :=
  (1 - alpha) + alpha * ∑ u, (G.targets u).count v * (x u / G.outdegree u)

/-- `x` and the residuals make up the rank that `x` gives. -/
def Balanced (s : State G) : Prop := ∀ v, s.x v + s.inR v + s.ret v = rank alpha s.x v

/-- The sum of the residuals. -/
def residual (s : State G) : ℚ := ∑ v, (s.inR v + s.ret v)

end

section
variable {alpha epsilon a : ℚ} {s t : State G} {u v w : Fin G.nodes} {r : Fin G.nodes → ℚ}

/-- What an edge adds to the vertices. -/
lemma addTo_apply (e : Fin G.edges) :
    addTo a r e v = r v + [G.edgeArray e].count v * a := by
  unfold addTo
  rcases eq_or_ne v (G.edgeArray e) with rfl | ne
  · simp
  · simp [ne, ne.symm]

/-- What the edges of a vertex add. -/
lemma foldl_addTo (es : List (Fin G.edges)) :
    es.foldl (addTo a) r v = r v + (es.map G.edgeArray).count v * a := by
  induction es generalizing r with
  | nil => simp
  | cons e es ih =>
    rw [List.foldl_cons, ih, addTo_apply, List.map_cons]
    simp only [List.count_cons, List.count_nil, Nat.cast_add, Nat.cast_zero]
    ring

/-- The ends of the out-edges of a vertex, each counted as often as it is one. -/
lemma sum_count : ∑ v, (((G.targets u).count v : ℕ) : ℚ) = G.outdegree u := by
  have sum := Multiset.sum_count_eq_card (s := Finset.univ) (m := Multiset.ofList (G.targets u))
    fun _ _ => Finset.mem_univ _
  simp only [Multiset.coe_card, Multiset.coe_count, CsrGraph.length_targets] at sum
  exact_mod_cast sum

/-- The output worklist holds the vertices with a residual from `epsilon` on, each once. -/
structure Queued (epsilon : ℚ) (s : State G) : Prop where
  nodup : s.outWl.entries.Nodup
  mem : ∀ v, v ∈ s.outWl.entries ↔ epsilon ≤ s.ret v

/-- One edge. The output worklist has room, since it holds no vertex twice. -/
lemma Queued.visit (q : Queued epsilon s) (pos : 0 ≤ a) (e : Fin G.edges) :
    ∃ t, visit epsilon a s e = some t ∧ Queued epsilon t ∧
      t.ret = addTo a s.ret e ∧ t.x = s.x ∧ t.inR = s.inR ∧ t.inWl = s.inWl := by
  have grow : ∀ v, s.ret v ≤ addTo a s.ret e v := by
    intro v
    rw [addTo_apply]
    have : 0 ≤ (([G.edgeArray e].count v : ℕ) : ℚ) * a := by positivity
    linarith
  have others : ∀ v, v ≠ G.edgeArray e → addTo a s.ret e v = s.ret v := fun v ne => by
    simp [addTo, ne]
  by_cases cross : epsilon ≤ addTo a s.ret e (G.edgeArray e) ∧ s.ret (G.edgeArray e) < epsilon
  · have notMem : G.edgeArray e ∉ s.outWl.entries := fun m => absurd cross.2 (by
      simpa using (q.mem _).mp m)
    have nodup : (s.outWl.entries.concat (G.edgeArray e)).Nodup := q.nodup.concat notMem
    have room : ∀ c ∈ capacity G, s.outWl.index < c := by
      rintro c ⟨⟩
      have le := nodup.length_le_card
      rwa [List.length_concat, Fintype.card_fin] at le
    obtain ⟨wl, push, entries⟩ := Worklist.exists_push room (G.edgeArray e)
    have step : Pagerank.visit epsilon a s e = some { s with ret := addTo a s.ret e, outWl := wl } := by
      simp [Pagerank.visit, cross, push]
    refine ⟨_, step, ⟨?_, ?_⟩, rfl, rfl, rfl, rfl⟩
    · rw [entries, ← List.concat_eq_append]
      exact nodup
    · intro v
      rw [entries, List.mem_append, List.mem_singleton, q.mem v]
      rcases eq_or_ne v (G.edgeArray e) with rfl | ne
      · simp [cross.1]
      · simp [ne, others v ne]
  · have step : Pagerank.visit epsilon a s e = some { s with ret := addTo a s.ret e } := by
      simp [Pagerank.visit, cross]
    refine ⟨_, step, ⟨q.nodup, ?_⟩, rfl, rfl, rfl, rfl⟩
    intro v
    rw [q.mem v]
    rcases eq_or_ne v (G.edgeArray e) with rfl | ne
    · refine ⟨fun h => h.trans (grow _), fun h => ?_⟩
      by_contra low
      exact cross ⟨h, not_le.mp low⟩
    · exact (others v ne).symm ▸ Iff.rfl

/-- The edges of an entry add to the residuals, and append what gets over the threshold. -/
lemma Queued.foldlM_visit (q : Queued epsilon s) (pos : 0 ≤ a) (es : List (Fin G.edges)) :
    ∃ t, es.foldlM (Pagerank.visit epsilon a) s = some t ∧ Queued epsilon t ∧
      t.ret = es.foldl (addTo a) s.ret ∧ t.x = s.x ∧ t.inR = s.inR ∧ t.inWl = s.inWl := by
  induction es generalizing s with
  | nil => exact ⟨s, rfl, q, rfl, rfl, rfl, rfl⟩
  | cons e es ih =>
    obtain ⟨t, ht, qT, ret, x, inR, wl⟩ := q.visit pos e
    obtain ⟨t', ht', qT', ret', x', inR', wl'⟩ := ih qT
    refine ⟨t', ?_, qT', ?_, x'.trans x, inR'.trans inR, wl'.trans wl⟩
    · rw [List.foldlM_cons, ht]
      exact ht'
    · rw [ret', ret, List.foldl_cons]

/-- What an entry does: the residual of `v` goes to its `x`, and a share of it to the ends of its
    edges. -/
structure Entered (alpha : ℚ) (s : State G) (v : Fin G.nodes) (t : State G) : Prop where
  x : t.x = Function.update s.x v (s.x v + s.inR v)
  inR : t.inR = Function.update s.inR v 0
  ret : ∀ w, t.ret w = s.ret w + (G.targets v).count w * (s.inR v * alpha / G.outdegree v)
  inWl : t.inWl = s.inWl

/-- An entry moves its residual into its rank. -/
lemma Queued.entry (q : Queued epsilon s) (h0 : 0 < alpha) (pos : 0 ≤ s.inR v) :
    ∃ t, entry alpha epsilon s v = some t ∧ Queued epsilon t ∧ Entered alpha s v t := by
  have share : 0 ≤ s.inR v * alpha / G.outdegree v := by positivity
  obtain ⟨t, ht, qT, ret, x, inR, wl⟩ :=
    Queued.foldlM_visit (s := { s with x := Function.update s.x v (s.x v + s.inR v) })
      ⟨q.nodup, q.mem⟩ share (G.edgesOf v)
  refine ⟨{ t with inR := Function.update t.inR v 0 }, ?_, ⟨qT.nodup, qT.mem⟩, x, ?_, ?_, wl⟩
  · simp only [Pagerank.entry, ht]
    rfl
  · rw [inR]
  · intro w
    rw [ret, foldl_addTo]
    rfl

/-- The equation at every vertex is kept, through loops and at vertices without edges too. -/
lemma Entered.balanced (en : Entered alpha s v t) (bal : Balanced alpha s) : Balanced alpha t := by
  intro w
  have old := bal w
  have moved : t.x w + t.inR w = s.x w + s.inR w := by
    rw [en.x, en.inR]
    rcases eq_or_ne w v with rfl | ne
    · simp
    · simp [ne]
  have passed : rank alpha t.x w =
      rank alpha s.x w + (G.targets v).count w * (s.inR v * alpha / G.outdegree v) := by
    have split : ∀ u, ((G.targets u).count w : ℚ) * (t.x u / G.outdegree u) =
        (G.targets u).count w * (s.x u / G.outdegree u) +
          if u = v then (G.targets v).count w * (s.inR v / G.outdegree v) else 0 := by
      intro u
      rw [en.x]
      rcases eq_or_ne u v with rfl | ne
      · simp only [Function.update_self, if_true]
        ring
      · simp [ne]
    simp only [rank, split, Finset.sum_add_distrib, Finset.sum_ite_eq', Finset.mem_univ, if_true]
    ring
  rw [moved, en.ret, passed, ← old]
  ring

/-- No rank or residual becomes negative. -/
lemma Entered.nonneg (en : Entered alpha s v t) (h0 : 0 < alpha) (inR : ∀ w, 0 ≤ s.inR w)
    (ret : ∀ w, 0 ≤ s.ret w) : (∀ w, 0 ≤ t.inR w) ∧ ∀ w, 0 ≤ t.ret w := by
  constructor
  · intro w
    rw [en.inR]
    rcases eq_or_ne w v with rfl | ne
    · simp
    · simpa [ne] using inR w
  · intro w
    have := inR v
    have := ret w
    rw [en.ret]
    positivity

/-- An entry keeps at most the share `alpha` of its residual among the residuals. -/
lemma Entered.residual (en : Entered alpha s v t) (h0 : 0 < alpha) (pos : 0 ≤ s.inR v) :
    residual t + (1 - alpha) * s.inR v ≤ residual s := by
  have inR : ∑ w, t.inR w = ∑ w, s.inR w - s.inR v := by
    rw [en.inR, Finset.sum_update_of_mem (Finset.mem_univ v),
      ← Finset.add_sum_erase _ _ (Finset.mem_univ v), Finset.sdiff_singleton_eq_erase]
    ring
  have ret : ∑ w, t.ret w = ∑ w, s.ret w + G.outdegree v * (s.inR v * alpha / G.outdegree v) := by
    simp only [en.ret, Finset.sum_add_distrib, ← Finset.sum_mul, sum_count]
  have share : (G.outdegree v : ℚ) * (s.inR v * alpha / G.outdegree v) ≤ alpha * s.inR v := by
    rcases eq_or_ne (G.outdegree v : ℚ) 0 with zero | ne
    · rw [zero, zero_mul]
      positivity
    · rw [mul_div_cancel₀ _ ne, mul_comm]
  simp only [Pagerank.residual, Finset.sum_add_distrib, inR, ret]
  linarith

end

/-- What holds at the head of the loop. In the first epoch the worklist may hold vertices with a small
    residual too. -/
structure Head (alpha epsilon : ℚ) (s : State G) : Prop where
  balanced : Balanced alpha s
  inR_nonneg : ∀ v, 0 ≤ s.inR v
  ret_nonneg : ∀ v, 0 ≤ s.ret v
  low : ∀ v, s.ret v < epsilon
  out : s.outWl.entries = []
  nodup : s.inWl.entries.Nodup
  pending : ∀ v, epsilon ≤ s.inR v → v ∈ s.inWl.entries

/-- The pass from the head `s` when it has taken the entries `us`. -/
structure Passed (alpha epsilon : ℚ) (s : State G) (us : List (Fin G.nodes)) (t : State G) :
    Prop where
  queued : Queued epsilon t
  balanced : Balanced alpha t
  inR_nonneg : ∀ v, 0 ≤ t.inR v
  ret_nonneg : ∀ v, 0 ≤ t.ret v
  inR : ∀ v, t.inR v = if v ∈ us then 0 else s.inR v
  residual : residual t + (1 - alpha) * (us.map s.inR).sum ≤ residual s

section
variable {alpha epsilon : ℚ} {s t : State G} {v : Fin G.nodes} {us : List (Fin G.nodes)}

/-- At the head of the loop no entry is done. -/
lemma Head.passed_nil (hd : Head alpha epsilon s) : Passed alpha epsilon s [] s where
  queued := ⟨by simp [hd.out], fun v => by simpa [hd.out] using hd.low v⟩
  balanced := hd.balanced
  inR_nonneg := hd.inR_nonneg
  ret_nonneg := hd.ret_nonneg
  inR := by simp
  residual := by simp

/-- One more entry is done. -/
lemma Passed.snoc (ps : Passed alpha epsilon s us t) (h0 : 0 < alpha) (fresh : v ∉ us) :
    ∃ t', entry alpha epsilon t v = some t' ∧ Passed alpha epsilon s (us ++ [v]) t' := by
  obtain ⟨t', ht', queued, en⟩ := ps.queued.entry h0 (ps.inR_nonneg v)
  obtain ⟨inR, ret⟩ := en.nonneg h0 ps.inR_nonneg ps.ret_nonneg
  refine ⟨t', ht', queued, en.balanced ps.balanced, inR, ret, ?_, ?_⟩
  · intro w
    rw [en.inR]
    rcases eq_or_ne w v with rfl | ne
    · simp
    · simp [ne, ps.inR w]
  · have moved := en.residual h0 (ps.inR_nonneg v)
    rw [ps.inR v, if_neg fresh] at moved
    have before := ps.residual
    simp only [List.map_append, List.map_singleton, List.sum_append, List.sum_singleton]
    linarith

/-- A pass goes through, and what it keeps holds after each of its entries. -/
lemma Head.passed (hd : Head alpha epsilon s) (h0 : 0 < alpha) (pre : us <+: s.inWl.entries) :
    ∃ t, us.foldlM (entry alpha epsilon) s = some t ∧ Passed alpha epsilon s us t := by
  induction us using List.reverseRecOn with
  | nil => exact ⟨s, rfl, hd.passed_nil⟩
  | append_singleton us v ih =>
    obtain ⟨t, ht, ps⟩ := ih ((List.prefix_append us [v]).trans pre)
    have nodup := hd.nodup.sublist pre.sublist
    rw [← List.concat_eq_append, List.nodup_concat] at nodup
    obtain ⟨t', ht', ps'⟩ := ps.snoc h0 nodup.1
    exact ⟨t', by simp [ht, ht'], ps'⟩

/-- The input worklist holds the vertices with a residual from `epsilon` on, each once. -/
def Exact (epsilon : ℚ) (s : State G) : Prop :=
  s.inWl.entries.Nodup ∧ ∀ v, v ∈ s.inWl.entries ↔ epsilon ≤ s.inR v

/-- One epoch. -/
lemma Head.epoch (hd : Head alpha epsilon s) (h0 : 0 < alpha) :
    ∃ t, epoch alpha epsilon s = some t ∧ Head alpha epsilon t ∧ Exact epsilon t ∧
      residual t + (1 - alpha) * (s.inWl.entries.map s.inR).sum ≤ residual s := by
  obtain ⟨t, ht, ps⟩ := hd.passed h0 (List.prefix_refl _)
  refine ⟨{ t with inWl := t.outWl, outWl := .empty, inR := t.ret, ret := t.inR }, ?_, ?_, ?_, ?_⟩
  · simp [Pagerank.epoch, ht]
  · constructor
    case balanced =>
      intro v
      rw [← ps.balanced v]
      dsimp only
      ring
    case inR_nonneg => exact ps.ret_nonneg
    case ret_nonneg => exact ps.inR_nonneg
    case low =>
      intro v
      have pending := hd.pending v
      have low := hd.low v
      have nonneg := hd.ret_nonneg v
      dsimp only
      rw [ps.inR v]
      split
      case isTrue => linarith
      case isFalse h => exact not_le.mp (mt pending h)
    case out => rfl
    case nodup => exact ps.queued.nodup
    case pending => exact fun v => (ps.queued.mem v).mpr
  · exact ⟨ps.queued.nodup, ps.queued.mem⟩
  · have swap : residual { t with inWl := t.outWl, outWl := .empty, inR := t.ret, ret := t.inR } =
        residual t :=
      Finset.sum_congr rfl fun v _ => add_comm _ _
    rw [swap]
    exact ps.residual

end

section
variable {alpha epsilon : ℚ}

/-- The first loop appends every vertex and adds up what its edges give. -/
lemma foldlM_initVertex {us : List (Fin G.nodes)} (nodup : us.Nodup) :
    ∃ r wl, us.foldlM initVertex (fun _ => 0, .empty) = some (r, wl) ∧ wl.entries = us ∧
      ∀ v, r v = (us.map fun u => ((G.targets u).count v : ℚ) * (1 / G.outdegree u)).sum := by
  induction us using List.reverseRecOn with
  | nil => exact ⟨_, _, rfl, rfl, fun _ => rfl⟩
  | append_singleton us u ih =>
    have len := nodup.length_le_card
    rw [← List.concat_eq_append, List.nodup_concat] at nodup
    obtain ⟨r, wl, run, entries, sum⟩ := ih nodup.2
    have room : ∀ c ∈ capacity G, wl.index < c := by
      rintro c ⟨⟩
      rw [Fintype.card_fin, List.length_append, List.length_singleton] at len
      rw [Worklist.index, entries]
      exact len
    obtain ⟨wl', push, entries'⟩ := Worklist.exists_push room u
    refine ⟨(G.edgesOf u).foldl (addTo (1 / G.outdegree u)) r, wl', ?_, ?_, ?_⟩
    · simp [run, initVertex, push]
    · rw [entries', entries]
    · intro v
      rw [foldl_addTo, sum v, List.map_append, List.sum_append, List.map_singleton,
        List.sum_singleton]
      rfl

/-- The invariant holds at the start. -/
lemma initPagerank_head (h0 : 0 < alpha) (h1 : alpha < 1) (he : 0 < epsilon) :
    ∃ s, initPagerank alpha G = some s ∧ Head alpha epsilon s := by
  obtain ⟨r, wl, run, entries, sum⟩ := foldlM_initVertex (List.nodup_finRange G.nodes)
  have sum' : ∀ v, r v = ∑ u, ((G.targets u).count v : ℚ) * (1 / G.outdegree u) := fun v => by
    rw [sum v, Fin.sum_univ_def]
  have small : 0 < 1 - alpha := sub_pos.mpr h1
  refine ⟨_, by simp only [initPagerank, run]; rfl, ?_⟩
  constructor
  case balanced =>
    intro v
    dsimp only [rank]
    rw [sum' v, Finset.mul_sum, Finset.mul_sum, add_zero]
    congr 1
    refine Finset.sum_congr rfl fun u _ => ?_
    ring
  case inR_nonneg =>
    intro v
    have : 0 ≤ r v := by
      rw [sum' v]
      positivity
    positivity
  case ret_nonneg => exact fun _ => le_rfl
  case low => exact fun _ => he
  case out => rfl
  case nodup =>
    rw [entries]
    exact List.nodup_finRange _
  case pending =>
    intro v _
    rw [entries]
    exact List.mem_finRange v

/-- It holds at the head of every epoch. -/
lemma Heads.head {s t : State G} (h : Heads running (epoch alpha epsilon) s t)
    (hd : Head alpha epsilon s) (h0 : 0 < alpha) : Head alpha epsilon t := by
  refine h.inv hd fun t u hdT _ step => ?_
  obtain ⟨u', step', hdU, -⟩ := hdT.epoch h0
  rw [step] at step'
  cases step'
  exact hdU

end

end PromotionCache.Apps.Pagerank
