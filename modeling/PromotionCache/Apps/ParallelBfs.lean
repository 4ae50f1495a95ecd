import PromotionCache.Apps.Bfs
import PromotionCache.Lib.TeamProgress

/-!
# Parallel breadth-first search

`init_bfs` and `bfs` of `launch/parallel/bfs/bfs.h`, run by a team of threads. Every load, store,
compare-and-swap and fetch-and-add of what the threads share is a step of its own, in any order of the
threads; the graph is not written, and what only one thread sees changes along with a step. A step
returns `none` where the program leaves a worklist, uses a slot that was never written, or an `int`
overflows.

Claiming a vertex takes three steps: the compare-and-swap, which looks at the low half of its slot only
and writes only that, the store of the whole slot, and the append. In the epoch of the level `k` a vertex of
the level `k + 1` is claimed at most once, since the low half of its slot is -1 for the first
compare-and-swap only, and from then on one thread holds it, or it is appended: the counts of `Inv` say so
without naming the thread.
-/

namespace PromotionCache.Apps.ParallelBfs
open Lib Lib.Team PromotionCache.Graph
variable {G : CsrGraph} {n : ℕ}

/-- Where a thread is in the loop over the edges of `node`; `es` are the edges that are left. -/
inductive Local (G : CsrGraph) where
  /-- at the loop, and at `compare_and_swap` if there is an edge left -/
  | edges (es : List (Fin G.edges))
  /-- at `ret[edge_index] = hop` -/
  | store (edgeIndex : Fin G.nodes) (es : List (Fin G.edges))
  deriving DecidableEq

/-- The low half of a slot, as the compare-and-swap reads it. -/
def lowHalf (r : ℕ) : ℕ := r % 2 ^ 32

/-- The slot after a write to its low half. -/
def setLowHalf (r low : ℕ) : ℕ := r - lowHalf r + low % 2 ^ 32

/-- `to_compare`, the `int` -1 as it stands in the low half -/
def toCompare : ℕ := 2 ^ 32 - 1

/-- A step in the loop over the edges. -/
def bodyStep (hop : ℕ) (ret : Fin G.nodes → ℕ) :
    Local G → (Fin G.nodes → ℕ) × Next (Fin G.nodes) (Local G)
  | .edges [] => (ret, .finish)
  | .edges (e :: es) =>
    let edgeIndex := G.edgeArray e
    if lowHalf (ret edgeIndex) = toCompare then
      (Function.update ret edgeIndex (setLowHalf (ret edgeIndex) hop), .go (.store edgeIndex es))
    else (ret, .go (.edges es))
  | .store edgeIndex es => (Function.update ret edgeIndex hop, .push edgeIndex (.edges es))

/-- `bfs`; `hop` is an `int`. -/
def bfs (G : CsrGraph) : Kernel (Fin G.nodes) (Fin G.nodes → ℕ) (Local G) Unit where
  start := fun node => .edges (G.edgesOf node)
  step := fun _ _ hop ret _ l => some (bodyStep hop ret l)
  capacity := some (G.nodes * 2)
  bound := intBound

/-- `init_bfs`, before the team starts; the size of the worklists is an `int`. -/
def initBfs (G : CsrGraph) (n : ℕ) (startSeed : Fin G.nodes) :
    Option (State (Fin G.nodes) (Fin G.nodes → ℕ) (Local G) n) :=
  if G.nodes * 2 < intBound then
    some (.start (Function.update (fun _ => unset) startSeed 0) [startSeed])
  else none

/-- The compare-and-swap does not succeed at the vertex. -/
def Claimed (ret : Fin G.nodes → ℕ) (v : Fin G.nodes) : Prop := lowHalf (ret v) ≠ toCompare

/-- A slot between the compare-and-swap and the store. -/
def halfSet (hop : ℕ) : ℕ := setLowHalf unset hop

open Classical in
/-- 1 or 0. -/
noncomputable def oneIf (p : Prop) : ℕ := if p then 1 else 0

/-- The epochs of `bfs`. -/
abbrev BfsEpoch (G : CsrGraph) (n : ℕ) := Epoch (Fin G.nodes) (Fin G.nodes → ℕ) (Local G) n

/-- The edges that a thread at an entry has before it. -/
def rest : Job (Fin G.nodes) (Local G) → List (Fin G.edges)
  | .todo _ => []
  | .busy _ _ (.edges es) | .busy _ _ (.store _ es) => es
  | .owes _ _ _ (.edges es) | .owes _ _ _ (.store _ es) => es

/-- How often a thread holds `v`, claimed and not appended. -/
def holds (v : Fin G.nodes) : Job (Fin G.nodes) (Local G) → ℕ
  | .busy _ _ (.store w _) | .owes _ _ w _ => if w = v then 1 else 0
  | _ => 0

/-- A thread has the edge `e` of the entry `j` still before it. -/
def Ahead (e : Fin G.edges) (j : ℕ) (job : Job (Fin G.nodes) (Local G)) : Prop :=
  match job with
  | .todo i => i ≤ j
  | .busy i _ _ | .owes i _ _ _ => i < j ∨ i = j ∧ e ∈ rest job

/-- A thread is at the store to the slot of `v`. -/
def Storing (jobs : Fin n → Job (Fin G.nodes) (Local G)) (v : Fin G.nodes) : Prop :=
  ∃ tid i u es, jobs tid = .busy i u (.store v es)

/-- The slots in the epoch of the level `k`. -/
structure Slots (seed : Fin G.nodes) (k : ℕ) (ret : Fin G.nodes → ℕ) (storing : Fin G.nodes → Prop) :
    Prop where
  known : ∀ v d, Hops G.Edge seed v d → d ≤ k → ret v = d
  next : ∀ v, Hops G.Edge seed v (k + 1) →
    ret v = unset ∨ ret v = k + 1 ∨ ret v = halfSet (k + 1) ∧ storing v
  far : ∀ v, (∀ d ≤ k + 1, ¬ Hops G.Edge seed v d) → ret v = unset

/-- What holds in every epoch. -/
structure Inv (seed : Fin G.nodes) (a : BfsEpoch G n) : Prop where
  placed : a.Placed
  front_mem : ∀ v, v ∈ a.front ↔ Hops G.Edge seed v a.level
  front_nodup : a.front.Nodup
  slots : Slots seed a.level a.mem (Storing a.jobs)
  edges : ∀ tid i u, (a.jobs tid).entry = some (i, u) → ∀ e ∈ rest (a.jobs tid), e ∈ G.edgesOf u
  owes : ∀ tid i u v l, a.jobs tid = .owes i u v l → ∃ es, l = .edges es
  swept : ∀ j u e, a.front[j]? = some u → e ∈ G.edgesOf u →
    Claimed a.mem (G.edgeArray e) ∨ ∀ tid : Fin n, j % n = tid → Ahead e j (a.jobs tid)
  count : ∀ v, ∑ tid, holds v (a.jobs tid) + a.pushed.count v =
    oneIf (Hops G.Edge seed v (a.level + 1) ∧ Claimed a.mem v)
  past : ∀ v, a.past.count v = oneIf (v ≠ seed ∧ ∃ d ≤ a.level, Hops G.Edge seed v d)

section
variable {k d : ℕ}

/-- The slots start free. -/
lemma lowHalf_unset : lowHalf unset = toCompare := rfl

/-- A distance is no -1. -/
lemma lowHalf_small (h : d < intBound) : lowHalf d ≠ toCompare := by
  unfold intBound at h
  unfold lowHalf toCompare
  omega

/-- Nor is its low half. -/
lemma lowHalf_halfSet (h : d < intBound) : lowHalf (halfSet d) ≠ toCompare := by
  unfold intBound at h
  unfold halfSet setLowHalf
  rw [lowHalf_unset]
  unfold lowHalf toCompare unset
  omega

/-- What holds counts once. -/
lemma oneIf_true {p : Prop} (h : p) : oneIf p = 1 := if_pos h

/-- What does not hold does not count. -/
lemma oneIf_false {p : Prop} (h : ¬ p) : oneIf p = 0 := if_neg h

/-- It counts at most once. -/
lemma oneIf_le (p : Prop) : oneIf p ≤ 1 := by
  unfold oneIf
  split <;> omega

end

section
variable {seed u v w : Fin G.nodes} {ret : Fin G.nodes → ℕ} {storing storing' : Fin G.nodes → Prop}
  {e : Fin G.edges} {i j k d : ℕ} {es : List (Fin G.edges)} {l : Local G} {a b : BfsEpoch G n}
  {tid : Fin n} {job : Job (Fin G.nodes) (Local G)}

/-- A compare-and-swap that succeeds. -/
lemma bodyStep_claim {hop : ℕ} (free : lowHalf (ret (G.edgeArray e)) = toCompare) :
    bodyStep hop ret (.edges (e :: es)) =
      (Function.update ret (G.edgeArray e) (setLowHalf (ret (G.edgeArray e)) hop),
        .go (.store (G.edgeArray e) es)) :=
  if_pos free

/-- A compare-and-swap that fails. -/
lemma bodyStep_skip {hop : ℕ} (taken : lowHalf (ret (G.edgeArray e)) ≠ toCompare) :
    bodyStep hop ret (.edges (e :: es)) = (ret, .go (.edges es)) :=
  if_neg taken

/-- Counting in a list of one vertex. -/
lemma count_one : [w].count v = if w = v then 1 else 0 := by
  rw [List.count_singleton]
  simp

/-- A store that is still to come may be said of another array of threads. -/
lemma Slots.mono (slots : Slots seed k ret storing) (sub : ∀ v, storing v → storing' v) :
    Slots seed k ret storing' where
  known := slots.known
  next := fun v hv => (slots.next v hv).imp_right (Or.imp_right (And.imp_right (sub v)))
  far := slots.far

/-- A write to the slot of a vertex of the next level. -/
lemma Slots.write (slots : Slots seed k ret storing) (level : Hops G.Edge seed w (k + 1))
    (set : d = k + 1 ∨ d = halfSet (k + 1) ∧ storing' w) (sub : ∀ v, v ≠ w → storing v → storing' v) :
    Slots seed k (Function.update ret w d) storing' where
  known := by
    intro v c hc le
    have ne : v ≠ w := by
      rintro rfl
      have := hc.unique level
      omega
    rw [Function.update_of_ne ne]
    exact slots.known v c hc le
  next := by
    intro v hv
    rcases eq_or_ne v w with rfl | ne
    · rw [Function.update_self]
      exact .inr set
    · rw [Function.update_of_ne ne]
      exact (slots.next v hv).imp_right (Or.imp_right (And.imp_right (sub v ne)))
  far := by
    intro v hv
    have ne : v ≠ w := by
      rintro rfl
      exact hv _ le_rfl level
    rw [Function.update_of_ne ne]
    exact slots.far v hv

/-- A store that is not the moving thread's is still to come. -/
lemma Storing.setJob {jobs : Fin n → Job (Fin G.nodes) (Local G)} (st : Storing jobs v)
    (ne : ∀ i u es, jobs tid ≠ .busy i u (.store v es)) : Storing (Function.update jobs tid job) v := by
  obtain ⟨x, i, u, es, hx⟩ := st
  have other : x ≠ tid := by
    rintro rfl
    exact ne i u es hx
  exact ⟨x, i, u, es, by rw [Function.update_of_ne other, hx]⟩

/-- The input holds every vertex at most once. -/
lemma Inv.front_length (inv : Inv seed a) : a.front.length ≤ G.nodes := by
  have le := inv.front_nodup.length_le_card
  rwa [Fintype.card_fin] at le

/-- The level that is worked on is one of few. -/
lemma Inv.level_lt (inv : Inv seed a) (ne : a.front ≠ []) : a.level < G.nodes := by
  obtain ⟨v, hv⟩ := List.exists_mem_of_ne_nil a.front ne
  have lt := ((inv.front_mem v).mp hv).lt_card
  rwa [Fintype.card_fin] at lt

/-- The vertices appended are different. -/
lemma Inv.pushed_nodup (inv : Inv seed a) : a.pushed.Nodup := by
  rw [List.nodup_iff_count_le_one]
  intro v
  have count := inv.count v
  have le := oneIf_le (Hops G.Edge seed v (a.level + 1) ∧ Claimed a.mem v)
  omega

/-- So does the output. -/
lemma Inv.pushed_length (inv : Inv seed a) : a.pushed.length ≤ G.nodes := by
  have le := inv.pushed_nodup.length_le_card
  rwa [Fintype.card_fin] at le

/-- A thread at an entry is at a vertex of the level. -/
lemma Inv.entry_level (inv : Inv seed a) (entry : (a.jobs tid).entry = some (i, u)) :
    Hops G.Edge seed u a.level ∧ a.level < G.nodes := by
  have front := List.mem_of_getElem? (inv.placed.entry tid i u entry)
  exact ⟨(inv.front_mem u).mp front, inv.level_lt (List.ne_nil_of_mem front)⟩

/-- What a thread holds is claimed, of the next level. -/
lemma Inv.of_holds (inv : Inv seed a) (h : holds v (a.jobs tid) ≠ 0) :
    Hops G.Edge seed v (a.level + 1) ∧ Claimed a.mem v := by
  have count := inv.count v
  have le : holds v (a.jobs tid) ≤ ∑ x, holds v (a.jobs x) :=
    Finset.single_le_sum (f := fun x => holds v (a.jobs x)) (fun _ _ => Nat.zero_le _)
      (Finset.mem_univ tid)
  by_contra no
  rw [oneIf_false no] at count
  omega

/-- The end of an edge of the level, if it can be claimed, is of the next level, and unset. -/
lemma Inv.unclaimed_end (inv : Inv seed a) (small : G.nodes < 2 ^ 30)
    (entry : (a.jobs tid).entry = some (i, u)) (he : e ∈ G.edgesOf u)
    (free : ¬ Claimed a.mem (G.edgeArray e)) :
    Hops G.Edge seed (G.edgeArray e) (a.level + 1) ∧ a.mem (G.edgeArray e) = unset := by
  obtain ⟨level, lt⟩ := inv.entry_level entry
  obtain ⟨d, le, hd⟩ := level.step (CsrGraph.edge_of_mem he)
  have next : d = a.level + 1 := by
    by_contra ne
    rw [Claimed, inv.slots.known _ d hd (by omega), not_not] at free
    exact lowHalf_small (by unfold intBound; omega) free
  subst next
  refine ⟨hd, ?_⟩
  rcases inv.slots.next _ hd with h | h | ⟨h, -⟩
  · exact h
  · rw [Claimed, h, not_not] at free
    exact absurd free (lowHalf_small (by unfold intBound; omega))
  · rw [Claimed, h, not_not] at free
    exact absurd free (lowHalf_halfSet (by unfold intBound; omega))

/-- One thread goes on. What it claims it holds, what it held it still holds or has appended, and an edge
    that it had before it is swept now or still before it. -/
lemma Inv.setJob {m : Fin G.nodes → ℕ} (inv : Inv seed a) (pushed : List (Fin G.nodes))
    (placed : Epoch.Placed { a.setJob tid job with mem := m, pushed })
    (slots : Slots seed a.level m (Storing (Function.update a.jobs tid job)))
    (claimed : ∀ v, Claimed a.mem v → Claimed m v)
    (edges : ∀ i u, job.entry = some (i, u) → ∀ e ∈ rest job, e ∈ G.edgesOf u)
    (owes : ∀ i u v l, job = .owes i u v l → ∃ es, l = .edges es)
    (own : ∀ j u e, a.front[j]? = some u → e ∈ G.edgesOf u → j % n = tid → Ahead e j (a.jobs tid) →
      Claimed m (G.edgeArray e) ∨ Ahead e j job)
    (count : ∀ v,
      holds v job + pushed.count v + oneIf (Hops G.Edge seed v (a.level + 1) ∧ Claimed a.mem v) =
        holds v (a.jobs tid) + a.pushed.count v +
          oneIf (Hops G.Edge seed v (a.level + 1) ∧ Claimed m v)) :
    Inv seed { a.setJob tid job with mem := m, pushed } where
  placed := placed
  front_mem := inv.front_mem
  front_nodup := inv.front_nodup
  slots := slots
  edges := by
    intro x i u entry
    rcases eq_or_ne x tid with rfl | ne
    · simp only [Epoch.setJob, Function.update_self] at entry ⊢
      exact edges i u entry
    · simp only [Epoch.setJob, Function.update_of_ne ne] at entry ⊢
      exact inv.edges x i u entry
  owes := by
    intro x i u v l hx
    rcases eq_or_ne x tid with rfl | ne
    · exact owes i u v l (by simpa [Epoch.setJob] using hx)
    · exact inv.owes x i u v l (by simpa [Epoch.setJob, ne] using hx)
  swept := by
    intro j u e front he
    rcases inv.swept j u e front he with done | ahead
    · exact .inl (claimed _ done)
    · by_cases mine : j % n = tid
      · refine (own j u e front he mine (ahead tid mine)).imp_right fun ahead' x hx => ?_
        obtain rfl : x = tid := Fin.ext (hx.symm.trans mine)
        simpa [Epoch.setJob] using ahead'
      · refine .inr fun x hx => ?_
        have ne : x ≠ tid := by
          rintro rfl
          exact mine hx
        simpa [Epoch.setJob, ne] using ahead x hx
  count := by
    intro v
    have sum := sum_update a.jobs tid job (holds v)
    have old := inv.count v
    have new := count v
    dsimp only [Epoch.setJob]
    omega
  past := inv.past

/-- A step that claims nothing. -/
lemma Inv.quiet (inv : Inv seed a)
    (placed : Epoch.Placed { a.setJob tid job with mem := a.mem })
    (old : ∀ v, holds v (a.jobs tid) = 0) (new : ∀ v, holds v job = 0)
    (edges : ∀ i u, job.entry = some (i, u) → ∀ e ∈ rest job, e ∈ G.edgesOf u)
    (own : ∀ j u e, a.front[j]? = some u → e ∈ G.edgesOf u → j % n = tid → Ahead e j (a.jobs tid) →
      Claimed a.mem (G.edgeArray e) ∨ Ahead e j job) :
    Inv seed { a.setJob tid job with mem := a.mem } := by
  refine inv.setJob a.pushed placed (inv.slots.mono fun v st => st.setJob ?_) (fun _ => id) edges ?_ own ?_
  · intro i u es h
    have one := old v
    rw [h, holds, if_pos rfl] at one
    cases one
  · rintro i u v l rfl
    have one := new v
    rw [holds, if_pos rfl] at one
    cases one
  · intro v
    rw [old, new]

/-- A thread begins with an entry. -/
lemma Inv.start (inv : Inv seed a)
    (placed : Epoch.Placed (a.setJob tid (.busy i u (.edges (G.edgesOf u)))))
    (todo : a.jobs tid = .todo i) (front : a.front[i]? = some u) :
    Inv seed (a.setJob tid (.busy i u (.edges (G.edgesOf u)))) := by
  refine inv.quiet placed (fun v => by rw [todo]; rfl) (fun _ => rfl) ?_ ?_
  · rintro i u ⟨⟩
    exact fun e he => he
  · intro j w e frontJ he _ ahead
    rw [todo] at ahead
    rcases Nat.lt_or_eq_of_le ahead with lt | rfl
    · exact .inr (.inl lt)
    · rw [front] at frontJ
      cases frontJ
      exact .inr (.inr ⟨rfl, he⟩)

/-- An entry is done when none of its edges is left. -/
lemma Inv.finish (inv : Inv seed a)
    (placed : Epoch.Placed { a.setJob tid (.todo (i + n)) with mem := a.mem })
    (busy : a.jobs tid = .busy i u (.edges [])) :
    Inv seed { a.setJob tid (.todo (i + n)) with mem := a.mem } := by
  have mine := inv.placed.mine tid
  rw [busy] at mine
  refine inv.quiet placed (fun v => by rw [busy]; rfl) (fun _ => rfl) ?_ ?_
  · rintro i u ⟨⟩
  · intro j w e _ _ mineJ ahead
    rw [busy] at ahead
    rcases ahead with lt | ⟨-, here⟩
    · exact .inr (next_entry (mine.trans mineJ.symm) lt)
    · cases here

/-- A compare-and-swap that fails: the end of the edge is claimed. -/
lemma Inv.skip (inv : Inv seed a)
    (placed : Epoch.Placed { a.setJob tid (.busy i u (.edges es)) with mem := a.mem })
    (busy : a.jobs tid = .busy i u (.edges (e :: es))) (taken : Claimed a.mem (G.edgeArray e)) :
    Inv seed { a.setJob tid (.busy i u (.edges es)) with mem := a.mem } := by
  have edges := inv.edges tid i u (by rw [busy]; rfl)
  rw [busy] at edges
  refine inv.quiet placed (fun v => by rw [busy]; rfl) (fun _ => rfl) ?_ ?_
  · rintro i u ⟨⟩
    exact fun e' he' => edges e' (.tail e he')
  · intro j w e' _ _ _ ahead
    rw [busy] at ahead
    rcases ahead with lt | ⟨rfl, here⟩
    · exact .inr (.inl lt)
    · rcases List.mem_cons.mp here with rfl | tail
      · exact .inl taken
      · exact .inr (.inr ⟨rfl, tail⟩)

/-- The compare-and-swap succeeds: the end of the edge is claimed now, and held. -/
lemma Inv.claim (inv : Inv seed a) (small : G.nodes < 2 ^ 30)
    (placed : Epoch.Placed { a.setJob tid (.busy i u (.store (G.edgeArray e) es)) with
      mem := Function.update a.mem (G.edgeArray e)
        (setLowHalf (a.mem (G.edgeArray e)) (a.level + 1)) })
    (busy : a.jobs tid = .busy i u (.edges (e :: es))) (free : ¬ Claimed a.mem (G.edgeArray e)) :
    Inv seed { a.setJob tid (.busy i u (.store (G.edgeArray e) es)) with
      mem := Function.update a.mem (G.edgeArray e)
        (setLowHalf (a.mem (G.edgeArray e)) (a.level + 1)) } := by
  have entry : (a.jobs tid).entry = some (i, u) := by rw [busy]; rfl
  have edges := inv.edges tid i u entry
  rw [busy] at edges
  obtain ⟨-, lt⟩ := inv.entry_level entry
  obtain ⟨level, slot⟩ := inv.unclaimed_end small entry (edges e (.head es)) free
  have half : setLowHalf (a.mem (G.edgeArray e)) (a.level + 1) = halfSet (a.level + 1) := by
    rw [slot, halfSet]
  rw [half] at placed ⊢
  have claimed : ∀ v, Claimed (Function.update a.mem (G.edgeArray e) (halfSet (a.level + 1))) v ↔
      v = G.edgeArray e ∨ Claimed a.mem v := by
    intro v
    rcases eq_or_ne v (G.edgeArray e) with rfl | ne
    · refine iff_of_true ?_ (.inl rfl)
      rw [Claimed, Function.update_self]
      exact lowHalf_halfSet (by unfold intBound; omega)
    · rw [Claimed, Function.update_of_ne ne, or_iff_right ne, Claimed]
  refine inv.setJob a.pushed placed (inv.slots.write level ?_ ?_) (fun v hv => (claimed v).mpr (.inr hv)) ?_ ?_ ?_ ?_
  · exact .inr ⟨rfl, tid, i, u, es, Function.update_self ..⟩
  · refine fun v _ st => st.setJob fun i u es h => ?_
    rw [busy] at h
    cases h
  · rintro i u ⟨⟩
    exact fun e' he' => edges e' (.tail e he')
  · rintro i u v l ⟨⟩
  · intro j w e' _ _ _ ahead
    rw [busy] at ahead
    rcases ahead with lt | ⟨rfl, here⟩
    · exact .inr (.inl lt)
    · rcases List.mem_cons.mp here with rfl | tail
      · exact .inl ((claimed _).mpr (.inl rfl))
      · exact .inr (.inr ⟨rfl, tail⟩)
  · intro v
    rw [busy]
    simp only [holds]
    rcases eq_or_ne v (G.edgeArray e) with rfl | ne
    · rw [oneIf_false fun h => free h.2, oneIf_true ⟨level, (claimed _).mpr (.inl rfl)⟩, if_pos rfl]
      omega
    · rw [if_neg ne.symm, claimed v, or_iff_right ne]

/-- The store of the whole slot. -/
lemma Inv.store (inv : Inv seed a) (small : G.nodes < 2 ^ 30)
    (placed : Epoch.Placed { a.setJob tid (.owes i u w (.edges es)) with
      mem := Function.update a.mem w (a.level + 1) })
    (busy : a.jobs tid = .busy i u (.store w es)) :
    Inv seed { a.setJob tid (.owes i u w (.edges es)) with
      mem := Function.update a.mem w (a.level + 1) } := by
  have entry : (a.jobs tid).entry = some (i, u) := by rw [busy]; rfl
  have edges := inv.edges tid i u entry
  rw [busy] at edges
  obtain ⟨-, lt⟩ := inv.entry_level entry
  have held : holds w (a.jobs tid) ≠ 0 := by
    rw [busy, holds, if_pos rfl]
    exact Nat.one_ne_zero
  obtain ⟨level, taken⟩ := inv.of_holds held
  have claimed : Claimed (Function.update a.mem w (a.level + 1)) = Claimed a.mem := by
    funext v
    rcases eq_or_ne v w with rfl | ne
    · refine propext (iff_of_true ?_ taken)
      rw [Claimed, Function.update_self]
      exact lowHalf_small (by unfold intBound; omega)
    · rw [Claimed, Function.update_of_ne ne, Claimed]
  refine inv.setJob a.pushed placed (inv.slots.write level (.inl rfl) ?_) (fun v hv => by rwa [claimed]) ?_ ?_ ?_ ?_
  · refine fun v ne st => st.setJob fun i u es h => ?_
    rw [busy] at h
    cases h
    exact ne rfl
  · rintro i u ⟨⟩
    exact edges
  · rintro i u v l ⟨⟩
    exact ⟨es, rfl⟩
  · intro j w e' _ _ _ ahead
    rw [busy] at ahead
    exact .inr ahead
  · intro v
    rw [busy, claimed]
    rfl

/-- The append. -/
lemma Inv.push (inv : Inv seed a)
    (placed : Epoch.Placed { a.setJob tid (.busy i u l) with pushed := a.pushed ++ [v] })
    (owes : a.jobs tid = .owes i u v l) :
    Inv seed { a.setJob tid (.busy i u l) with pushed := a.pushed ++ [v] } := by
  obtain ⟨es, rfl⟩ := inv.owes tid i u v l owes
  have edges := inv.edges tid i u (by rw [owes]; rfl)
  rw [owes] at edges
  refine inv.setJob (m := a.mem) (a.pushed ++ [v]) placed (inv.slots.mono fun v st => st.setJob ?_)
    (fun _ => id) ?_ ?_ ?_ ?_
  · intro i u es h
    rw [owes] at h
    cases h
  · rintro i u ⟨⟩
    exact edges
  · rintro i u v l ⟨⟩
  · intro j w e' _ _ _ ahead
    rw [owes] at ahead
    exact .inr ahead
  · intro w
    rw [owes, List.count_append, count_one]
    simp only [holds]
    omega

/-- In an epoch that is over the next level is claimed: every entry was one of some thread. -/
lemma Inv.claimed_of_over (inv : Inv seed a) (team : 0 < n) (finished : a.Over)
    (level : Hops G.Edge seed v (a.level + 1)) : Claimed a.mem v := by
  obtain ⟨u, w, hu, e, he, rfl, -⟩ := level.pred
  obtain ⟨j, front⟩ := List.getElem?_of_mem ((inv.front_mem u).mpr hu)
  refine (inv.swept j u e front he).resolve_right fun ahead => ?_
  obtain ⟨i, todo, le⟩ := finished ⟨j % n, Nat.mod_lt j team⟩
  have before := ahead ⟨j % n, Nat.mod_lt j team⟩ rfl
  have lt := (List.getElem?_eq_some_iff.mp front).1
  rw [todo] at before
  exact absurd before (by simp only [Ahead]; omega)

/-- And no thread is between its compare-and-swap and its append any more. -/
lemma Inv.ret_of_over (inv : Inv seed a) (team : 0 < n) (finished : a.Over)
    (level : Hops G.Edge seed v (a.level + 1)) : a.mem v = a.level + 1 := by
  rcases inv.slots.next v level with free | set | ⟨-, tid, i, u, es, busy⟩
  · exact absurd (by rw [free]; rfl) (inv.claimed_of_over team finished level)
  · exact set
  · obtain ⟨i', todo, -⟩ := finished tid
    rw [todo] at busy
    cases busy

/-- So what was appended is the next level. -/
lemma Inv.pushed_count (inv : Inv seed a) (team : 0 < n) (finished : a.Over) (v : Fin G.nodes) :
    a.pushed.count v = oneIf (Hops G.Edge seed v (a.level + 1)) := by
  have none : ∑ tid, holds v (a.jobs tid) = 0 := Finset.sum_eq_zero fun tid _ => by
    obtain ⟨i, todo, -⟩ := finished tid
    rw [todo]
    rfl
  have count := inv.count v
  rw [none, Nat.zero_add] at count
  rw [count]
  exact congrArg oneIf (propext (and_iff_left_of_imp (inv.claimed_of_over team finished)))

/-- The next epoch is that of the next level. -/
lemma Inv.turn (inv : Inv seed a) (placed : Epoch.Placed a.next) (team : 0 < n) (finished : a.Over) :
    Inv seed a.next where
  placed := placed
  front_mem := by
    intro v
    have count := inv.pushed_count team finished v
    dsimp only [Epoch.next]
    rw [← List.count_pos_iff, count]
    refine ⟨fun pos => ?_, fun level => ?_⟩
    · by_contra no
      rw [oneIf_false no] at pos
      cases pos
    · rw [oneIf_true level]
      exact Nat.one_pos
  front_nodup := inv.pushed_nodup
  slots := by
    constructor
    case known =>
      intro v d hd le
      rcases Nat.lt_or_eq_of_le le with lt | rfl
      · exact inv.slots.known v d hd (Nat.le_of_lt_succ lt)
      · exact inv.ret_of_over team finished hd
    case next =>
      intro v hv
      refine .inl (inv.slots.far v fun d le hd => ?_)
      have := hd.unique hv
      dsimp only [Epoch.next] at this
      omega
    case far => exact fun v h => inv.slots.far v fun d le => h d (Nat.le_succ_of_le le)
  edges := by
    rintro tid i u ⟨⟩
  owes := by
    rintro tid i u v l ⟨⟩
  swept := by
    intro j u e _ _
    refine .inr fun tid mine => ?_
    have le : tid.val ≤ j := mine ▸ Nat.mod_le j n
    exact le
  count := by
    intro v
    have none : ∑ tid, holds v (a.next.jobs tid) = 0 := Finset.sum_eq_zero fun _ _ => rfl
    rw [none, oneIf_false]
    · rfl
    · rintro ⟨hv, taken⟩
      refine taken ?_
      dsimp only [Epoch.next]
      rw [inv.slots.far v, lowHalf_unset]
      intro d le hd
      have := hd.unique hv
      dsimp only [Epoch.next] at this
      omega
  past := by
    intro v
    have old := inv.past v
    have new := inv.pushed_count team finished v
    dsimp only [Epoch.next]
    rw [List.count_append, old, new]
    by_cases level : Hops G.Edge seed v (a.level + 1)
    · have ne : v ≠ seed := by
        rintro rfl
        cases level.unique hops_source
      have no : ¬ (v ≠ seed ∧ ∃ d ≤ a.level, Hops G.Edge seed v d) := by
        rintro ⟨-, d, le, hd⟩
        have := hd.unique level
        omega
      rw [oneIf_false no, oneIf_true level, oneIf_true ⟨ne, _, le_rfl, level⟩]
    · rw [oneIf_false level, Nat.add_zero]
      refine congrArg oneIf (propext (and_congr_right fun _ => ⟨?_, ?_⟩))
      · rintro ⟨d, le, hd⟩
        exact ⟨d, Nat.le_succ_of_le le, hd⟩
      · rintro ⟨d, le, hd⟩
        rcases Nat.lt_or_eq_of_le le with lt | rfl
        · exact ⟨d, Nat.le_of_lt_succ lt, hd⟩
        · exact absurd hd level

/-- A step of the body keeps what holds. -/
lemma Inv.body {next : Next (Fin G.nodes) (Local G)} {m : Fin G.nodes → ℕ} (inv : Inv seed a)
    (small : G.nodes < 2 ^ 30)
    (placed : Epoch.Placed { a.setJob tid (.after n i u next) with mem := m })
    (busy : a.jobs tid = .busy i u l) (h : bodyStep (a.level + 1) a.mem l = (m, next)) :
    Inv seed { a.setJob tid (.after n i u next) with mem := m } := by
  cases l with
  | edges es =>
    cases es with
    | nil =>
      cases h
      exact inv.finish placed busy
    | cons e es =>
      by_cases free : lowHalf (a.mem (G.edgeArray e)) = toCompare
      · rw [bodyStep_claim free] at h
        cases h
        exact inv.claim small placed busy (not_not.mpr free)
      · rw [bodyStep_skip free] at h
        cases h
        exact inv.skip placed busy free
  | store w es =>
    cases h
    exact inv.store small placed busy

/-- A step of the epochs keeps what holds. -/
lemma Inv.step (inv : Inv seed a) (small : G.nodes < 2 ^ 30) (team : 0 < n)
    (st : Epoch.Step (bfs G) (fun _ _ _ _ => True) a b) : Inv seed b := by
  have placed := inv.placed.step st
  cases st with
  | start todo front => exact inv.start placed todo front
  | body busy _ h => exact inv.body small placed busy (Option.some.inj h)
  | push owes => exact inv.push placed owes
  | turn _ finished => exact inv.turn placed team finished

/-- What holds as the team starts. -/
lemma start_inv (seed : Fin G.nodes) (n : ℕ) :
    Inv seed (.start (Function.update (fun _ => unset) seed 0) [seed] : BfsEpoch G n) := by
  have other : ∀ v, v ≠ seed → Function.update (fun _ => unset) seed 0 v = unset := fun v ne =>
    Function.update_of_ne ne ..
  have self : ∀ v, Claimed (Function.update (fun _ => unset) seed 0) v → v = seed := by
    intro v taken
    by_contra ne
    rw [Claimed, other v ne] at taken
    exact taken lowHalf_unset
  constructor
  case placed => exact start_placed _ _
  case front_mem =>
    intro v
    refine List.mem_singleton.trans ⟨?_, Hops.eq_source⟩
    rintro rfl
    exact hops_source
  case front_nodup => exact List.nodup_singleton _
  case slots =>
    constructor
    case known =>
      intro v d hd le
      obtain rfl : d = 0 := Nat.le_zero.mp le
      obtain rfl := hd.eq_source
      dsimp only [Epoch.start]
      rw [Function.update_self]
    case next =>
      intro v hv
      refine .inl (other v ?_)
      rintro rfl
      cases hv.unique hops_source
    case far =>
      intro v far
      refine other v ?_
      rintro rfl
      exact far 0 (Nat.zero_le _) hops_source
  case edges => rintro tid i u ⟨⟩
  case owes => rintro tid i u v l ⟨⟩
  case swept =>
    intro j u e _ _
    refine .inr fun tid mine => ?_
    have le : tid.val ≤ j := mine ▸ Nat.mod_le j n
    exact le
  case count =>
    intro v
    have none : ∑ tid : Fin n, holds (G := G) v (.todo tid) = 0 := Finset.sum_eq_zero fun _ _ => rfl
    dsimp only [Epoch.start]
    rw [none, oneIf_false]
    · rfl
    · rintro ⟨hv, taken⟩
      obtain rfl := self v taken
      cases hv.unique hops_source
  case past =>
    intro v
    dsimp only [Epoch.start]
    rw [oneIf_false]
    · rfl
    · rintro ⟨ne, d, le, hd⟩
      obtain rfl : d = 0 := Nat.le_zero.mp le
      exact ne hd.eq_source

/-- The levels, and the worklists, are no longer than there are vertices. A claim takes four steps. -/
def budget (G : CsrGraph) : Budget (Local G) where
  levels := G.nodes
  entries := G.nodes
  most := 4 * G.edges + 1
  cost
    | .edges es => 4 * es.length + 1
    | .store _ es => 4 * es.length + 4

/-- A vertex has no more edges than the graph. -/
lemma length_edgesOf_le (v : Fin G.nodes) : (G.edgesOf v).length ≤ G.edges := by
  have le := G.nodeArray_le v.succ
  rw [CsrGraph.length_edgesOf, CsrGraph.outdegree]
  omega

/-- The bodies go through. -/
lemma budget_covers (small : G.nodes < 2 ^ 30) : (budget G).Covers (bfs G) where
  start := by
    intro u
    have le := length_edgesOf_le u
    simp only [budget, bfs]
    omega
  step := by
    intro c b hop ret u l
    refine ⟨_, rfl, ?_⟩
    cases l with
    | edges es =>
      cases es with
      | nil => exact Nat.one_pos
      | cons e es =>
        simp only [bodyStep]
        split
        · simp only [Budget.after, budget, List.length_cons]
          omega
        · simp only [Budget.after, budget, List.length_cons]
          omega
    | store w es =>
      simp only [bodyStep, Budget.after, budget]
      omega
  capacity := by
    rintro c ⟨⟩
    simp only [budget]
    omega
  bound := by
    simp only [budget, bfs, intBound]
    omega

/-- The epochs stay within the budget. -/
lemma Inv.admits (inv : Inv seed a) : (budget G).Admits a where
  level := inv.level_lt
  front := inv.front_length
  pushed := inv.pushed_length

/-- With the input empty the search is complete. -/
lemma Inv.complete (inv : Inv seed a) (none : a.front = []) :
    (∀ v d, Hops G.Edge seed v d → a.mem v = d) ∧
    (∀ v, ¬ Reachable G.Edge seed v → a.mem v = unset) ∧
    ∀ v, (a.past ++ a.pushed).count v = oneIf (v ≠ seed ∧ Reachable G.Edge seed v) := by
  have empty : ∀ u, ¬ Hops G.Edge seed u a.level := fun u hu => by
    have mem := (inv.front_mem u).mpr hu
    rw [none] at mem
    cases mem
  refine ⟨?_, ?_, ?_⟩
  · exact fun v d hd => inv.slots.known v d hd (hd.lt_of_none empty).le
  · exact fun v far => inv.slots.far v fun d _ hd => far hd.reachable
  · intro v
    rw [inv.placed.idle none, List.append_nil, inv.past v]
    refine congrArg oneIf (propext (and_congr_right fun _ => ⟨?_, ?_⟩))
    · rintro ⟨d, -, hd⟩
      exact hd.reachable
    · rintro ⟨k, c, walk⟩
      obtain ⟨d, -, hd⟩ := exists_hops walk
      exact ⟨d, (hd.lt_of_none empty).le, hd⟩

/-- The state from which a team starts. -/
lemma initBfs_within (small : G.nodes < 2 ^ 30) (seed : Fin G.nodes) (n : ℕ) :
    ∃ s : State (Fin G.nodes) (Fin G.nodes → ℕ) (Local G) n,
      initBfs G n seed = some s ∧ Within (Inv seed) s :=
  ⟨_, if_pos (by unfold intBound; omega), _, start_stands _ _, start_inv seed n⟩

end

/-- In any order of the steps of any number of threads: the run ends, no step of it fails, and when no step
    is left all threads have returned, with the distance of every vertex that can be reached and -1 at the
    others, and every vertex but the seed appended once if it can be reached, and never otherwise. -/
theorem bfs_any_order (G : CsrGraph) (small : G.nodes < 2 ^ 30) (n : ℕ) (team : 0 < n)
    (seed : Fin G.nodes) :
    ∃ s₀, initBfs G n seed = some s₀ ∧
      (∃ bound, ∀ as s, run (step (bfs G)) s₀ as = some s → as.length ≤ bound) ∧
      ∀ as s, run (step (bfs G)) s₀ as = some s →
        (∀ a, Enabled s a → ∃ t, step (bfs G) s a = some t) ∧
        ((∀ a : Action Unit n, ¬ Enabled s a) →
          Returned s ∧
          (∀ v d, Hops G.Edge seed v d → s.mem v = d) ∧
          (∀ v, ¬ Reachable G.Edge seed v → s.mem v = unset) ∧
          (∀ v, v ≠ seed → Reachable G.Edge seed v → s.appended.count v = 1) ∧
          ∀ v, ¬ (v ≠ seed ∧ Reachable G.Edge seed v) → s.appended.count v = 0) := by
  obtain ⟨s₀, init, within₀⟩ := initBfs_within small seed n
  have covers := budget_covers (G := G) small
  have runs : ∀ as s, run (step (bfs G)) s₀ as = some s →
      Within (Inv seed) s ∧ as.length + (budget G).total s ≤ (budget G).total s₀ := fun as s h =>
    within₀.run team (fun _ _ inv st => inv.step small team st) covers (fun _ => Inv.admits) h
  refine ⟨s₀, init, ⟨(budget G).total s₀, ?_⟩, ?_⟩
  · intro as s h
    have := (runs as s h).2
    omega
  · intro as s h
    obtain ⟨⟨a, stands, inv⟩, -⟩ := runs as s h
    refine ⟨fun act enabled => (stands.enabled_iff covers inv.admits).mp enabled, fun stuck => ?_⟩
    have returned := stands.stuck stuck
    obtain ⟨mem, none, appended⟩ := stands.of_returned team returned
    obtain ⟨known, far, count⟩ := inv.complete none
    have written : ∀ v, s.appended.count v = oneIf (v ≠ seed ∧ Reachable G.Edge seed v) := fun v =>
      ((Multiset.coe_eq_coe.mp appended).count_eq v).trans (count v)
    rw [mem]
    refine ⟨returned, known, far, ?_, ?_⟩
    · exact fun v ne reach => (written v).trans (oneIf_true ⟨ne, reach⟩)
    · exact fun v no => (written v).trans (oneIf_false no)

/-- Two threads on the sample. -/
theorem bfs_any_order_sample :
    ∃ s₀, initBfs .sample 2 CsrGraph.sampleSeed = some s₀ ∧
      (∃ bound, ∀ as s, run (step (bfs .sample)) s₀ as = some s → as.length ≤ bound) ∧
      ∀ as s, run (step (bfs .sample)) s₀ as = some s →
        (∀ a, Enabled s a → ∃ t, step (bfs .sample) s a = some t) ∧
        ((∀ a : Action Unit 2, ¬ Enabled s a) →
          Returned s ∧
          (∀ v d, Hops CsrGraph.sample.Edge CsrGraph.sampleSeed v d → s.mem v = d) ∧
          (∀ v, ¬ Reachable CsrGraph.sample.Edge CsrGraph.sampleSeed v → s.mem v = unset) ∧
          (∀ v, v ≠ CsrGraph.sampleSeed → Reachable CsrGraph.sample.Edge CsrGraph.sampleSeed v →
            s.appended.count v = 1) ∧
          ∀ v, ¬ (v ≠ CsrGraph.sampleSeed ∧
            Reachable CsrGraph.sample.Edge CsrGraph.sampleSeed v) → s.appended.count v = 0) :=
  bfs_any_order .sample (by decide) 2 (by decide) CsrGraph.sampleSeed

end PromotionCache.Apps.ParallelBfs
