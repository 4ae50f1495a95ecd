import PromotionCache.Apps.Pagerank
import PromotionCache.Lib.Machine
import PromotionCache.Lib.TeamSpec

/-!
# Parallel PageRank

`fetch_add_double` and `pagerank` of `launch/parallel/pagerank/pagerank.h`, run by a team of threads in any
order of their loads, stores and compare-and-swaps, over the rational numbers and for any `alpha` and
`epsilon`. `init_pagerank` is the one of the program for one thread, up to the allocations.

To see whether an addition has brought `ret[w]` to `epsilon` a thread compares the value from before it with
a value that it loads after it, and that other additions may have raised further (`Stale`). Where no thread
does this, exactly one addition is seen to cross `epsilon`, and its thread holds the vertex from then until
it is appended: the counts of `Inv` say so.
-/

namespace PromotionCache.Apps.ParallelPagerank
open Lib Lib.Team PromotionCache.Graph
variable {G : CsrGraph} {n : ℕ}

/-- `x`, and the two arrays of residuals that `in_r` and `ret` point to. -/
structure Mem (G : CsrGraph) where
  x : Fin G.nodes → ℚ
  r : Bool → Fin G.nodes → ℚ

/-- Where a thread is in the body of the loop for `v`; `es` are the edges that are left after `e`. -/
inductive Local (G : CsrGraph) where
  /-- at the load of `x[v]` in `x[v] = x[v] + in_r[v]` -/
  | loadX
  /-- at the load of `in_r[v]` there -/
  | loadR (x : ℚ)
  /-- at the store there -/
  | storeX (sum : ℚ)
  /-- at `new_r = in_r[v]*alpha/G_v` -/
  | share
  /-- at the loop over the edges: at `value = *addr` in `fetch_add_double` if there is one left, and at
      `in_r[v] = 0` if not -/
  | edges (newR : ℚ) (es : List (Fin G.edges))
  /-- at the compare-and-swap -/
  | swap (newR : ℚ) (e : Fin G.edges) (es : List (Fin G.edges)) (value : ℚ)
  /-- at the load of `ret[w]` in `ret[w] >= epsilon && r_old < epsilon` -/
  | test (newR : ℚ) (e : Fin G.edges) (es : List (Fin G.edges)) (rOld : ℚ)

/-- The store of `a` to the slot `v` of the array `b`. -/
def Mem.store (m : Mem G) (b : Bool) (v : Fin G.nodes) (a : ℚ) : Mem G :=
  { m with r := Function.update m.r b (Function.update (m.r b) v a) }

section
variable (alpha epsilon : ℚ)

/-- A step in the body. `in_r` points to the array `b`, and `ret` to the other one. -/
def bodyStep (spurious b : Bool) (m : Mem G) (v : Fin G.nodes) :
    Local G → Option (Mem G × Next (Fin G.nodes) (Local G))
  | .loadX => some (m, .go (.loadR (m.x v)))
  | .loadR x => some (m, .go (.storeX (x + m.r b v)))
  | .storeX sum => some ({ m with x := Function.update m.x v sum }, .go .share)
  | .share => some (m, .go (.edges (m.r b v * alpha / G.outdegree v) (G.edgesOf v)))
  | .edges _ [] => some (m.store b v 0, .finish)
  | .edges newR (e :: es) => some (m, .go (.swap newR e es (m.r (!b) (G.edgeArray e))))
  | .swap newR e es value =>
    let w := G.edgeArray e
    if m.r (!b) w = value ∧ spurious = false then
      some (m.store (!b) w (value + newR), .go (.test newR e es value))
    else some (m, .go (.edges newR (e :: es)))
  | .test newR e es rOld =>
    let w := G.edgeArray e
    if epsilon ≤ m.r (!b) w ∧ rOld < epsilon then some (m, .push w (.edges newR es))
    else some (m, .go (.edges newR es))

/-- `pagerank`; `hop` is an `int`. -/
def pagerank (G : CsrGraph) : Kernel (Fin G.nodes) (Mem G) (Local G) Bool where
  start := fun _ => .loadX
  step := fun spurious b _ => bodyStep alpha epsilon spurious b
  capacity := some G.nodes
  bound := intBound

/-- `init_pagerank`, before the team starts. -/
def initPagerank (G : CsrGraph) (n : ℕ) : Option (State (Fin G.nodes) (Mem G) (Local G) n) :=
  (Pagerank.initPagerank alpha G).map fun s =>
    .start { x := s.x, r := fun b => if b then s.ret else s.inR } s.inWl.entries

/-- A thread that did not cross `epsilon` with its own addition is about to see that it has been crossed
    since. -/
def Stale (b : Bool) (m : Mem G) : Local G → Prop
  | .test newR e _ rOld => rOld + newR < epsilon ∧ rOld < epsilon ∧ epsilon ≤ m.r (!b) (G.edgeArray e)
  | _ => False

instance (b : Bool) (m : Mem G) (l : Local G) : Decidable (Stale epsilon b m l) := by
  cases l <;> unfold Stale <;> infer_instance

/-- No thread takes a step from such a place. -/
def NeverStale (s₀ : State (Fin G.nodes) (Mem G) (Local G) n) (as : List (Action Bool n)) : Prop :=
  Along (pagerank alpha epsilon G) (fun b m _ l => ¬ Stale epsilon b m l) s₀ as

/-- How often a thread holds `w`, having crossed `epsilon` with its addition, and not appended. -/
def holds (w : Fin G.nodes) : Job (Fin G.nodes) (Local G) → ℕ
  | .busy _ _ (.test newR e _ rOld) =>
    if G.edgeArray e = w ∧ rOld < epsilon ∧ epsilon ≤ rOld + newR then 1 else 0
  | .owes _ _ v _ => if v = w then 1 else 0
  | _ => 0

/-- 1 for a residual from `epsilon` on, and 0 for one below. -/
def crossed (r : ℚ) : ℕ := if epsilon ≤ r then 1 else 0

/-- The epochs of `pagerank`. -/
abbrev PagerankEpoch (G : CsrGraph) (n : ℕ) := Epoch (Fin G.nodes) (Mem G) (Local G) n

/-- What a thread has in its hand: shares that are not negative, and, past an addition to it, a slot that
    has not gone down since. -/
def Carries (b : Bool) (m : Mem G) : Local G → Prop
  | .edges newR _ | .swap newR _ _ _ => 0 ≤ newR
  | .test newR e _ rOld => 0 ≤ newR ∧ rOld + newR ≤ m.r (!b) (G.edgeArray e)
  | _ => True

/-- What holds in every epoch. -/
structure Inv (a : PagerankEpoch G n) : Prop where
  placed : a.Placed
  nonneg : ∀ b v, 0 ≤ a.mem.r b v
  busy : ∀ tid i u l, a.jobs tid = .busy i u l → Carries a.side a.mem l
  owes : ∀ tid i u v l, a.jobs tid = .owes i u v l → ∃ newR es, l = .edges newR es ∧ 0 ≤ newR
  low : ∀ v, a.mem.r a.side v < epsilon ∨
    ∃ tid j, a.front[j]? = some v ∧ j % n = Fin.val tid ∧ (a.jobs tid).index ≤ j
  nodup : a.front.Nodup
  count : ∀ w, ∑ tid, holds epsilon w (a.jobs tid) + a.pushed.count w =
    crossed epsilon (a.mem.r (!a.side) w)

end

section
variable {alpha epsilon : ℚ} {a b : PagerankEpoch G n} {tid : Fin n} {m : Mem G} {u v w : Fin G.nodes}
  {i : ℕ} {l : Local G} {job : Job (Fin G.nodes) (Local G)} {e : Fin G.edges}
  {es : List (Fin G.edges)} {newR : ℚ} {side : Bool}

/-- The array that is stored to. -/
lemma store_same (m : Mem G) (side : Bool) (v w : Fin G.nodes) (q : ℚ) :
    (m.store side v q).r side w = Function.update (m.r side) v q w := by
  simp [Mem.store]

/-- The other one. -/
lemma store_other (m : Mem G) (side : Bool) (v w : Fin G.nodes) (q : ℚ) :
    (m.store side v q).r (!side) w = m.r (!side) w := by
  simp [Mem.store]

/-- Larger residuals in `ret` change nothing for a thread. -/
lemma Carries.mono {m' : Mem G} (carries : Carries side m l)
    (le : ∀ v, m.r (!side) v ≤ m'.r (!side) v) : Carries side m' l := by
  cases l with
  | test newR e es rOld => exact ⟨carries.1, carries.2.trans (le _)⟩
  | _ => exact carries

/-- One thread goes on, and lowers no slot of `ret`. -/
lemma Inv.setJob (inv : Inv epsilon a) (pushed : List (Fin G.nodes))
    (placed : Epoch.Placed { a.setJob tid job with mem := m, pushed })
    (nonneg : ∀ b v, 0 ≤ m.r b v)
    (le : ∀ v, a.mem.r (!a.side) v ≤ m.r (!a.side) v)
    (busy : ∀ i u l, job = .busy i u l → Carries a.side m l)
    (owes : ∀ i u v l, job = .owes i u v l → ∃ newR es, l = .edges newR es ∧ 0 ≤ newR)
    (lowIn : ∀ v, m.r a.side v ≤ a.mem.r a.side v)
    (own : ∀ v j, a.front[j]? = some v → j % n = tid → (a.jobs tid).index ≤ j →
      m.r a.side v < epsilon ∨ job.index ≤ j)
    (count : ∀ w,
      holds epsilon w job + pushed.count w + crossed epsilon (a.mem.r (!a.side) w) =
        holds epsilon w (a.jobs tid) + a.pushed.count w + crossed epsilon (m.r (!a.side) w)) :
    Inv epsilon { a.setJob tid job with mem := m, pushed } where
  placed := placed
  nonneg := nonneg
  busy := by
    intro x i u l hx
    rcases eq_or_ne x tid with rfl | ne
    · exact busy i u l (by simpa [Epoch.setJob] using hx)
    · exact (inv.busy x i u l (by simpa [Epoch.setJob, ne] using hx)).mono le
  owes := by
    intro x i u v l hx
    rcases eq_or_ne x tid with rfl | ne
    · exact owes i u v l (by simpa [Epoch.setJob] using hx)
    · exact inv.owes x i u v l (by simpa [Epoch.setJob, ne] using hx)
  low := by
    intro v
    rcases inv.low v with low | ⟨x, j, front, mine, before⟩
    · exact .inl ((lowIn v).trans_lt low)
    · rcases eq_or_ne x tid with rfl | ne
      · refine (own v j front mine before).imp_right fun before' => ?_
        exact ⟨x, j, front, mine, by simpa [Epoch.setJob] using before'⟩
      · exact .inr ⟨x, j, front, mine, by simpa [Epoch.setJob, ne] using before⟩
  nodup := inv.nodup
  count := by
    intro w
    have sum := sum_update a.jobs tid job (holds epsilon w)
    have old := inv.count w
    have new := count w
    dsimp only [Epoch.setJob]
    omega

/-- A thread begins with an entry. -/
lemma Inv.start (inv : Inv epsilon a)
    (placed : Epoch.Placed (a.setJob tid (.busy i u .loadX)))
    (todo : a.jobs tid = .todo i) : Inv epsilon (a.setJob tid (.busy i u .loadX)) := by
  refine inv.setJob (m := a.mem) a.pushed placed inv.nonneg (fun _ => le_rfl) ?_ ?_ (fun _ => le_rfl) ?_ ?_
  · rintro i u l ⟨⟩
    trivial
  · rintro i u v l ⟨⟩
  · intro v j _ _ before
    rw [todo] at before
    exact .inr before
  · intro w
    rw [todo]
    rfl

/-- A step in the body that leaves the residuals, with nothing to append. -/
lemma Inv.go {l' : Local G} (inv : Inv epsilon a)
    (placed : Epoch.Placed { a.setJob tid (.busy i u l') with mem := m })
    (busy : a.jobs tid = .busy i u l) (same : m.r = a.mem.r) (carries : Carries a.side m l')
    (count : ∀ w, holds epsilon w (.busy i u l') = holds epsilon w (.busy i u l)) :
    Inv epsilon { a.setJob tid (.busy i u l') with mem := m } := by
  have le : ∀ b v, a.mem.r b v = m.r b v := fun b v => by rw [same]
  refine inv.setJob a.pushed placed ?_ (fun v => (le _ v).le) ?_ ?_ (fun v => (le _ v).ge) ?_ ?_
  · rw [same]
    exact inv.nonneg
  · rintro i u l ⟨⟩
    exact carries
  · rintro i u v l ⟨⟩
  · intro v j _ _ before
    rw [busy] at before
    exact .inr before
  · intro w
    rw [count w, busy, same]

/-- The addition. A thread holds the vertex if it is its addition that crosses `epsilon`. -/
lemma Inv.swap (inv : Inv epsilon a)
    (placed : Epoch.Placed
      { a.setJob tid (.busy i u (.test newR e es (a.mem.r (!a.side) (G.edgeArray e)))) with
        mem := a.mem.store (!a.side) (G.edgeArray e)
          (a.mem.r (!a.side) (G.edgeArray e) + newR) })
    (busy : a.jobs tid = .busy i u (.swap newR e es (a.mem.r (!a.side) (G.edgeArray e)))) :
    Inv epsilon
      { a.setJob tid (.busy i u (.test newR e es (a.mem.r (!a.side) (G.edgeArray e)))) with
        mem := a.mem.store (!a.side) (G.edgeArray e)
          (a.mem.r (!a.side) (G.edgeArray e) + newR) } := by
  have pos : 0 ≤ newR := inv.busy tid i u _ busy
  have slot := inv.nonneg (!a.side) (G.edgeArray e)
  generalize hr : a.mem.r (!a.side) (G.edgeArray e) = r at *
  have self : (a.mem.store (!a.side) (G.edgeArray e) (r + newR)).r (!a.side) (G.edgeArray e) =
      r + newR := by
    rw [store_same, Function.update_self]
  have other : ∀ v, v ≠ G.edgeArray e →
      (a.mem.store (!a.side) (G.edgeArray e) (r + newR)).r (!a.side) v = a.mem.r (!a.side) v := by
    intro v ne
    rw [store_same, Function.update_of_ne ne]
  have input : ∀ v, (a.mem.store (!a.side) (G.edgeArray e) (r + newR)).r a.side v =
      a.mem.r a.side v := by
    intro v
    have h := store_other a.mem (!a.side) (G.edgeArray e) v (r + newR)
    rwa [Bool.not_not] at h
  have grow : ∀ v, a.mem.r (!a.side) v ≤
      (a.mem.store (!a.side) (G.edgeArray e) (r + newR)).r (!a.side) v := by
    intro v
    rcases eq_or_ne v (G.edgeArray e) with rfl | ne
    · rw [self, hr]
      linarith
    · rw [other v ne]
  refine inv.setJob a.pushed placed ?_ grow ?_ ?_ (fun v => (input v).le) ?_ ?_
  · intro b v
    rcases Bool.eq_or_eq_not b a.side with rfl | rfl
    · rw [input]
      exact inv.nonneg _ v
    · exact (inv.nonneg _ v).trans (grow v)
  · rintro i u l ⟨⟩
    exact ⟨pos, self.ge⟩
  · rintro i u v l ⟨⟩
  · intro v j _ _ before
    rw [busy] at before
    exact .inr before
  · intro w
    rw [busy]
    rcases eq_or_ne w (G.edgeArray e) with rfl | ne
    · rw [self, hr]
      simp only [holds, crossed, true_and]
      by_cases low : r < epsilon
      · rw [if_neg (not_le.mpr low)]
        by_cases cross : epsilon ≤ r + newR
        · simp [low, cross]
          omega
        · simp [cross]
      · have high := not_lt.mp low
        have still : epsilon ≤ r + newR := by linarith
        simp [low, high, still]
    · rw [other w ne]
      simp [holds, ne.symm]

/-- The test that succeeds, not `Stale`: the thread holds the vertex, and goes on to append it. -/
lemma Inv.hit {rOld : ℚ} (inv : Inv epsilon a)
    (placed : Epoch.Placed
      { a.setJob tid (.owes i u (G.edgeArray e) (.edges newR es)) with mem := a.mem })
    (busy : a.jobs tid = .busy i u (.test newR e es rOld)) (low : rOld < epsilon)
    (cross : epsilon ≤ rOld + newR) :
    Inv epsilon { a.setJob tid (.owes i u (G.edgeArray e) (.edges newR es)) with mem := a.mem } := by
  have pos := (inv.busy tid i u _ busy).1
  refine inv.setJob a.pushed placed inv.nonneg (fun _ => le_rfl) ?_ ?_ (fun _ => le_rfl) ?_ ?_
  · rintro i u l ⟨⟩
  · rintro i u v l ⟨⟩
    exact ⟨newR, es, rfl, pos⟩
  · intro v j _ _ before
    rw [busy] at before
    exact .inr before
  · intro w
    rw [busy]
    simp [holds, low, cross]

/-- An entry is done: its residual is taken. -/
lemma Inv.finish (inv : Inv epsilon a) (he : 0 < epsilon)
    (placed : Epoch.Placed { a.setJob tid (.todo (i + n)) with mem := a.mem.store a.side u 0 })
    (busy : a.jobs tid = .busy i u (.edges newR [])) :
    Inv epsilon { a.setJob tid (.todo (i + n)) with mem := a.mem.store a.side u 0 } := by
  have mineI := inv.placed.mine tid
  have entry := inv.placed.entry tid i u (by rw [busy]; rfl)
  rw [busy] at mineI
  have ret : ∀ v, (a.mem.store a.side u 0).r (!a.side) v = a.mem.r (!a.side) v := fun v =>
    store_other a.mem a.side u v 0
  have self : (a.mem.store a.side u 0).r a.side u = 0 := by rw [store_same, Function.update_self]
  have other : ∀ v, v ≠ u → (a.mem.store a.side u 0).r a.side v = a.mem.r a.side v := by
    intro v ne
    rw [store_same, Function.update_of_ne ne]
  have lower : ∀ v, (a.mem.store a.side u 0).r a.side v ≤ a.mem.r a.side v := by
    intro v
    rcases eq_or_ne v u with rfl | ne
    · rw [self]
      exact inv.nonneg _ _
    · exact (other v ne).le
  refine inv.setJob a.pushed placed ?_ (fun v => (ret v).ge) ?_ ?_ lower ?_ ?_
  · intro b v
    rcases Bool.eq_or_eq_not b a.side with rfl | rfl
    · rcases eq_or_ne v u with rfl | ne
      · exact self.ge
      · rw [other v ne]
        exact inv.nonneg _ v
    · rw [ret]
      exact inv.nonneg _ v
  · rintro i u l ⟨⟩
  · rintro i u v l ⟨⟩
  · intro v j front mine before
    rw [busy] at before
    rcases Nat.lt_or_eq_of_le before with lt | rfl
    · exact .inr (next_entry (mineI.trans mine.symm) lt)
    · have same : v = u := Option.some.inj (front.symm.trans entry)
      left
      rw [same, self]
      exact he
  · intro w
    rw [busy, ret]
    rfl

/-- The append. -/
lemma Inv.push (inv : Inv epsilon a)
    (placed : Epoch.Placed { a.setJob tid (.busy i u l) with pushed := a.pushed ++ [v] })
    (owes : a.jobs tid = .owes i u v l) :
    Inv epsilon { a.setJob tid (.busy i u l) with pushed := a.pushed ++ [v] } := by
  obtain ⟨newR, es, rfl, pos⟩ := inv.owes tid i u v l owes
  refine inv.setJob (m := a.mem) (a.pushed ++ [v]) placed inv.nonneg (fun _ => le_rfl) ?_ ?_
    (fun _ => le_rfl) ?_ ?_
  · rintro i u l ⟨⟩
    exact pos
  · rintro i u v l ⟨⟩
  · intro w j _ _ before
    rw [owes] at before
    exact .inr before
  · intro w
    rw [owes, List.count_append, List.count_singleton]
    simp only [holds, beq_iff_eq]
    omega

/-- In an epoch that is over no thread holds a vertex, and what was appended is what has a residual from
    `epsilon` on. -/
lemma Inv.count_of_over (inv : Inv epsilon a) (finished : a.Over) (w : Fin G.nodes) :
    a.pushed.count w = crossed epsilon (a.mem.r (!a.side) w) := by
  have none : ∑ tid, holds epsilon w (a.jobs tid) = 0 := by
    refine Finset.sum_eq_zero fun tid _ => ?_
    obtain ⟨i, todo, -⟩ := finished tid
    rw [todo]
    rfl
  rw [← inv.count w, none, Nat.zero_add]

/-- A residual crosses `epsilon` at most once. -/
lemma crossed_le (epsilon r : ℚ) : crossed epsilon r ≤ 1 := by
  unfold crossed
  split <;> omega

/-- The output holds no vertex twice. -/
lemma Inv.pushed_nodup (inv : Inv epsilon a) : a.pushed.Nodup := by
  rw [List.nodup_iff_count_le_one]
  intro w
  have count := inv.count w
  have le := crossed_le epsilon (a.mem.r (!a.side) w)
  omega

/-- The output fits its array. -/
lemma Inv.pushed_length (inv : Inv epsilon a) : a.pushed.length ≤ G.nodes := by
  have le := inv.pushed_nodup.length_le_card
  rwa [Fintype.card_fin] at le

/-- In an epoch that is over the output is exact. -/
lemma Inv.mem_of_over (inv : Inv epsilon a) (finished : a.Over) (w : Fin G.nodes) :
    w ∈ a.pushed ↔ epsilon ≤ a.mem.r (!a.side) w := by
  rw [← List.count_pos_iff, inv.count_of_over finished w]
  unfold crossed
  split
  case isTrue h => exact iff_of_true Nat.one_pos h
  case isFalse h => exact iff_of_false (Nat.lt_irrefl 0) h

/-- The output of an epoch that is over is the input of the next one. -/
lemma Inv.turn (inv : Inv epsilon a) (placed : Epoch.Placed a.next) (team : 0 < n)
    (finished : a.Over) : Inv epsilon a.next where
  placed := placed
  nonneg := inv.nonneg
  busy := by
    intro tid i u l h
    cases h
  owes := by
    intro tid i u v l h
    cases h
  low := by
    intro v
    by_cases mem : v ∈ a.pushed
    · obtain ⟨j, front⟩ := List.getElem?_of_mem mem
      exact .inr ⟨⟨j % n, Nat.mod_lt j team⟩, j, front, rfl, Nat.mod_le j n⟩
    · rw [inv.mem_of_over finished, not_le] at mem
      exact .inl mem
  nodup := inv.pushed_nodup
  count := by
    intro w
    have low : a.mem.r a.side w < epsilon := by
      refine (inv.low w).resolve_right ?_
      rintro ⟨tid, j, front, -, before⟩
      obtain ⟨i, todo, le⟩ := finished tid
      have lt := (List.getElem?_eq_some_iff.mp front).1
      rw [todo] at before
      exact absurd before (by simp only [Job.index]; omega)
    simp [Epoch.next, holds, crossed, not_le.mpr low]

/-- A step of the body keeps what holds, if it is not `Stale`. -/
lemma Inv.body {spurious : Bool} {next : Next (Fin G.nodes) (Local G)} (inv : Inv epsilon a)
    (h0 : 0 < alpha) (he : 0 < epsilon)
    (placed : Epoch.Placed { a.setJob tid (.after n i u next) with mem := m })
    (busy : a.jobs tid = .busy i u l) (fresh : ¬ Stale epsilon a.side a.mem l)
    (h : bodyStep alpha epsilon spurious a.side a.mem u l = some (m, next)) :
    Inv epsilon { a.setJob tid (.after n i u next) with mem := m } := by
  have carries := inv.busy tid i u l busy
  cases l with
  | loadX =>
    cases h
    exact inv.go placed busy rfl trivial fun _ => rfl
  | loadR x =>
    cases h
    exact inv.go placed busy rfl trivial fun _ => rfl
  | storeX sum =>
    cases h
    exact inv.go placed busy rfl trivial fun _ => rfl
  | share =>
    cases h
    refine inv.go placed busy rfl ?_ fun _ => rfl
    have pos := inv.nonneg a.side u
    dsimp only [Carries]
    positivity
  | edges newR es =>
    cases es with
    | nil =>
      cases h
      exact inv.finish he placed busy
    | cons e es =>
      cases h
      exact inv.go placed busy rfl carries fun _ => rfl
  | swap newR e es value =>
    simp only [bodyStep] at h
    split at h
    case isTrue hit =>
      cases h
      obtain ⟨rfl, -⟩ := hit
      exact inv.swap placed busy
    case isFalse =>
      cases h
      exact inv.go placed busy rfl carries fun _ => rfl
  | test newR e es rOld =>
    obtain ⟨pos, le⟩ := carries
    simp only [bodyStep] at h
    split at h
    case isTrue hit =>
      cases h
      refine inv.hit placed busy hit.2 ?_
      by_contra below
      exact fresh ⟨not_le.mp below, hit.2, hit.1⟩
    case isFalse miss =>
      cases h
      refine inv.go placed busy rfl pos ?_
      intro w
      refine (if_neg ?_).symm
      rintro ⟨-, low, cross⟩
      exact miss ⟨cross.trans le, low⟩

/-- A step of the epochs keeps what holds. -/
lemma Inv.step (inv : Inv epsilon a) (h0 : 0 < alpha) (he : 0 < epsilon) (team : 0 < n)
    (st : Epoch.Step (pagerank alpha epsilon G) (fun b m _ l => ¬ Stale epsilon b m l) a b) :
    Inv epsilon b := by
  have placed := inv.placed.step st
  cases st with
  | start todo front => exact inv.start placed todo
  | body busy fresh h => exact inv.body h0 he placed busy fresh h
  | push owes => exact inv.push placed owes
  | turn _ finished => exact inv.turn placed team finished

end

/-- The worklist in the array `side` holds the vertices that have a residual from `epsilon` on in the array
    `side`, each once. -/
def Appended (epsilon : ℚ) (s : State (Fin G.nodes) (Mem G) (Local G) n) (side : Bool) : Prop :=
  ∃ ws : List (Fin G.nodes), ws.length = s.outIndex ∧
    (∀ i v, ws[i]? = some v → s.wl side i = some v) ∧ ws.Nodup ∧
    ∀ w, w ∈ ws ↔ epsilon ≤ s.mem.r side w

/-- What is required of a run, in the state `s` that it ends in: with all threads at the first barrier,
    where they have swapped their pointers, the output worklist is exact; the index never exceeds the
    number of slots; and no vertex is processed by two threads in one epoch. -/
structure ExactRun (alpha epsilon : ℚ) (s₀ : State (Fin G.nodes) (Mem G) (Local G) n)
    (as : List (Action Bool n)) (s : State (Fin G.nodes) (Mem G) (Local G) n) : Prop where
  barrier : AllAtBarrier1 s → ∀ tid, Appended epsilon s (s.threads tid).side
  capacity : s.outIndex ≤ G.nodes
  once : ∀ bs t, bs <+: as → run (step (pagerank alpha epsilon G)) s₀ bs = some t →
    ∀ tid x u, (t.threads tid).pc.node = some u → (s.threads x).pc.node = some u →
      (t.threads tid).hop = (s.threads x).hop → tid = x

section
variable {alpha epsilon : ℚ} {s₀ s : State (Fin G.nodes) (Mem G) (Local G) n}

/-- The start: all vertices are in the input, and no residual in `ret` is from `epsilon` on. -/
lemma initPagerank_inv (h0 : 0 < alpha) (h1 : alpha < 1) (he : 0 < epsilon) (team : 0 < n)
    (init : initPagerank alpha G n = some s₀) :
    ∃ mem front, s₀ = .start mem front ∧ Inv epsilon (.start mem front : PagerankEpoch G n) := by
  obtain ⟨p, hp, rfl⟩ := Option.map_eq_some_iff.mp init
  obtain ⟨p', hp', head⟩ := Pagerank.initPagerank_head (G := G) h0 h1 he
  obtain rfl := Option.some.inj (hp.symm.trans hp')
  refine ⟨_, _, rfl, ?_⟩
  constructor
  case placed => exact start_placed _ _
  case nonneg =>
    intro b v
    cases b with
    | false => exact head.inR_nonneg v
    | true => exact head.ret_nonneg v
  case busy =>
    intro tid i u l h
    cases h
  case owes =>
    intro tid i u v l h
    cases h
  case low =>
    intro v
    rcases lt_or_ge (p.inR v) epsilon with low | high
    · exact .inl low
    · obtain ⟨j, front⟩ := List.getElem?_of_mem (head.pending v high)
      exact .inr ⟨⟨j % n, Nat.mod_lt j team⟩, j, front, rfl, Nat.mod_le j n⟩
  case nodup => exact head.nodup
  case count =>
    intro w
    simp [Epoch.start, holds, crossed, not_le.mpr (head.low w)]

end

/-- In every run in which no thread tests a vertex that others have brought to `epsilon` since its own
    addition did not, the worklists are exact. -/
theorem pagerank_exact (G : CsrGraph) (alpha epsilon : ℚ) (h0 : 0 < alpha) (h1 : alpha < 1)
    (he : 0 < epsilon) (n : ℕ) (team : 0 < n) (s₀ s : State (Fin G.nodes) (Mem G) (Local G) n)
    (as : List (Action Bool n)) (init : initPagerank alpha G n = some s₀)
    (fresh : NeverStale alpha epsilon s₀ as)
    (h : run (step (pagerank alpha epsilon G)) s₀ as = some s) : ExactRun alpha epsilon s₀ as s := by
  obtain ⟨mem, front, rfl, inv₀⟩ := initPagerank_inv h0 h1 he team init
  constructor
  case barrier =>
    intro all tid
    obtain ⟨a, stands, steps⟩ := run_epochs team (start_stands _ _) fresh h
    have inv := inv_of_steps inv₀ (fun _ _ inv st => inv.step h0 he team st) steps
    have wk := stands.working team all
    obtain ⟨finished, loaded, fits⟩ := wk.at_barrier1 all
    rw [(fits tid).2.2]
    refine ⟨a.pushed, wk.outIndex.symm, loaded, inv.pushed_nodup, ?_⟩
    rw [wk.mem]
    exact inv.mem_of_over finished
  case capacity =>
    obtain ⟨a, stands, steps⟩ := run_epochs team (start_stands _ _) fresh h
    have inv := inv_of_steps inv₀ (fun _ _ inv st => inv.step h0 he team st) steps
    exact stands.outIndex_le.trans inv.pushed_length
  case once =>
    rintro bs t ⟨cs, rfl⟩ ht tid x u inT inS epoch
    have before : NeverStale alpha epsilon (.start mem front) bs := fun ds tid c s pre =>
      fresh ds tid c s (pre.trans (List.prefix_append bs cs))
    obtain ⟨a, standsA, stepsA⟩ := run_epochs team (start_stands _ _) before ht
    have invA := inv_of_steps inv₀ (fun _ _ inv st => inv.step h0 he team st) stepsA
    have rest : run (step (pagerank alpha epsilon G)) t cs = some s := by
      rwa [run_append, ht, Option.bind_some] at h
    have after : NeverStale alpha epsilon t cs := by
      intro ds tid c s' pre hs'
      refine fresh (bs ++ ds) tid c s' ?_ ?_
      · rw [List.append_assoc]
        exact (List.prefix_append_right_inj bs).mpr pre
      · rw [run_append, ht, Option.bind_some, hs']
    obtain ⟨b, standsB, steps⟩ := run_epochs team standsA after rest
    have invB := inv_of_steps invA (fun _ _ inv st => inv.step h0 he team st) steps
    exact node_unique invA.placed invB.placed standsA standsB steps invA.nodup inT inS epoch

/-- The value of `float alpha = 0.85` -/
def alphaFloat : ℚ := 7130317 / 8388608

/-- The value of `float epsilon = 0.01` -/
def epsilonFloat : ℚ := 5368709 / 536870912

/-- The offsets start at 0. -/
lemma crossing_first : (![0, 4, 8, 8] : Fin 4 → ℕ) 0 = 0 := rfl

/-- They end at the number of edges. -/
lemma crossing_last : (![0, 4, 8, 8] : Fin 4 → ℕ) (Fin.last 3) = 8 := rfl

/-- They ascend. -/
lemma crossing_mono : Monotone (![0, 4, 8, 8] : Fin 4 → ℕ) := Fin.monotone_iff_le_succ.mpr (by decide)

/-- Two vertices with a loop each and three edges to a third one. A share of either is below `epsilon`, and
    two are not. -/
def crossing : CsrGraph where
  nodes := 3
  edges := 8
  nodeArray := ![0, 4, 8, 8]
  edgeArray :=
    let u : Fin 3 := ⟨0, Nat.zero_lt_succ 2⟩
    let v : Fin 3 := ⟨1, Nat.one_lt_succ_succ 1⟩
    let third : Fin 3 := ⟨2, Nat.lt_succ_self 2⟩
    ![u, third, third, third, v, third, third, third]
  edgeValues := fun _ => 0
  first := crossing_first
  last := crossing_last
  mono := crossing_mono

/-- The next steps are those of one thread. -/
def alone (tid : Fin 2) (k : ℕ) : List (Action Bool 2) := List.replicate k (.thread tid false)

/-- The first of the two threads. -/
def thread₀ : Fin 2 := ⟨0, Nat.zero_lt_two⟩

/-- The second one. -/
def thread₁ : Fin 2 := ⟨1, Nat.one_lt_two⟩

/-- One thread after the other. -/
def inTurn : List (Action Bool 2) := alone thread₀ 30 ++ alone thread₁ 21

/-- One thread after the other appends the third vertex once. -/
theorem pagerank_exact_crossing :
    ∃ s₀ s, initPagerank alphaFloat crossing 2 = some s₀ ∧
      NeverStale alphaFloat epsilonFloat s₀ inTurn ∧
      run (step (pagerank alphaFloat epsilonFloat crossing)) s₀ inTurn = some s ∧
      AllAtBarrier1 s ∧ s.outIndex = 1 ∧ ExactRun alphaFloat epsilonFloat s₀ inTurn s := by
  have ends : ((initPagerank alphaFloat crossing 2).any fun s₀ =>
      alongCheck (pagerank alphaFloat epsilonFloat crossing)
          (fun b m _ l => !decide (Stale epsilonFloat b m l)) s₀ inTurn &&
        (run (step (pagerank alphaFloat epsilonFloat crossing)) s₀ inTurn).any fun s =>
          decide (AllAtBarrier1 s ∧ s.outIndex = 1)) = true := by
    decide +kernel
  obtain ⟨s₀, init, checked⟩ := (Option.any_eq_true _ _).mp ends
  obtain ⟨fresh, reached⟩ := (Bool.and_eq_true _ _).mp checked
  obtain ⟨s, h, last⟩ := (Option.any_eq_true _ _).mp reached
  obtain ⟨all, index⟩ := of_decide_eq_true last
  have never : NeverStale alphaFloat epsilonFloat s₀ inTurn :=
    along_of_check (by simp) fresh
  exact ⟨s₀, s, init, never, h, all, index,
    pagerank_exact crossing alphaFloat epsilonFloat (by norm_num [alphaFloat])
      (by norm_num [alphaFloat]) (by norm_num [epsilonFloat]) 2 (by decide) s₀ s inTurn init never h⟩

/-- Both threads add a share to the third vertex before either looks at it again. -/
def meeting : List (Action Bool 2) := alone thread₀ 12 ++ alone thread₁ 15 ++ alone thread₀ 18 ++ alone thread₁ 8

/-- Then both append it. -/
theorem stale_test_appends_twice :
    ¬ ∀ (G : CsrGraph) (n : ℕ) (s₀ s : State (Fin G.nodes) (Mem G) (Local G) n) as, 0 < n →
      initPagerank alphaFloat G n = some s₀ →
      run (step (pagerank alphaFloat epsilonFloat G)) s₀ as = some s →
      ExactRun alphaFloat epsilonFloat s₀ as s := by
  intro claim
  have ends : ((initPagerank alphaFloat crossing 2).any fun s₀ =>
      (run (step (pagerank alphaFloat epsilonFloat crossing)) s₀ meeting).any fun s =>
        decide (AllAtBarrier1 s ∧ (s.threads 0).side = true ∧ s.outIndex = 2 ∧
          s.wl true 0 = some (2 : Fin 3) ∧ s.wl true 1 = some (2 : Fin 3))) = true := by
    decide +kernel
  obtain ⟨s₀, init, reached⟩ := (Option.any_eq_true _ _).mp ends
  obtain ⟨s, h, last⟩ := (Option.any_eq_true _ _).mp reached
  obtain ⟨all, side, index, first, second⟩ := of_decide_eq_true last
  have exact' := claim crossing 2 s₀ s meeting (by decide) init h
  obtain ⟨ws, len, loaded, nodup, -⟩ := exact'.barrier all 0
  rw [index] at len
  rw [side] at loaded
  have at0 := loaded 0 ws[0] (List.getElem?_eq_getElem _)
  have at1 := loaded 1 ws[1] (List.getElem?_eq_getElem _)
  have twice : ws[0] = ws[1] :=
    Option.some.inj (at0.symm.trans (first.trans (second.symm.trans at1)))
  have := (List.Nodup.getElem_inj_iff nodup).mp twice
  omega

end PromotionCache.Apps.ParallelPagerank
