import PromotionCache.Pcc.Multi
import PromotionCache.Pcc.TrackSpec

/-!
# What the multithread simulator does

A pass marks every region it lists as promoted (`Passed`), be it by a promotion or by the count that
the other branch increments. The code of a thread changes no other thread (`onThread_inv`), so that
the invariant of the caches holds for all threads after every trace (`simulate_valid`).
-/

namespace PromotionCache.Pcc.Multi
open Lib Tlb Sim

/-- The region `base` is promoted. -/
def Mt.promoted (s : Mt) (base : Nat) : Bool := s.pccPromotions.contains base

/-- The access count of a thread. -/
def Mt.numAccesses (s : Mt) (tid : Nat) : Option Nat := s.threads[tid]?.map Thread.numAccesses

/-- The invariant of the caches of all threads. -/
def Mt.Valid (s : Mt) : Prop := ∀ th ∈ s.threads, ∃ g, th.toCore.Valid g

/-- What a pass over the candidates `bases` does. -/
structure Passed (s t : Sim) (bases : List Nat) : Prop where
  cout : ∃ lines, t.cout = s.cout ++ lines ∧ lines.map Output.listed = bases.map some
  promoted : ∀ b, t.promoted b = true ↔ s.promoted b = true ∨ b ∈ bases

/-- A pass over nothing. -/
lemma Passed.refl (s : Sim) : Passed s s [] where
  cout := ⟨[], by simp, rfl⟩
  promoted := by simp

/-- Two passes, one after the other. -/
lemma Passed.trans {s t u : Sim} {bs cs : List Nat} (h : Passed s t bs) (h' : Passed t u cs) :
    Passed s u (bs ++ cs) := by
  obtain ⟨lines, e, listed⟩ := h.cout
  obtain ⟨lines', e', listed'⟩ := h'.cout
  constructor
  case cout =>
    refine ⟨lines ++ lines', ?_, ?_⟩
    · rw [e', e, List.append_assoc]
    · rw [List.map_append, List.map_append, listed, listed']
  case promoted =>
    intro b
    rw [h'.promoted, h.promoted, List.mem_append, or_assoc]

section
variable {cfg : Config} {g : Geometry}

/-- What an iteration does with a candidate that is printed. -/
def branch (s : Sim) (base freq : Nat) : Option Sim :=
  if !s.promoted base && 0 < freq then do
    let s ← s.promote base
    s.evictCandidate base
  else some (fetchAdd s base)

/-- An entry is listed with its frequency, and then takes its branch. -/
lemma summarizeEntry_eq_some {s t : Sim} {base : Nat} : summarizeEntry s base = some t ↔
    ∃ freq, s.freq base = some freq ∧ branch (s.afterListing base freq false) base freq = some t := by
  simp only [summarizeEntry, Option.bind_eq_bind, Option.bind_eq_some_iff]
  exact Iff.rfl

/-- A region is promoted and removed from the promotion cache, or its promotion is counted once more. -/
lemma branch_eq_some {s t : Sim} {base freq : Nat} (h : branch s base freq = some t) :
    (s.promoted base = false ∧ 0 < freq ∧ ∃ u, s.promote base = some u ∧ u.evictCandidate base = some t) ∨
      (¬ (s.promoted base = false ∧ 0 < freq) ∧ t = fetchAdd s base) := by
  unfold branch at h
  split at h
  case isTrue both =>
    have both : s.promoted base = false ∧ 0 < freq := by simpa using both
    exact .inl ⟨both.1, both.2, Option.bind_eq_some_iff.mp h⟩
  case isFalse both =>
    have both : ¬ (s.promoted base = false ∧ 0 < freq) := by simpa using both
    exact .inr ⟨both, (Option.some.inj h).symm⟩

/-- One iteration of a pass: both branches make the region a member of `pcc_promotions`. -/
lemma summarizeEntry_spec {s t : Sim} {base : Nat} (val : s.toCore.Valid g)
    (h : summarizeEntry s base = some t) : t.toCore.Valid g ∧ Passed s t [base] := by
  obtain ⟨freq, _, h⟩ := summarizeEntry_eq_some.mp h
  have val₁ := valid_afterListing base freq false val
  -- what the branches have in common
  have step : t.toCore.Valid g ∧ t.cout = (s.afterListing base freq false).cout ∧
      ∃ v, t.pccPromotions = s.pccPromotions.set base v := by
    rcases branch_eq_some h with ⟨_, _, u, hprom, hev⟩ | ⟨_, rfl⟩
    · obtain ⟨val₂, prom, _, _, cout, _⟩ := promote_spec val₁ hprom
      obtain ⟨val₃, _, prom', _, cout', _⟩ := evictCandidate_spec val₂ hev
      exact ⟨val₃, cout'.trans cout, _, prom'.trans prom⟩
    · exact ⟨val₁, rfl, _, rfl⟩
  obtain ⟨val', cout, v, prom⟩ := step
  refine ⟨val', ⟨_, cout, rfl⟩, ?_⟩
  intro b
  rw [Sim.promoted, prom, UnorderedMap.contains_set, Bool.or_eq_true, decide_eq_true_eq,
    List.mem_singleton, or_comm]
  rfl

/-- The loop of a pass, by induction on the candidates. -/
lemma summarizeEntries_spec {s t : Sim} {bases : List Nat} (val : s.toCore.Valid g)
    (h : bases.foldlM summarizeEntry s = some t) : t.toCore.Valid g ∧ Passed s t bases := by
  induction bases generalizing s with
  | nil =>
    obtain rfl := Option.some.inj h
    exact ⟨val, Passed.refl s⟩
  | cons base bases ih =>
    simp only [List.foldlM_cons, Option.bind_eq_bind, Option.bind_eq_some_iff] at h
    obtain ⟨u, hentry, h⟩ := h
    obtain ⟨val₁, passed₁⟩ := summarizeEntry_spec val hentry
    obtain ⟨val₂, passed₂⟩ := ih val₁ h
    exact ⟨val₂, passed₁.trans passed₂⟩

/-- One iteration of a pass keeps the other candidates. -/
lemma summarizeEntry_resident {s t : Sim} {base b : Nat} (val : s.toCore.Valid g)
    (hbase : base < 2 ^ 43) (ne : b ≠ base) (held : s.promotionCache.Resident b)
    (h : summarizeEntry s base = some t) : t.promotionCache.Resident b := by
  obtain ⟨freq, _, h⟩ := summarizeEntry_eq_some.mp h
  have val₁ := valid_afterListing base freq false val
  rcases branch_eq_some h with ⟨_, _, u, hprom, hev⟩ | ⟨_, rfl⟩
  · obtain ⟨val₂, _, pcc, _⟩ := promote_spec val₁ hprom
    obtain ⟨_, _, _, _, _, hres⟩ := evictCandidate_spec val₂ hev
    rw [hres, word_region hbase, Nat.mul_div_cancel _ (by decide), pcc]
    exact ⟨ne, held⟩
  · exact held

/-- An iteration on a region that the promotion cache holds succeeds. -/
lemma summarizeEntry_some {s : Sim} {base : Nat} (val : s.toCore.Valid g)
    (held : s.promotionCache.Resident base) : ∃ t, summarizeEntry s base = some t := by
  obtain ⟨freq, hfreq⟩ := freq_resident val held
  have val₁ := valid_afterListing base freq false val
  have step : ∃ t, branch (s.afterListing base freq false) base freq = some t := by
    unfold branch
    split
    case isTrue =>
      obtain ⟨u, hprom⟩ := promote_some val₁ base
      obtain ⟨val₂, _, pcc, _⟩ := promote_spec val₁ hprom
      rw [hprom]
      apply evictCandidate_some val₂
      rw [pcc]
      exact held
    case isFalse => exact ⟨_, rfl⟩
  obtain ⟨t, ht⟩ := step
  exact ⟨t, summarizeEntry_eq_some.mpr ⟨freq, hfreq, ht⟩⟩

/-- The loop of a pass over candidates that differ from each other. -/
lemma summarizeEntries_some {s : Sim} {bases : List Nat} (val : s.toCore.Valid g)
    (nodup : bases.Nodup) (held : ∀ b ∈ bases, s.promotionCache.Resident b) :
    ∃ t, bases.foldlM summarizeEntry s = some t := by
  induction bases generalizing s with
  | nil => exact ⟨s, rfl⟩
  | cons base bases ih =>
    obtain ⟨fresh, nodup⟩ := List.nodup_cons.mp nodup
    obtain ⟨hbase, held⟩ := List.forall_mem_cons.mp held
    obtain ⟨u, hentry⟩ := summarizeEntry_some val hbase
    obtain ⟨val₁, _⟩ := summarizeEntry_spec val hentry
    have rest : ∀ b ∈ bases, u.promotionCache.Resident b := by
      intro b hb
      have ne : b ≠ base := fun e => fresh (e ▸ hb)
      exact summarizeEntry_resident val (val.small base hbase) ne (held b hb) hentry
    obtain ⟨t, ht⟩ := ih val₁ nodup rest
    refine ⟨t, ?_⟩
    rw [List.foldlM_cons, hentry]
    exact ht

variable {s t : Mt} {tid : Nat}

/-- What thread `tid` sees. -/
def Thread.view (th : Thread) (s : Mt) : Sim := { toCore := th.toCore, toShared := s.toShared }

/-- A step on the view of a thread changes what is shared, and that thread. -/
lemma onThread_inv {f : Nat → Sim → Option Sim} (h : onThread s tid f = some t) :
    ∃ th u, s.threads[tid]? = some th ∧ f th.numAccesses (th.view s) = some u ∧
      t.toShared = u.toShared ∧
      t.threads = s.threads.set tid { th with toCore := u.toCore } := by
  simp only [onThread, Option.bind_eq_bind, Option.bind_eq_some_iff] at h
  obtain ⟨th, hth, u, hu, h⟩ := h
  obtain rfl := Option.some.inj h
  exact ⟨th, u, hth, hu, rfl, rfl⟩

/-- Code that keeps the invariant of the caches of a thread keeps it for all threads. -/
lemma Mt.Valid.onThread {th : Thread} {core : Core} (val : s.Valid)
    (ht : t.threads = s.threads.set tid { th with toCore := core }) (core_val : core.Valid g) :
    t.Valid := by
  intro th' mem
  rw [ht] at mem
  rcases List.mem_or_eq_of_mem_set mem with mem | rfl
  · exact val th' mem
  · exact ⟨g, core_val⟩

/-- The code of a thread leaves all access counts alone. -/
lemma numAccesses_onThread {th : Thread} {core : Core} (hth : s.threads[tid]? = some th)
    (ht : t.threads = s.threads.set tid { th with toCore := core }) (i : Nat) :
    t.numAccesses i = s.numAccesses i := by
  unfold Mt.numAccesses
  rw [ht, List.getElem?_set]
  split
  case isTrue e =>
    have lt := (List.getElem?_eq_some_iff.mp hth).1
    rw [← e, if_pos lt, hth]
    rfl
  case isFalse => rfl

/-- A pass of thread `tid` starts a new part of the output and marks what its promotion cache
    holds. -/
lemma summarizePromotions_spec (val : s.Valid) (h : summarizePromotions s tid = some t) :
    t.Valid ∧ ∃ (th : Thread) (bases : List Nat) (lines : List Output), s.threads[tid]? = some th ∧
      (∀ n, n ∈ bases ↔ th.promotionCache.Resident n) ∧
      (∀ i, t.numAccesses i = s.numAccesses i) ∧
      t.cout = s.cout ++ .regions th.numAccesses (some tid) :: lines ∧
      lines.map Output.listed = bases.map some ∧
      ∀ b, t.promoted b = true ↔ s.promoted b = true ∨ b ∈ bases := by
  obtain ⟨th, u, hth, hu, shared, threads⟩ := onThread_inv h
  simp only [Option.bind_eq_bind, Option.bind_eq_some_iff] at hu
  obtain ⟨bases, hget, hu⟩ := hu
  obtain ⟨g, vth⟩ := val th (List.mem_of_getElem? hth)
  obtain ⟨_, mem⟩ := vth.entries hget
  set s₁ : Sim := { th.view s with cout := s.cout ++ [.regions th.numAccesses (some tid)] }
  have val₁ : s₁.toCore.Valid g := vth
  obtain ⟨val', passed⟩ := summarizeEntries_spec val₁ hu
  obtain ⟨lines, cout, listed⟩ := passed.cout
  refine ⟨val.onThread threads val', th, bases, lines, hth, mem, numAccesses_onThread hth threads,
    ?_, listed, ?_⟩
  · rw [shared, cout, List.append_assoc]
    rfl
  · intro b
    rw [Mt.promoted, shared]
    exact passed.promoted b

/-- A pass of a thread succeeds. -/
lemma summarizePromotions_some {th : Thread} (val : s.Valid) (hth : s.threads[tid]? = some th) :
    ∃ t, summarizePromotions s tid = some t := by
  obtain ⟨g, vth⟩ := val th (List.mem_of_getElem? hth)
  obtain ⟨bases, hget⟩ := vth.promotionCache.getEntries_some
  obtain ⟨nodup, mem⟩ := vth.entries hget
  set s₁ : Sim := { th.view s with cout := s.cout ++ [.regions th.numAccesses (some tid)] }
  have val₁ : s₁.toCore.Valid g := vth
  obtain ⟨u, hu⟩ := summarizeEntries_some val₁ nodup fun b hb => (mem b).mp hb
  simp only [summarizePromotions, onThread, hth, hget, Option.bind_eq_bind, Option.bind_some]
  exact ⟨_, Option.bind_eq_some_iff.mpr ⟨u, hu, rfl⟩⟩

/-- Counting an access changes no cache. -/
lemma counted_valid (val : s.Valid) (tid : Nat) : (counted s tid).Valid := by
  intro th mem
  obtain ⟨i, hi⟩ := List.mem_iff_getElem?.mp mem
  simp only [counted, List.getElem?_modify, Option.map_eq_map, Option.map_eq_some_iff] at hi
  obtain ⟨th', hi', rfl⟩ := hi
  obtain ⟨g, vth⟩ := val th' (List.mem_of_getElem? hi')
  refine ⟨g, ?_⟩
  split <;> exact vth

/-- Only the thread that accesses counts. -/
lemma numAccesses_counted (s : Mt) (tid i : Nat) :
    (counted s tid).numAccesses i =
      (s.numAccesses i).map fun count => if tid = i then (count + 1) % 2 ^ 32 else count := by
  simp only [Mt.numAccesses, counted, List.getElem?_modify, Option.map_eq_map, Option.map_map]
  congr 1
  funext th
  simp only [Function.comp_apply]
  split <;> rfl

/-- An access is counted, and a pass runs where it is due. -/
lemma countAccess_inv (h : countAccess cfg s tid = some t) :
    cfg.period ≠ 0 ∧ ∃ count, (counted s tid).numAccesses tid = some count ∧
      (if passDue cfg count then summarizePromotions (counted s tid) tid
        else some (counted s tid)) = some t := by
  simp only [countAccess, Option.bind_eq_bind, Option.bind_eq_some_iff] at h
  obtain ⟨th, hth, h⟩ := h
  split at h
  case isTrue => cases h
  case isFalse ne =>
    refine ⟨ne, th.numAccesses, ?_, h⟩
    rw [Mt.numAccesses, hth]
    rfl

/-- An access for which a pass is due runs it, on what counting it leaves. -/
lemma countAccess_due {th : Thread} (hth : (counted s tid).threads[tid]? = some th) (ne : cfg.period ≠ 0)
    (due : passDue cfg th.numAccesses = true) : countAccess cfg s tid = summarizePromotions (counted s tid) tid := by
  simp only [countAccess, hth, Option.bind_eq_bind, Option.bind_some]
  rw [if_neg ne, if_pos due]

/-- Counting an access, with the pass it may trigger. -/
lemma countAccess_spec (val : s.Valid) (h : countAccess cfg s tid = some t) :
    t.Valid ∧ cfg.period ≠ 0 ∧ (∀ i, t.numAccesses i = (counted s tid).numAccesses i) ∧
      ∃ count, (counted s tid).numAccesses tid = some count ∧
        ∀ i, t.passes (some i) =
          s.passes (some i) + if tid = i ∧ passDue cfg count = true then 1 else 0 := by
  obtain ⟨ne, count, hcount, h⟩ := countAccess_inv h
  have val₁ := counted_valid val tid
  split at h
  case isTrue due =>
    obtain ⟨val', th, bases, lines, _, _, counts, cout, listed, _⟩ :=
      summarizePromotions_spec val₁ h
    refine ⟨val', ne, counts, count, hcount, ?_⟩
    intro i
    rw [Shared.passes, cout, List.countP_append, List.countP_cons, countP_listed listed,
      Nat.zero_add]
    simp [Shared.passes, counted, Output.isPass, due]
  case isFalse due =>
    obtain rfl := Option.some.inj h
    refine ⟨val₁, ne, fun _ => rfl, count, hcount, ?_⟩
    intro i
    simp [Shared.passes, counted, due]

/-- An access counts for its thread and runs a pass for no other. -/
lemma pccTrackAccess_spec {x : UInt64 × Nat} (val : s.Valid)
    (h : pccTrackAccess cfg s x = some t) :
    t.Valid ∧ cfg.period ≠ 0 ∧ (∀ i, t.numAccesses i = (counted s x.2).numAccesses i) ∧
      ∃ count, (counted s x.2).numAccesses x.2 = some count ∧
        ∀ i, t.passes (some i) =
          s.passes (some i) + if x.2 = i ∧ passDue cfg count = true then 1 else 0 := by
  obtain ⟨a, tid⟩ := x
  simp only [pccTrackAccess, Option.bind_eq_bind, Option.bind_eq_some_iff] at h
  obtain ⟨m, hm, htrack⟩ := h
  obtain ⟨val₁, ne, counts, count, hcount, passes⟩ := countAccess_spec val hm
  obtain ⟨th, u, hth, hu, shared, threads⟩ := onThread_inv htrack
  obtain ⟨g, vth⟩ := val₁ th (List.mem_of_getElem? hth)
  have vview : (th.view m).toCore.Valid g := vth
  obtain ⟨val', _, _, cout, _⟩ := trackAccess_spec vview hu
  refine ⟨val₁.onThread threads val', ne, ?_, count, hcount, ?_⟩
  · intro i
    rw [numAccesses_onThread hth threads, counts]
  · intro i
    rw [← passes i, Shared.passes, shared, cout]
    rfl

/-- Before the first access there is the initial state. -/
lemma simulate_nil {n : Nat} : simulate cfg n [] = some s ↔ promotionCacheInit cfg n = some s := by
  show runFrom (pccTrackAccess cfg) (promotionCacheInit cfg n) [] = some s ↔ _
  rw [runFrom_nil]

/-- One more access is one more step. -/
lemma simulate_snoc {n : Nat} {as : List (UInt64 × Nat)} {x : UInt64 × Nat} :
    simulate cfg n (as ++ [x]) = some t ↔
      ∃ m, simulate cfg n as = some m ∧ pccTrackAccess cfg m x = some t :=
  runFrom_snoc

/-- A trace that ends passes through a state after every prefix. -/
lemma simulate_prefix {n : Nat} {as bs : List (UInt64 × Nat)} (pre : bs <+: as)
    (h : simulate cfg n as = some s) : ∃ t, simulate cfg n bs = some t :=
  runFrom_prefix pre h

/-- What holds at the start and is kept by every access of a trace holds after the trace. -/
lemma simulate_inv {n : Nat} (Inv : List (UInt64 × Nat) → Mt → Prop) {as : List (UInt64 × Nat)}
    (base : ∀ s, promotionCacheInit cfg n = some s → Inv [] s)
    (ind : ∀ bs x, bs ++ [x] <+: as → ∀ s t, simulate cfg n bs = some s → Inv bs s →
      pccTrackAccess cfg s x = some t → Inv (bs ++ [x]) t)
    (h : simulate cfg n as = some s) : Inv as s :=
  runFrom_inv Inv base ind h

/-- The loop of the initialization, by induction on the threads. -/
lemma initThreads_spec {ids : List Nat} (val : s.Valid) (zero : ∀ th ∈ s.threads, th.numAccesses = 0)
    (h : ids.foldlM (initThread cfg) s = some t) :
    t.Valid ∧ ∀ th ∈ t.threads, th.numAccesses = 0 := by
  induction ids generalizing s with
  | nil =>
    obtain rfl := Option.some.inj h
    exact ⟨val, zero⟩
  | cons id ids ih =>
    simp only [List.foldlM_cons, initThread, Option.bind_eq_bind, Option.bind_assoc,
      Option.bind_eq_some_iff, Option.bind_some] at h
    obtain ⟨core, hcore, h⟩ := h
    refine ih ?_ ?_ h
    · intro th mem
      rcases List.mem_append.mp mem with old | new
      · exact val th old
      · cases List.mem_singleton.mp new
        exact (initCore_spec (initCore_pos hcore) hcore).1
    · intro th mem
      rcases List.mem_append.mp mem with old | new
      · exact zero th old
      · cases List.mem_singleton.mp new
        rfl

/-- The initial state has valid caches, and no thread has counted an access. -/
lemma promotionCacheInit_spec {n : Nat} (h : promotionCacheInit cfg n = some s) :
    s.Valid ∧ ∀ th ∈ s.threads, th.numAccesses = 0 :=
  initThreads_spec (by simp [Mt.Valid]) (by simp) h

/-- Every thread starts with caches of its own and nothing counted. -/
lemma initThreads_threads {ids : List Nat} (h : ids.foldlM (initThread cfg) s = some t) :
    t.threads.length = s.threads.length + ids.length ∧ t.pccPromotions = s.pccPromotions ∧
      ∀ th ∈ t.threads, th ∈ s.threads ∨ (initCore cfg = some th.toCore ∧ th.numAccesses = 0) := by
  induction ids generalizing s with
  | nil =>
    obtain rfl := Option.some.inj h
    exact ⟨rfl, rfl, fun th mem => .inl mem⟩
  | cons id ids ih =>
    simp only [List.foldlM_cons, initThread, Option.bind_eq_bind, Option.bind_assoc,
      Option.bind_eq_some_iff, Option.bind_some] at h
    obtain ⟨core, hcore, h⟩ := h
    obtain ⟨len, prom, new⟩ := ih h
    refine ⟨?_, prom, ?_⟩
    · rw [len, List.length_append, List.length_cons, List.length_cons, List.length_nil]
      omega
    · intro th mem
      rcases new th mem with old | fresh
      · rcases List.mem_append.mp old with old | new
        · exact .inl old
        · cases List.mem_singleton.mp new
          exact .inr ⟨hcore, rfl⟩
      · exact .inr fresh

/-- Every thread starts with the caches of `initCore`, and nothing is promoted. -/
lemma promotionCacheInit_threads {n : Nat} (h : promotionCacheInit cfg n = some s) :
    s.threads.length = n ∧ s.pccPromotions = .empty ∧
      ∀ th ∈ s.threads, initCore cfg = some th.toCore ∧ th.numAccesses = 0 := by
  obtain ⟨len, prom, fresh⟩ := initThreads_threads h
  refine ⟨?_, prom, ?_⟩
  · simpa using len
  · intro th mem
    exact (fresh th mem).resolve_left (by simp)

/-- The invariant of the caches holds after every trace. -/
lemma simulate_valid {n : Nat} {as : List (UInt64 × Nat)} (h : simulate cfg n as = some s) :
    s.Valid := by
  apply simulate_inv (fun _ s => s.Valid) _ _ h
  · exact fun s hinit => (promotionCacheInit_spec hinit).1
  · exact fun _ x _ s t _ val st => (pccTrackAccess_spec val st).1

/-- The number of accesses of a thread in a trace. -/
def accessesOf (tid : Nat) (as : List (UInt64 × Nat)) : Nat := as.countP fun x => x.2 = tid

/-- An access is one of the thread that makes it. -/
lemma accessesOf_snoc (as : List (UInt64 × Nat)) (x : UInt64 × Nat) :
    accessesOf tid (as ++ [x]) = accessesOf tid as + if x.2 = tid then 1 else 0 := by
  simp [accessesOf, List.countP_append, List.countP_singleton]

/-- The counter of a thread has the number of its accesses modulo `2 ^ 32`. -/
lemma simulate_counts {n : Nat} {as : List (UInt64 × Nat)} (h : simulate cfg n as = some s) :
    ∀ count, s.numAccesses tid = some count → count = accessesOf tid as % 2 ^ 32 := by
  refine simulate_inv (fun bs s => ∀ count, s.numAccesses tid = some count →
    count = accessesOf tid bs % 2 ^ 32) ?_ ?_ h
  · intro s hinit count hcount
    obtain ⟨th, hth, rfl⟩ := Option.map_eq_some_iff.mp hcount
    exact (promotionCacheInit_spec hinit).2 th (List.mem_of_getElem? hth)
  · intro bs x _ u v hu counts st count hcount
    obtain ⟨_, _, counts', _⟩ := pccTrackAccess_spec (simulate_valid hu) st
    rw [counts', numAccesses_counted] at hcount
    obtain ⟨old, hold, rfl⟩ := Option.map_eq_some_iff.mp hcount
    rw [accessesOf_snoc, counts old hold]
    split
    case isTrue => exact Nat.mod_add_mod _ _ _
    case isFalse => rfl

end
end PromotionCache.Pcc.Multi
