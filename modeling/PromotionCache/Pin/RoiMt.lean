import PromotionCache.Pcc.MultiSpec

/-!
# The multithread tool

`roi_mt.cpp` and the callbacks of `common.h`: how the loads and stores of the program under simulation
reach `pcc_track_access`. A load is one callback; a store is two, since its address is known before
the instruction and the access is tracked after it, and the address waits between them in the static
variable `WriteAddr`, which all threads share.

An interleaving is the list of the callbacks in the order in which they run, each with the thread that
runs it.
-/

namespace PromotionCache.Pin
open Lib Pcc

/-- The callbacks, with those of their arguments that they use or hand on. -/
inductive Callback where
  | startROI
  | stopROI
  | recordMem (addr : UInt64) (size : Int)
  | recordWriteAddrSize (addr : UInt64) (size : Int)
  | recordMemWrite
  deriving DecidableEq

/-- The variables of the tool; `count` is the `_count` of each thread. Not in the source: `passed`, the
    arguments of the calls of `pcc_track_access` so far. -/
structure Tool where
  isROI : Bool
  writeAddr : UInt64
  writeSize : Int
  count : Nat → Nat
  sim : Multi.Mt
  passed : List (UInt64 × Nat)

/-- The state in which the program under simulation starts. Some benchmarks are tracked from there
    on, the others from a call of their `pin_start` routine on. -/
def main (cfg : Config) (numThreads : Nat) (isROI : Bool) : Option Tool := do
  let sim ← Multi.promotionCacheInit cfg numThreads
  some
    { isROI := isROI, writeAddr := 0, writeSize := 0, count := fun _ => 0, sim := sim, passed := [] }

/-- `RecordMem` in thread `tid` -/
def recordMem (cfg : Config) (s : Tool) (addr : UInt64) (_size : Int) (tid : Nat) : Option Tool :=
  if !s.isROI then some s
  else do
    let sim ← Multi.pccTrackAccess cfg s.sim (addr, tid)
    some
      { s with
        count := Function.update s.count tid (word (s.count tid + 1))
        sim := sim
        passed := s.passed ++ [(addr, tid)] }

/-- One callback of one thread. -/
def step (cfg : Config) (s : Tool) (call : Callback × Nat) : Option Tool :=
  match call.1 with
  | .startROI => some { s with isROI := true }
  | .stopROI => some { s with isROI := false }
  | .recordMem addr size => recordMem cfg s addr size call.2
  | .recordWriteAddrSize addr size => some { s with writeAddr := addr, writeSize := size }
  | .recordMemWrite => recordMem cfg s s.writeAddr s.writeSize call.2

/-- The state after an interleaving. -/
def tool (cfg : Config) (numThreads : Nat) (isROI : Bool) (calls : List (Callback × Nat)) :
    Option Tool := runFrom (step cfg) (main cfg numThreads isROI) calls

/-- The address of the store that thread `tid` is executing, if its first callback has run and its
    second has not. -/
def openStore (tid : Nat) (calls : List (Callback × Nat)) : Option UInt64 :=
  calls.foldl (fun opened call =>
    if call.2 = tid then
      match call.1 with
      | .recordWriteAddrSize addr _ => some addr
      | .recordMemWrite => none
      | _ => opened
    else opened) none

/-- After the callbacks `calls`, the callback `call` does not leave a store without its partner. -/
def Pairs (calls : List (Callback × Nat)) (call : Callback × Nat) : Prop :=
  match call.1 with
  | .recordWriteAddrSize _ _ => openStore call.2 calls = none
  | .recordMemWrite => (openStore call.2 calls).isSome = true
  | _ => True

/-- The stores of every thread are pairs of callbacks, one after the other. -/
def Paired (calls : List (Callback × Nat)) : Prop :=
  ∀ pre call, pre ++ [call] <+: calls → Pairs pre call

/-- The address of the latest `RecordWriteAddrSize`, of whichever thread. -/
def lastWrite (calls : List (Callback × Nat)) : Option UInt64 :=
  calls.foldl (fun last call => match call.1 with
    | .recordWriteAddrSize addr _ => some addr
    | _ => last) none

/-- For every store executed while tracking is on, `pcc_track_access` gets its address and thread. -/
def OwnAddress (cfg : Config) (n : Nat) (isROI : Bool) (calls : List (Callback × Nat)) : Prop :=
  ∀ pre tid addr s t, pre ++ [(.recordMemWrite, tid)] <+: calls → openStore tid pre = some addr →
    tool cfg n isROI pre = some s → s.isROI = true → step cfg s (.recordMemWrite, tid) = some t →
      t.passed = s.passed ++ [(addr, tid)]

section
variable {cfg : Config} {n tid : Nat} {isROI : Bool} {calls : List (Callback × Nat)} {s t : Tool}
  {addr : UInt64}

/-- What `RecordMem` does in and outside the region of interest. -/
lemma recordMem_inv {size : Int} (h : recordMem cfg s addr size tid = some t) :
    t.writeAddr = s.writeAddr ∧
      ((s.isROI = false ∧ t.sim = s.sim ∧ t.passed = s.passed) ∨
        (s.isROI = true ∧ Multi.pccTrackAccess cfg s.sim (addr, tid) = some t.sim ∧
          t.passed = s.passed ++ [(addr, tid)])) := by
  unfold recordMem at h
  cases roi : s.isROI with
  | false =>
    rw [roi] at h
    obtain rfl := Option.some.inj h
    exact ⟨rfl, .inl ⟨rfl, rfl, rfl⟩⟩
  | true =>
    simp only [roi, Bool.not_true, Bool.false_eq_true, if_false, Option.bind_eq_bind,
      Option.bind_eq_some_iff] at h
    obtain ⟨sim, hsim, h⟩ := h
    obtain rfl := Option.some.inj h
    exact ⟨rfl, .inr ⟨rfl, hsim, rfl⟩⟩

/-- One more callback is one more step. -/
lemma tool_snoc {call : Callback × Nat} : tool cfg n isROI (calls ++ [call]) = some t ↔
    ∃ s, tool cfg n isROI calls = some s ∧ step cfg s call = some t :=
  runFrom_snoc

/-- The simulator has seen the accesses passed to it and nothing else. -/
theorem tool_simulates (h : tool cfg n isROI calls = some s) :
    Multi.simulate cfg n s.passed = some s.sim := by
  refine runFrom_inv (fun _ s => Multi.simulate cfg n s.passed = some s.sim) ?_ ?_ h
  · intro s hmain
    simp only [main, Option.bind_eq_bind, Option.bind_eq_some_iff] at hmain
    obtain ⟨sim, hsim, hmain⟩ := hmain
    obtain rfl := Option.some.inj hmain
    exact Multi.simulate_nil.mpr hsim
  · rintro _ ⟨call, i⟩ _ s t _ inv st
    -- a callback that tracks an access, and the others
    have track : ∀ a size, recordMem cfg s a size i = some t →
        Multi.simulate cfg n t.passed = some t.sim := by
      intro a size hrec
      obtain ⟨_, ⟨_, hsim, hpassed⟩ | ⟨_, hsim, hpassed⟩⟩ := recordMem_inv hrec
      · rw [hsim, hpassed]
        exact inv
      · rw [hpassed]
        exact Multi.simulate_snoc.mpr ⟨s.sim, inv, hsim⟩
    cases call with
    | startROI =>
      obtain rfl := Option.some.inj st
      exact inv
    | stopROI =>
      obtain rfl := Option.some.inj st
      exact inv
    | recordMem a size => exact track a size st
    | recordWriteAddrSize =>
      obtain rfl := Option.some.inj st
      exact inv
    | recordMemWrite => exact track s.writeAddr s.writeSize st

/-- `WriteAddr` holds the address of the latest `RecordWriteAddrSize`. -/
lemma tool_writeAddr (h : tool cfg n isROI calls = some s) :
    s.writeAddr = (lastWrite calls).getD 0 := by
  refine runFrom_inv (fun calls s => s.writeAddr = (lastWrite calls).getD 0) ?_ ?_ h
  · intro s hmain
    simp only [main, Option.bind_eq_bind, Option.bind_eq_some_iff] at hmain
    obtain ⟨_, _, hmain⟩ := hmain
    obtain rfl := Option.some.inj hmain
    rfl
  · rintro calls ⟨call, i⟩ _ s t _ inv st
    unfold lastWrite at inv ⊢
    rw [List.foldl_append]
    cases call with
    | startROI =>
      obtain rfl := Option.some.inj st
      exact inv
    | stopROI =>
      obtain rfl := Option.some.inj st
      exact inv
    | recordMem a size =>
      have tracked : recordMem cfg s a size i = some t := st
      exact (recordMem_inv tracked).1.trans inv
    | recordWriteAddrSize =>
      obtain rfl := Option.some.inj st
      rfl
    | recordMemWrite =>
      have tracked : recordMem cfg s s.writeAddr s.writeSize i = some t := st
      exact (recordMem_inv tracked).1.trans inv

/-- While a thread executes a store, some address has been recorded. -/
lemma lastWrite_of_open (h : openStore tid calls = some addr) : ∃ a, lastWrite calls = some a := by
  induction calls using List.reverseRecOn with
  | nil => cases h
  | append_singleton calls call ih =>
    obtain ⟨call, i⟩ := call
    unfold openStore at h ih
    unfold lastWrite at ih ⊢
    rw [List.foldl_append] at h ⊢
    simp only [List.foldl_cons, List.foldl_nil] at h ⊢
    cases call with
    | recordWriteAddrSize a => exact ⟨a, rfl⟩
    | startROI =>
      apply ih
      split at h <;> exact h
    | stopROI =>
      apply ih
      split at h <;> exact h
    | recordMem =>
      apply ih
      split at h <;> exact h
    | recordMemWrite =>
      split at h
      · cases h
      · exact ih h

/-- The stores are tracked under their own addresses if and only if between the two callbacks of each
    of them no other thread records an address that differs and comes last. -/
theorem ownAddress_iff : OwnAddress cfg n isROI calls ↔
    ∀ pre tid addr s t, pre ++ [(.recordMemWrite, tid)] <+: calls →
      openStore tid pre = some addr → tool cfg n isROI pre = some s → s.isROI = true →
        step cfg s (.recordMemWrite, tid) = some t → lastWrite pre = some addr := by
  unfold OwnAddress
  refine forall_congr' fun pre => forall_congr' fun tid => forall_congr' fun addr =>
    forall_congr' fun s => forall_congr' fun t => ?_
  refine imp_congr_right fun _ => imp_congr_right fun opened => imp_congr_right fun hs =>
    imp_congr_right fun roi => imp_congr_right fun st => ?_
  have tracked : recordMem cfg s s.writeAddr s.writeSize tid = some t := st
  obtain ⟨_, ⟨off, _⟩ | ⟨_, _, passed⟩⟩ := recordMem_inv tracked
  · rw [roi] at off
    cases off
  · obtain ⟨a, ha⟩ := lastWrite_of_open opened
    rw [passed, tool_writeAddr hs, ha]
    simp

/-- No callback is without its pair. -/
lemma paired_nil : Paired [] := by
  intro pre call h
  have len := h.length_le
  simp at len

/-- One more callback, if it is the one that belongs to those before. -/
lemma Paired.snoc (paired : Paired calls) (call : Callback × Nat) (next : Pairs calls call) :
    Paired (calls ++ [call]) := by
  intro pre c h
  rcases List.prefix_concat_iff.mp h with e | h
  · obtain ⟨rfl, last⟩ := List.append_inj' e rfl
    obtain rfl := List.singleton_inj.mp last
    exact next
  · exact paired pre c h

/-- Two threads store to addresses 4096 and 8192. The second one records its address before the first
    one has read its own back, so that both stores are tracked under 8192. -/
theorem store_misattributed :
    ∃ s, Paired [(.recordWriteAddrSize 4096 8, 0), (.recordWriteAddrSize 8192 8, 1),
        (.recordMemWrite, 0), (.recordMemWrite, 1)] ∧
      tool shipped 2 true [(.recordWriteAddrSize 4096 8, 0), (.recordWriteAddrSize 8192 8, 1),
        (.recordMemWrite, 0), (.recordMemWrite, 1)] = some s ∧
      s.passed = [(8192, 0), (8192, 1)] ∧
      ¬ OwnAddress shipped 2 true [(.recordWriteAddrSize 4096 8, 0),
        (.recordWriteAddrSize 8192 8, 1), (.recordMemWrite, 0), (.recordMemWrite, 1)] := by
  have recorded := (paired_nil.snoc (.recordWriteAddrSize 4096 8, 0) rfl).snoc
    (.recordWriteAddrSize 8192 8, 1) rfl
  have paired := (recorded.snoc (.recordMemWrite, 0) rfl).snoc (.recordMemWrite, 1) rfl
  have before : ((tool shipped 2 true [(.recordWriteAddrSize 4096 8, 0),
      (.recordWriteAddrSize 8192 8, 1)]).map fun s => (s.isROI, s.passed)) =
        some (true, []) := by decide +kernel
  have after : ((tool shipped 2 true [(.recordWriteAddrSize 4096 8, 0),
      (.recordWriteAddrSize 8192 8, 1), (.recordMemWrite, 0)]).map fun s => s.passed) =
        some [(8192, 0)] := by decide +kernel
  have both : ((tool shipped 2 true [(.recordWriteAddrSize 4096 8, 0),
      (.recordWriteAddrSize 8192 8, 1), (.recordMemWrite, 0), (.recordMemWrite, 1)]).map
        fun s => s.passed) = some [(8192, 0), (8192, 1)] := by decide +kernel
  obtain ⟨s, hs, passed⟩ := Option.map_eq_some_iff.mp both
  obtain ⟨t, ht, first⟩ := Option.map_eq_some_iff.mp after
  obtain ⟨s₀, hs₀, e⟩ := Option.map_eq_some_iff.mp before
  obtain ⟨roi, none⟩ := Prod.mk.inj e
  refine ⟨s, paired, hs, passed, ?_⟩
  intro own
  have three : tool shipped 2 true ([(.recordWriteAddrSize 4096 8, 0),
      (.recordWriteAddrSize 8192 8, 1)] ++ [(.recordMemWrite, 0)]) = some t := ht
  obtain ⟨s₁, hs₁, st⟩ := tool_snoc.mp three
  obtain rfl := Option.some.inj (hs₀.symm.trans hs₁)
  have last := own _ 0 4096 s₀ t ⟨[(.recordMemWrite, 1)], rfl⟩ rfl hs₀ roi st
  rw [first, none] at last
  cases last

end
end PromotionCache.Pin
