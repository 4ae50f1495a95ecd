import PromotionCache.Hawkeye.ScanOrder

/-!
# What HawkEye prints

Headers come before candidates, a region is printed when it is promoted, and no printed average is negative. As long as
there are few regions, every window prints all of them (`summarize_prints`).
-/

namespace PromotionCache.Hawkeye
open Lib Tlb Pcc

/-- What has been printed after some accesses. -/
structure Printed (s : State) : Prop where
  header : s.cout = [] ∨ ∃ count rest, s.cout = .regions count :: rest
  candidates : ∀ base ema bucket, .candidate base ema bucket ∈ s.cout → 0 ≤ ema ∧ 0 ≤ bucket
  promoted : ∀ base, s.hawkeyePromotions.contains base = true → ∃ ema bucket, .candidate base ema bucket ∈ s.cout

section
variable {p : Platform} {cfg : Config} {s t m : State} {base : Nat} {a : UInt64} {as : List UInt64}

/-- What is printed stays printed, and a promotion is a line of its own. -/
lemma Printed.add {line : Line} (printed : Printed s) (some : s.cout ≠ [])
    (cout : t.cout = s.cout ++ [line])
    (candidate : ∀ base ema bucket, line = .candidate base ema bucket → 0 ≤ ema ∧ 0 ≤ bucket)
    (promoted : ∀ base, t.hawkeyePromotions.contains base = true → s.hawkeyePromotions.contains base = true ∨
      ∃ ema bucket, line = .candidate base ema bucket) : Printed t := by
  refine ⟨?_, ?_, ?_⟩
  · obtain ⟨count, rest, e⟩ := printed.header.resolve_left some
    rw [cout, e]
    exact .inr ⟨count, rest ++ [line], rfl⟩
  · intro base ema bucket mem
    rw [cout, List.mem_append, List.mem_singleton] at mem
    cases mem with
    | inl old => exact printed.candidates base ema bucket old
    | inr new => exact candidate base ema bucket new.symm
  · intro base known
    rw [cout]
    cases promoted base known with
    | inl old =>
      obtain ⟨ema, bucket, mem⟩ := printed.promoted base old
      exact ⟨ema, bucket, List.mem_append_left _ mem⟩
    | inr new =>
      obtain ⟨ema, bucket, e⟩ := new
      exact ⟨ema, bucket, List.mem_append_right _ (List.mem_singleton.mpr e.symm)⟩

/-- No average is negative. -/
lemma Inv.get (inv : Inv p s) (base : Nat) : 0 ≤ s.ema.get base 0 := by
  cases inv base with
  | inl placed =>
    obtain ⟨_, e, placed⟩ := placed
    exact Known.get (.inl ⟨e, placed⟩) |>.1
  | inr absent => exact absent.ema.ge

/-- A promotion is printed with a bucket. -/
lemma Printed.promote {bucketIdx : Int} (printed : Printed s) (some : s.cout ≠ []) (inv : Inv p s)
    (nonneg : 0 ≤ bucketIdx) : Printed (s.promote base bucketIdx) := by
  refine printed.add some rfl ?_ ?_
  · intro base' ema bucket e
    obtain ⟨rfl, rfl, rfl⟩ := Line.candidate.inj e
    exact ⟨inv.get base, nonneg⟩
  · intro base' known
    rw [contains_promote, Bool.or_eq_true, decide_eq_true_eq] at known
    refine known.imp_right ?_
    rintro rfl
    exact ⟨_, _, rfl⟩

/-- A step of the scan only prints more. -/
lemma scanStep_keeps {c : Scan} {r : State ⊕ Scan} (h : scanStep p c = some r) :
    c.sim.cout <+: (Scan.after r).cout := by
  simp only [scanStep, Option.bind_eq_bind, Option.bind_eq_some_iff] at h
  obtain ⟨base, _, next, _, h⟩ := h
  split at h
  · obtain rfl := Option.some.inj h
    exact (List.prefix_append _ _).trans (List.prefix_append _ _)
  · obtain rfl := Option.some.inj h
    exact List.prefix_append _ _

/-- So does the whole scan. -/
lemma scanLoop_keeps {fuel : Nat} {c : Scan} (h : scanLoop p fuel c = some t) : c.sim.cout <+: t.cout := by
  induction fuel generalizing c with
  | zero => cases h
  | succ fuel ih =>
    rw [scanLoop] at h
    split at h
    · obtain ⟨r, hr, h⟩ := Option.bind_eq_some_iff.mp h
      have pre := scanStep_keeps hr
      cases r with
      | inl u =>
        obtain rfl := Option.some.inj h
        exact pre
      | inr c' => exact pre.trans (ih h)
    · obtain rfl := Option.some.inj h
      exact List.prefix_refl _

/-- What a step of the scan prints has its form. -/
lemma scanStep_printed {c : Scan} {r : State ⊕ Scan} (printed : Printed c.sim) (some : c.sim.cout ≠ [])
    (inv : Inv p c.sim) (h : scanStep p c = Option.some r) : Printed (Scan.after r) := by
  simp only [scanStep, Option.bind_eq_bind, Option.bind_eq_some_iff] at h
  obtain ⟨base, read, next, _, h⟩ := h
  obtain ⟨b, hb, _⟩ := Option.bind_eq_some_iff.mp read
  have nonneg : 0 ≤ c.bucketIdx := (index_isSome.mp ⟨b, hb⟩).1
  have line : Printed (c.sim.promote base c.bucketIdx) := printed.promote some inv nonneg
  split at h
  · obtain rfl := Option.some.inj h
    have more : (c.sim.promote base c.bucketIdx).cout ≠ [] :=
      List.append_ne_nil_of_right_ne_nil _ (List.cons_ne_nil _ _)
    exact line.add more rfl (fun _ _ _ e => by cases e) fun _ => .inl
  · obtain rfl := Option.some.inj h
    exact line

/-- So has what the whole scan prints. -/
lemma scanLoop_printed {fuel : Nat} {c : Scan} (printed : Printed c.sim) (some : c.sim.cout ≠ [])
    (inv : Inv p c.sim) (h : scanLoop p fuel c = Option.some t) : Printed t := by
  induction fuel generalizing c with
  | zero => cases h
  | succ fuel ih =>
    rw [scanLoop] at h
    split at h
    · obtain ⟨r, hr, h⟩ := Option.bind_eq_some_iff.mp h
      have printed' := scanStep_printed printed some inv hr
      cases r with
      | inl u =>
        obtain rfl := Option.some.inj h
        exact printed'
      | inr c' =>
        have some' : c'.sim.cout ≠ [] := fun none => some (List.prefix_nil.mp (none ▸ scanStep_keeps hr))
        exact ih printed' some' ((scanStep_scanned hr).inv inv) h
    · obtain rfl := Option.some.inj h
      exact printed

/-- The header of a window is the first line, or follows others. -/
lemma Printed.header' (printed : Printed s) : Printed s.header ∧ s.header.cout ≠ [] := by
  have cout : s.header.cout = s.cout ++ [.regions s.totalNumAccesses] := rfl
  refine ⟨?_, by rw [cout]; exact List.append_ne_nil_of_right_ne_nil _ (List.cons_ne_nil _ _)⟩
  cases printed.header with
  | inl none =>
    have only : s.header.cout = [.regions s.totalNumAccesses] := by rw [cout, none]; rfl
    refine ⟨.inr ⟨_, _, only⟩, ?_, ?_⟩
    · intro base ema bucket mem
      rw [only, List.mem_singleton] at mem
      cases mem
    · intro base known
      obtain ⟨_, _, mem⟩ := printed.promoted base known
      rw [none] at mem
      cases mem
  | inr some =>
    obtain ⟨_, _, e⟩ := some
    exact printed.add (by rw [e]; exact List.cons_ne_nil _ _) cout nofun fun _ => .inl

/-- So has what a summary prints. -/
lemma summarize_printed (inv : Inv p s) (printed : Printed s) (h : summarize p s = some t) : Printed t := by
  obtain ⟨u, hu, hscan⟩ := Option.bind_eq_some_iff.mp h
  obtain ⟨printed, some⟩ := printed.header'
  have e := (updateRegions_spec inv.header hu).1
  have cout : u.cout = s.header.cout := by rw [e]
  have promotions : u.hawkeyePromotions = s.header.hawkeyePromotions := by rw [e]
  have printed' : Printed u := by
    refine ⟨cout ▸ printed.header, cout ▸ printed.candidates, ?_⟩
    rw [cout, promotions]
    exact printed.promoted
  exact scanLoop_printed (c := scanStart u) printed' (cout ▸ some) (updateRegions_inv inv.header hu) hscan

/-- Covering a page prints nothing. -/
lemma cover_cout : (s.cover base).cout = s.cout ∧ (s.cover base).hawkeyePromotions = s.hawkeyePromotions := by
  unfold State.cover
  dsimp only
  split <;> exact ⟨rfl, rfl⟩

/-- An access that ends no window prints nothing. -/
lemma next_cout : (next cfg s a).cout = s.cout ∧ (next cfg s a).hawkeyePromotions = s.hawkeyePromotions := by
  unfold next
  split
  · exact cover_cout (s := s.count)
  · split <;> exact ⟨rfl, rfl⟩

/-- What has been printed keeps its form. -/
lemma Printed.same (printed : Printed s) (cout : t.cout = s.cout)
    (promotions : t.hawkeyePromotions = s.hawkeyePromotions) : Printed t := by
  refine ⟨cout ▸ printed.header, cout ▸ printed.candidates, ?_⟩
  rw [cout, promotions]
  exact printed.promoted

/-- After every trace. -/
theorem simulate_printed (h : simulate p cfg as = some s) : Printed s := by
  refine simulate_inv (fun _ s => Printed s) ⟨.inl rfl, nofun, nofun⟩ ?_ h
  intro bs a _ s t hs printed st
  rcases hawkeyeTrackAccess_inv st with ⟨_, rfl⟩ | ⟨m, u, summarizes, hu, rfl⟩
  · exact printed.same next_cout.1 next_cout.2
  · have inv := summarizes.inv (simulate_valid hs)
    have before : Printed m := by
      rw [summarizes.2]
      exact printed.same cover_cout.1 cover_cout.2
    exact (summarize_printed inv before hu).same rfl rfl

/-- A region stands in the buckets once. -/
lemma Placed.count_regionsFrom {e : ℚ} (placed : Placed p s base e) {n : Nat} (lt : n < 10) :
    (s.regionsFrom n 0).count base = if min 9 ⌊e / 50⌋ ≤ n then 1 else 0 := by
  have floor := floor_nonneg placed.nonneg
  have bucket : ∀ n < 10, (s.bucket n).count base = if (n : Int) = min 9 ⌊e / 50⌋ then 1 else 0 := by
    intro n lt
    obtain ⟨b, hb⟩ : ∃ b, index n = some b := index_isSome.mpr (by omega)
    rw [State.bucket, hb, index_eq_some.mp hb]
    exact placed.count b
  induction n with
  | zero =>
    rw [State.regionsFrom, List.drop_zero, bucket 0 lt]
    congr 1
    rw [eq_iff_iff]
    omega
  | succ n ih =>
    rw [State.regionsFrom, List.drop_zero, List.count_append, bucket (n + 1) lt, ih (by omega)]
    push_cast
    split <;> split <;> split <;> omega

/-- The buckets hold no region twice, those that have been placed, and only those of `coverage`. -/
lemma Inv.regions (inv : Inv p s) : (s.regionsFrom 9 0).Nodup ∧
    (∀ r e, Placed p s r e → r ∈ s.regionsFrom 9 0) ∧ ∀ r ∈ s.regionsFrom 9 0, r ∈ s.coverage := by
  have absent : ∀ r, Absent s r → r ∉ s.regionsFrom 9 0 := by
    intro r absent mem
    obtain ⟨b, mem⟩ := mem_regionsFrom.mp mem
    exact List.count_eq_zero.mp (absent.count b) mem
  have placed : ∀ r e, Placed p s r e → (s.regionsFrom 9 0).count r = 1 := by
    intro r e placed
    rw [placed.count_regionsFrom (by decide)]
    exact if_pos (min_le_left _ _)
  refine ⟨?_, ?_, ?_⟩
  · refine List.nodup_iff_count_le_one.mpr ?_
    intro r
    cases inv r with
    | inl known =>
      obtain ⟨_, e, known⟩ := known
      exact (placed r e known).le
    | inr none => exact (List.count_eq_zero.mpr (absent r none)).le.trans (Nat.zero_le 1)
  · intro r e known
    refine List.count_pos_iff.mp ?_
    rw [placed r e known]
    exact Nat.one_pos
  · intro r mem
    cases inv r with
    | inl known => exact known.1
    | inr none => exact absurd mem (absent r none)

/-- From an entry on, the scan prints all regions if they are few. -/
lemma scanLoop_prints {fuel n : Nat} {c : Scan} (h : scanLoop p fuel c = some t) (here : c.bucketIdx = n)
    (lt : n < 10) (entry : InBucket c.sim n c.idx)
    (few : (c.sim.regionsFrom n c.idx).length + c.numPromotions ≤ 8) :
    ∀ r ∈ c.sim.regionsFrom n c.idx, ∃ bucket, .candidate r (c.sim.ema.get r 0) bucket ∈ t.cout := by
  induction fuel generalizing c n with
  | zero => cases h
  | succ fuel ih =>
    obtain ⟨base, read, next⟩ := @scanStep_next p n c here lt entry
    rw [regionsFrom_cons entry read] at few ⊢
    rw [List.length_cons] at few
    have room : c.numPromotions < maxNumPromotions := by
      unfold maxNumPromotions
      omega
    rw [scanLoop, if_pos room] at h
    obtain ⟨r, hr, h⟩ := Option.bind_eq_some_iff.mp h
    -- the first region is printed
    have line : .candidate base (c.sim.ema.get base 0) (n : Int) ∈ (c.sim.promote base n).cout :=
      List.mem_append_right _ (List.mem_singleton_self _)
    obtain ⟨step, _, none⟩ | ⟨m, j, step, lt', entry', _, same⟩ := next
    · obtain rfl := Option.some.inj (step.symm.trans hr)
      obtain rfl := Option.some.inj h
      rw [none]
      intro r mem
      obtain rfl := List.mem_singleton.mp mem
      exact ⟨n, List.mem_append_left _ line⟩
    · obtain rfl := Option.some.inj (step.symm.trans hr)
      rw [← same] at few ⊢
      intro r mem
      cases List.mem_cons.mp mem with
      | inl first =>
        rw [first]
        exact ⟨n, (scanLoop_keeps h).subset line⟩
      | inr later =>
        have less : ((c.sim.promote base n).regionsFrom m j).length +
            (if c.sim.hawkeyePromotions.contains base then c.numPromotions else c.numPromotions + 1) ≤ 8 := by
          split <;> omega
        obtain ⟨bucket, mem⟩ := ih h rfl lt' entry' less r later
        rw [← (scanned_promote c.sim base n).get r]
        exact ⟨bucket, mem⟩

/-- With at most eight regions, `summarize` prints all of them with their new averages. -/
theorem summarize_prints (inv : Inv p s) (few : s.coverage.keys.length ≤ 8)
    (high : ∃ base ∈ s.coverage, 450 ≤ accEma p s base) (h : summarize p s = some t) :
    ∀ base ∈ s.coverage, ∃ bucket, .candidate base (accEma p s base) bucket ∈ t.cout := by
  obtain ⟨u, hu, hscan⟩ := Option.bind_eq_some_iff.mp h
  have inv' := updateRegions_inv inv.header hu
  obtain ⟨nodup, listed, only⟩ := inv'.regions
  obtain ⟨e, placed, _⟩ := updateRegions_spec inv.header hu
  have sub : u.regionsFrom 9 0 ⊆ s.coverage.keys := by
    intro r mem
    have mem := only r mem
    rw [e] at mem
    exact mem
  have length := (nodup.subperm sub).length_le
  have prints := scanLoop_prints (c := scanStart u) hscan rfl (by decide) ((inBucket_iff inv.header hu).mpr high)
    (by show (u.regionsFrom 9 0).length + 0 ≤ 8; omega)
  intro base mem
  obtain ⟨_, known⟩ := placed base mem
  obtain ⟨bucket, line⟩ := prints base (listed base _ known)
  have ema : u.ema.get base 0 = accEma p s base := by
    rw [UnorderedMap.get, known.ema]
    rfl
  rw [← ema]
  exact ⟨bucket, line⟩

end

end PromotionCache.Hawkeye
