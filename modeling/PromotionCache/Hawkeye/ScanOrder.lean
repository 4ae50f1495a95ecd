import PromotionCache.Hawkeye.Buckets

/-!
# The order of the scan

The second loop of `summarize` goes through the entries of the buckets, from the top bucket down and from the
front of each to its back. It promotes the regions that it comes to, and stops after eight that had not been
promoted before.
-/

namespace PromotionCache.Hawkeye
open Lib Tlb Pcc

/-- The entries of bucket `n`. -/
def State.bucket (s : State) (n : Nat) : List Nat := (index n).elim [] s.buckets

/-- The positions of a bucket from `idx` on. -/
def State.positionsIn (s : State) (n idx : Nat) : List (Int × Nat) :=
  (List.range' idx ((s.bucket n).length - idx)).map fun i => (n, i)

/-- The positions from `idx` of bucket `n` on. -/
def State.positionsFrom (s : State) : Nat → Nat → List (Int × Nat)
  | 0, idx => s.positionsIn 0 idx
  | n + 1, idx => s.positionsIn (n + 1) idx ++ s.positionsFrom n 0

/-- The regions from `idx` of bucket `n` on. -/
def State.regionsFrom (s : State) : Nat → Nat → List Nat
  | 0, idx => (s.bucket 0).drop idx
  | n + 1, idx => (s.bucket (n + 1)).drop idx ++ s.regionsFrom n 0

/-- The regions of the list that have not been promoted, each where it comes first. -/
def State.unpromoted (s : State) (regions : List Nat) : List Nat :=
  (regions.filter fun r => !s.hawkeyePromotions.contains r).eraseDups

/-- The positions that the second loop of `summarize` reads. -/
def visits (p : Platform) : Nat → Scan → List (Int × Nat)
  | 0, _ => []
  | fuel + 1, c =>
    if c.numPromotions < maxNumPromotions then
      (c.bucketIdx, c.idx) ::
        match scanStep p c with
        | some (.inr c) => visits p fuel c
        | _ => []
    else []

/-- The positions that `scan` reads. -/
def visited (p : Platform) (s : State) : List (Int × Nat) :=
  visits p (s.entriesFrom (numBuckets - 1) 0 + 2) (scanStart s)

/-- A lower bucket, or a larger index in the same one. -/
def Later (x y : Int × Nat) : Prop := y.1 < x.1 ∨ (y.1 = x.1 ∧ x.2 < y.2)

/-- The regions in the buckets that have not been promoted. -/
def State.candidates (s : State) : Finset Nat :=
  (Finset.univ.biUnion fun b => (s.buckets b).toFinset).filter fun r =>
    s.hawkeyePromotions.contains r = false

section
variable {p : Platform} {s t : State} {n idx r base : Nat}

/-- The entries of a bucket. -/
lemma inBucket_iff_lt : InBucket s n idx ↔ idx < (s.bucket n).length := by
  unfold InBucket State.bucket
  cases index n with
  | none => simp
  | some b => simp

/-- The positions depend on the buckets alone. -/
lemma positionsFrom_congr (h : t.buckets = s.buckets) (n idx : Nat) :
    t.positionsFrom n idx = s.positionsFrom n idx := by
  induction n generalizing idx with
  | zero => simp only [State.positionsFrom, State.positionsIn, State.bucket, h]
  | succ n ih => simp only [State.positionsFrom, State.positionsIn, State.bucket, h, ih]

/-- So do the regions. -/
lemma regionsFrom_congr (h : t.buckets = s.buckets) (n idx : Nat) :
    t.regionsFrom n idx = s.regionsFrom n idx := by
  induction n generalizing idx with
  | zero => simp only [State.regionsFrom, State.bucket, h]
  | succ n ih => simp only [State.regionsFrom, State.bucket, h, ih]

/-- The first position of a bucket, and the others. -/
lemma positionsIn_cons (lt : idx < (s.bucket n).length) :
    s.positionsIn n idx = ((n : Int), idx) :: s.positionsIn n (idx + 1) := by
  obtain ⟨k, hk⟩ : ∃ k, (s.bucket n).length - idx = k + 1 := ⟨_, (Nat.sub_add_cancel (by omega)).symm⟩
  have rest : (s.bucket n).length - (idx + 1) = k := by omega
  rw [State.positionsIn, State.positionsIn, hk, rest, List.range'_succ]
  rfl

/-- Behind the last entry there is no position. -/
lemma positionsIn_nil (le : (s.bucket n).length ≤ idx) : s.positionsIn n idx = [] := by
  rw [State.positionsIn, Nat.sub_eq_zero_of_le le]
  rfl

/-- The position of an entry is the first one from there on. -/
lemma positionsFrom_cons (here : InBucket s n idx) :
    s.positionsFrom n idx = ((n : Int), idx) :: s.positionsFrom n (idx + 1) := by
  have lt := inBucket_iff_lt.mp here
  cases n with
  | zero => exact positionsIn_cons lt
  | succ n => rw [State.positionsFrom, State.positionsFrom, positionsIn_cons lt]; rfl

/-- The entry is the first region from there on. -/
lemma regionsFrom_cons (here : InBucket s n idx) (read : readBucket p s n idx = some base) :
    s.regionsFrom n idx = base :: s.regionsFrom n (idx + 1) := by
  obtain ⟨b, hb, lt⟩ := here
  simp only [readBucket, hb, Option.bind_eq_bind, Option.bind_some, List.getElem?_eq_getElem lt] at read
  obtain rfl := Option.some.inj read
  have first : (s.bucket n).drop idx = (s.buckets b)[idx] :: (s.bucket n).drop (idx + 1) := by
    rw [State.bucket, hb]
    exact List.drop_eq_getElem_cons lt
  cases n with
  | zero => exact first
  | succ n => rw [State.regionsFrom, State.regionsFrom, first]; rfl

/-- The inner loop leaves out no entry. -/
lemma skipFrom_left (s : State) {i : Int} {j : Nat} (lt : n < 10) (h : skipFrom s n idx = some (i, j)) :
    (i = -1 ∧ s.positionsFrom n idx = [] ∧ s.regionsFrom n idx = []) ∨
      ∃ m : Nat, i = m ∧ m < 10 ∧ InBucket s m j ∧ s.positionsFrom m j = s.positionsFrom n idx ∧
        s.regionsFrom m j = s.regionsFrom n idx := by
  induction n generalizing idx with
  | zero =>
    obtain ⟨b, hb⟩ : ∃ b, index (0 : Nat) = some b := index_isSome.mpr (by omega)
    have bucket : s.bucket 0 = s.buckets b := by rw [State.bucket, hb]; rfl
    have hb : index 0 = some b := hb
    rw [skipFrom, hb] at h
    simp only [Option.bind_eq_bind, Option.bind_some, Option.some.injEq] at h
    split at h
    case isTrue past =>
      obtain ⟨rfl, rfl⟩ := Prod.mk.inj h
      rw [← bucket] at past
      exact .inl ⟨rfl, positionsIn_nil past, List.drop_eq_nil_of_le past⟩
    case isFalse here =>
      obtain ⟨rfl, rfl⟩ := Prod.mk.inj h
      exact .inr ⟨0, rfl, by omega, ⟨b, hb, Nat.lt_of_not_le here⟩, rfl, rfl⟩
  | succ n ih =>
    obtain ⟨b, hb⟩ : ∃ b, index (n + 1 : Nat) = some b := index_isSome.mpr (by omega)
    have bucket : s.bucket (n + 1) = s.buckets b := by rw [State.bucket, hb]; rfl
    rw [skipFrom, hb] at h
    simp only [Option.bind_eq_bind, Option.bind_some] at h
    split at h
    case isTrue past =>
      rw [← bucket] at past
      have none : s.positionsFrom (n + 1) idx = s.positionsFrom n 0 := by
        rw [State.positionsFrom, positionsIn_nil past, List.nil_append]
      have none' : s.regionsFrom (n + 1) idx = s.regionsFrom n 0 := by
        rw [State.regionsFrom, List.drop_eq_nil_of_le past, List.nil_append]
      rw [none, none']
      exact ih (by omega) h
    case isFalse here =>
      obtain ⟨rfl, rfl⟩ := Prod.mk.inj (Option.some.inj h)
      exact .inr ⟨n + 1, rfl, lt, ⟨b, hb, Nat.lt_of_not_le here⟩, rfl, rfl⟩

/-- The positions come in the order of the scan, each once. -/
lemma pairwise_positionsFrom (n idx : Nat) : (s.positionsFrom n idx).Pairwise Later := by
  have inside : ∀ n idx, (s.positionsIn n idx).Pairwise Later := by
    intro n idx
    have ascending : (List.range' idx ((s.bucket n).length - idx)).Pairwise (· < ·) :=
      List.pairwise_lt_range' 1 Nat.one_pos
    rw [State.positionsIn, List.pairwise_map]
    exact ascending.imp fun lt => .inr ⟨rfl, lt⟩
  have below : ∀ n idx, ∀ x ∈ s.positionsFrom n idx, x.1 ≤ n := by
    intro n
    induction n with
    | zero =>
      intro idx x mem
      obtain ⟨i, _, rfl⟩ := List.mem_map.mp mem
      exact Int.le_refl 0
    | succ n ih =>
      intro idx x mem
      rcases List.mem_append.mp mem with here | lower
      · obtain ⟨i, _, rfl⟩ := List.mem_map.mp here
        exact Int.le_refl _
      · have le := ih 0 x lower
        omega
  induction n generalizing idx with
  | zero => exact inside 0 idx
  | succ n ih =>
    refine List.pairwise_append.mpr ⟨inside (n + 1) idx, ih 0, ?_⟩
    intro x mem y lower
    obtain ⟨i, _, rfl⟩ := List.mem_map.mp mem
    have le := below n 0 y lower
    exact .inl (by show y.1 < ((n + 1 : Nat) : Int); omega)

/-- What is promoted after a promotion. -/
lemma contains_promote (s : State) (base r : Nat) (bucketIdx : Int) :
    (s.promote base bucketIdx).hawkeyePromotions.contains r =
      (s.hawkeyePromotions.contains r || decide (r = base)) := by
  show (if s.hawkeyePromotions.contains base then
    s.hawkeyePromotions.set base ((s.hawkeyePromotions.get base 0 + 1) % 2 ^ 16)
      else s.hawkeyePromotions.set base 0).contains r = _
  split <;> rw [UnorderedMap.contains_set, Bool.or_comm]

/-- What is left of the regions after the first one. -/
lemma unpromoted_cons (s : State) (base : Nat) (bucketIdx : Int) (regions : List Nat) :
    s.unpromoted (base :: regions) =
      if s.hawkeyePromotions.contains base then (s.promote base bucketIdx).unpromoted regions
      else base :: (s.promote base bucketIdx).unpromoted regions := by
  unfold State.unpromoted
  cases known : s.hawkeyePromotions.contains base with
  | true =>
    have same : ∀ r, (s.promote base bucketIdx).hawkeyePromotions.contains r =
        s.hawkeyePromotions.contains r := by
      intro r
      rw [contains_promote]
      by_cases e : r = base
      · rw [e, known]
        rfl
      · simp [e]
    simp [known, same]
  | false =>
    rw [List.filter_cons_of_pos (by rw [known]; rfl), List.eraseDups_cons, List.filter_filter,
      if_neg Bool.false_ne_true]
    congr 2
    apply List.filter_congr
    intro r _
    rw [contains_promote, Bool.not_or, Bool.and_comm]
    congr 1

/-- Without duplicates no element is there twice. -/
lemma nodup_eraseDups (l : List Nat) : l.eraseDups.Nodup := by
  induction e : l.length using Nat.strongRecOn generalizing l with
  | _ n ih =>
    cases l with
    | nil => exact List.nodup_nil
    | cons x l =>
      rw [List.eraseDups_cons]
      have shorter := List.length_filter_le (fun b => !b == x) l
      rw [List.length_cons] at e
      refine List.nodup_cons.mpr ⟨?_, ih _ (by omega) _ rfl⟩
      simp

/-- The scan comes to all regions in the buckets. -/
lemma mem_regionsFrom : r ∈ s.regionsFrom 9 0 ↔ ∃ b, r ∈ s.buckets b := by
  have from' : ∀ n, r ∈ s.regionsFrom n 0 ↔ ∃ m ≤ n, r ∈ s.bucket m := by
    intro n
    induction n with
    | zero => simp [State.regionsFrom]
    | succ n ih =>
      rw [State.regionsFrom, List.drop_zero, List.mem_append, ih]
      constructor
      · rintro (here | ⟨m, le, mem⟩)
        · exact ⟨n + 1, Nat.le_refl _, here⟩
        · exact ⟨m, Nat.le_succ_of_le le, mem⟩
      · intro ⟨m, le, mem⟩
        rcases Nat.eq_or_lt_of_le le with rfl | lt
        · exact .inl mem
        · exact .inr ⟨m, Nat.le_of_lt_succ lt, mem⟩
  rw [from']
  constructor
  · intro ⟨m, le, mem⟩
    obtain ⟨b, hb⟩ : ∃ b, index m = some b := index_isSome.mpr (by omega)
    rw [State.bucket, hb] at mem
    exact ⟨b, mem⟩
  · intro ⟨b, mem⟩
    have hb : index (b : Nat) = some b := index_eq_some.mpr rfl
    refine ⟨b, Nat.le_of_lt_succ b.isLt, ?_⟩
    rw [State.bucket, hb]
    exact mem

/-- The unpromoted regions are as many as the regions in buckets that have not been promoted. -/
lemma length_unpromoted : (s.unpromoted (s.regionsFrom 9 0)).length = s.candidates.card := by
  have nodup : (s.unpromoted (s.regionsFrom 9 0)).Nodup := nodup_eraseDups _
  rw [← List.toFinset_card_of_nodup nodup]
  congr 1
  ext r
  rw [List.mem_toFinset, State.unpromoted, List.mem_eraseDups, List.mem_filter, mem_regionsFrom,
    State.candidates, Finset.mem_filter, Finset.mem_biUnion]
  simp

/-- An iteration at an entry ends the loop behind the last entry, or goes on with the next one. -/
lemma scanStep_next {c : Scan} (here : c.bucketIdx = n) (lt : n < 10) (entry : InBucket c.sim n c.idx) :
    ∃ base, readBucket p c.sim n c.idx = some base ∧
      ((scanStep p c = some (.inl { c.sim.promote base n with
          cout := (c.sim.promote base n).cout ++ [.promotedAllData] }) ∧
        c.sim.positionsFrom n (c.idx + 1) = [] ∧ c.sim.regionsFrom n (c.idx + 1) = []) ∨
      ∃ (m : Nat) (j : Nat), scanStep p c = some (.inr ⟨c.sim.promote base n, m, j,
          if c.sim.hawkeyePromotions.contains base then c.numPromotions else c.numPromotions + 1⟩) ∧
        m < 10 ∧ InBucket (c.sim.promote base n) m j ∧
          (c.sim.promote base n).positionsFrom m j = c.sim.positionsFrom n (c.idx + 1) ∧
            (c.sim.promote base n).regionsFrom m j = c.sim.regionsFrom n (c.idx + 1)) := by
  obtain ⟨base, read⟩ := readBucket_of_inBucket (p := p) entry
  obtain ⟨⟨i, j⟩, hskip⟩ : ∃ r, skip (c.sim.promote base n) n (c.idx + 1) = some r := by
    obtain ⟨i, j, e, _⟩ := skipFrom_spec (c.sim.promote base n) (c.idx + 1) lt
    exact ⟨(i, j), e⟩
  have left := skipFrom_left (c.sim.promote base n) lt hskip
  have buckets : (c.sim.promote base n).buckets = c.sim.buckets := rfl
  rw [positionsFrom_congr buckets, regionsFrom_congr buckets] at left
  have step : scanStep p c = if i < 0 then
      some (.inl { c.sim.promote base n with cout := (c.sim.promote base n).cout ++ [.promotedAllData] })
    else some (.inr ⟨c.sim.promote base n, i, j,
      if c.sim.hawkeyePromotions.contains base then c.numPromotions else c.numPromotions + 1⟩) := by
    simp only [scanStep, here, read, hskip, Option.bind_eq_bind, Option.bind_some]
  refine ⟨base, read, ?_⟩
  obtain ⟨rfl, none, none'⟩ | ⟨m, rfl, lt', entry', same, same'⟩ := left
  · exact .inl ⟨by rw [step, if_pos (by decide)], none, none'⟩
  · exact .inr ⟨m, j, by rw [step, if_neg (by omega)], lt', entry', same, same'⟩

/-- From an entry on, the loop ends. It has read positions in their order, and promoted the next regions that
    had not been promoted before. -/
lemma scanLoop_promotes {fuel : Nat} {c : Scan} (here : c.bucketIdx = n) (lt : n < 10)
    (entry : InBucket c.sim n c.idx) (enough : (c.sim.positionsFrom n c.idx).length < fuel) :
    ∃ t, scanLoop p fuel c = some t ∧ visits p fuel c <+: c.sim.positionsFrom n c.idx ∧
      ∀ r, t.hawkeyePromotions.contains r = true ↔ c.sim.hawkeyePromotions.contains r = true ∨
        r ∈ (c.sim.unpromoted (c.sim.regionsFrom n c.idx)).take (maxNumPromotions - c.numPromotions) := by
  induction fuel generalizing c n with
  | zero => omega
  | succ fuel ih =>
    rw [scanLoop, visits]
    split
    case isFalse full =>
      refine ⟨c.sim, rfl, List.nil_prefix, ?_⟩
      intro r
      rw [Nat.sub_eq_zero_of_le (by omega), List.take_zero]
      simp
    case isTrue more =>
      obtain ⟨base, read, next⟩ := @scanStep_next p n c here lt entry
      rw [positionsFrom_cons entry, List.length_cons] at enough
      rw [positionsFrom_cons entry, regionsFrom_cons entry read, unpromoted_cons c.sim base n, here]
      -- what the list gives, with the first region in it
      have first : ∀ r (rest : List Nat), (c.sim.promote base n).hawkeyePromotions.contains r = true ∨
          r ∈ rest.take (maxNumPromotions - if c.sim.hawkeyePromotions.contains base then
            c.numPromotions else c.numPromotions + 1) ↔ c.sim.hawkeyePromotions.contains r = true ∨
              r ∈ (if c.sim.hawkeyePromotions.contains base then rest else base :: rest).take
                (maxNumPromotions - c.numPromotions) := by
        intro r rest
        rw [contains_promote, Bool.or_eq_true, decide_eq_true_eq]
        cases known : c.sim.hawkeyePromotions.contains base with
        | true =>
          rw [if_pos rfl, if_pos rfl]
          apply or_congr_left
          constructor
          · rintro (old | rfl)
            · exact old
            · exact known
          · exact .inl
        | false =>
          obtain ⟨k, hk⟩ : ∃ k, maxNumPromotions - c.numPromotions = k + 1 :=
            ⟨_, (Nat.sub_add_cancel (Nat.sub_pos_of_lt more)).symm⟩
          have less : maxNumPromotions - (c.numPromotions + 1) = k := by omega
          rw [if_neg Bool.false_ne_true, if_neg Bool.false_ne_true, less, hk, List.take_succ_cons,
            List.mem_cons, or_assoc]
      obtain ⟨step, none, none'⟩ | ⟨m, j, step, lt', entry', same, same'⟩ := next
      · rw [step, none, none']
        refine ⟨_, rfl, List.prefix_refl _, ?_⟩
        intro r
        rw [← first]
        simp [State.unpromoted]
      · rw [step]
        set c' : Scan := ⟨c.sim.promote base n, m, j,
          if c.sim.hawkeyePromotions.contains base then c.numPromotions else c.numPromotions + 1⟩
        have enough' : (c'.sim.positionsFrom m c'.idx).length < fuel := by
          show ((c.sim.promote base n).positionsFrom m j).length < fuel
          rw [same]
          omega
        obtain ⟨t, ht, pre, promoted⟩ := ih rfl lt' entry' enough'
        have pre : visits p fuel c' <+: (c.sim.promote base n).positionsFrom m j := pre
        rw [same] at pre
        refine ⟨t, ht, (List.prefix_cons_inj _).mpr pre, ?_⟩
        intro r
        rw [← same', ← first r, promoted]

/-- The scan of a state whose top bucket is not empty. -/
lemma scan_of_entry (entry : InBucket s 9 0) :
    ∃ t, scan p s = some t ∧ visited p s <+: s.positionsFrom 9 0 ∧
      ∀ r, t.hawkeyePromotions.contains r = true ↔ s.hawkeyePromotions.contains r = true ∨
        r ∈ (s.unpromoted (s.regionsFrom 9 0)).take maxNumPromotions := by
  have length : ∀ n idx, (s.positionsFrom n idx).length = s.entriesFrom n idx := by
    intro n
    induction n with
    | zero =>
      intro idx
      rw [State.positionsFrom, State.positionsIn, List.length_map, List.length_range']
      show ((index 0).elim [] s.buckets).length - idx =
        ((index 0).elim 0 fun b => (s.buckets b).length) - idx
      cases index 0 <;> rfl
    | succ n ih =>
      intro idx
      rw [State.positionsFrom, List.length_append, ih, State.positionsIn, List.length_map,
        List.length_range', State.bucket, State.entriesFrom]
      cases index ((n + 1 : Nat) : Int) <;> rfl
  exact scanLoop_promotes (c := scanStart s) (n := 9) rfl (by decide) entry (by
    show (s.positionsFrom 9 0).length < s.entriesFrom 9 0 + 2
    rw [length]
    omega)

/-- When the scan reads nothing but entries of buckets, it ends; it reads positions from the top bucket down and
    from the front of each to its back, none of them twice; and it promotes the first regions in this order that
    have not been promoted before, eight of them or as many as there are. -/
theorem scan_promotes (bounds : ReadsInBounds p s) :
    ∃ t, scan p s = some t ∧ (visited p s).Pairwise Later ∧ visited p s <+: s.positionsFrom 9 0 ∧
      ∃ new, new <+: s.unpromoted (s.regionsFrom 9 0) ∧ new.length = min 8 s.candidates.card ∧
        ∀ r, t.hawkeyePromotions.contains r = true ↔
          s.hawkeyePromotions.contains r = true ∨ r ∈ new := by
  obtain ⟨t, ht, pre, promoted⟩ := scan_of_entry (readsInBounds_iff.mp bounds)
  refine ⟨t, ht, (pairwise_positionsFrom 9 0).sublist pre.sublist, pre, _, List.take_prefix 8 _, ?_, promoted⟩
  rw [List.length_take, length_unpromoted]

/-- One region in the top bucket, and the same with another one in the lowest. -/
def twoRegions : State :=
  { init with buckets := fun b => if b.val = 9 then [1] else if b.val = 0 then [1, 2] else [] }

/-- Two regions, in two buckets. -/
theorem scan_promotes_two :
    ∃ t, scan plain twoRegions = some t ∧ (visited plain twoRegions).Pairwise Later ∧
      visited plain twoRegions <+: twoRegions.positionsFrom 9 0 ∧
      ∃ new, new <+: twoRegions.unpromoted (twoRegions.regionsFrom 9 0) ∧
        new.length = min 8 twoRegions.candidates.card ∧
        ∀ r, t.hawkeyePromotions.contains r = true ↔
          twoRegions.hawkeyePromotions.contains r = true ∨ r ∈ new :=
  scan_promotes (readsInBounds_iff.mpr ⟨_, rfl, Nat.zero_lt_one⟩)

end

end PromotionCache.Hawkeye
