import PromotionCache.Scripts.LogSpec

/-!
# Demotions of the real system

`get_demotions.py` turns the log of a simulation into a file of demotions. It does not look at the mark of the
demotions: it demotes a region once, when the log lists it with a frequency above zero for the second time.
The simulator demotes every promoted region that it lists, with any frequency and as often as that happens.
-/

namespace PromotionCache.Scripts
open Lib Pcc

/-- `get_demotions.py` keeps a candidate of the promotion cache with its frequency if that is above zero, and
    any candidate of the other mode, without one. -/
def listedPair (f : Fields) : Option (Nat × Option Nat) :=
  match f.cacheFreq with
  | some cacheFreq => if 0 < cacheFreq then some (f.addr, some cacheFreq) else none
  | none => some (f.addr, none)

/-- The inner loop of `write_demotions`; the results are the new `promoted_addr`, `demoted_addr` and
    `to_demote`. -/
def demoteFrom (promotedAddr demotedAddr toDemote : List Nat) :
    List (Nat × Option Nat) → Option (List Nat × List Nat × List Nat)
  | [] => some (promotedAddr, demotedAddr, toDemote)
  -- without a frequency it is no pair, and `for (addr, freq)` raises an exception
  | (_, none) :: _ => none
  | (addr, some freq) :: candidates =>
    if addr ∉ promotedAddr then demoteFrom (promotedAddr ++ [addr]) demotedAddr toDemote candidates
    else if -1 < (freq : Int) ∧ addr ∉ demotedAddr then
      demoteFrom promotedAddr (demotedAddr ++ [addr]) (toDemote ++ [addr]) candidates
    else demoteFrom promotedAddr demotedAddr toDemote candidates

/-- The outer loop of `write_demotions`; the result is what is written into the demotion file. -/
def writeDemotionsFrom (offset : Int) (candidates : AList fun _ : Nat => List (Nat × Option Nat))
    (promotedAddr demotedAddr : List Nat) : List Nat → Option (List (Nat × Int))
  | [] => some []
  | time :: times => do
    let (promotedAddr, demotedAddr, toDemote) ←
      demoteFrom promotedAddr demotedAddr [] ((candidates.lookup time).getD [])
    let rest ← writeDemotionsFrom offset candidates promotedAddr demotedAddr times
    some ((toDemote.mergeSort (· ≤ ·)).map (fun addr : Nat => (time, (addr : Int) + offset)) ++ rest)

/-- `write_demotions` -/
def writeDemotions (offset : Int) (candidates : AList fun _ : Nat => List (Nat × Option Nat)) :
    Option (List (Nat × Int)) :=
  writeDemotionsFrom offset candidates [] [] (sortedKeys candidates)

/-- What `get_demotions.py` writes for a log. -/
def getDemotions (mode : Mode) (app : String) (offset : Int) (lines : List (List Char)) :
    Option (List (Nat × Int)) := do
  let candidates ← readFile mode listedPair app lines
  writeDemotions offset candidates

/-- The pass at the `k`-th access lists a region with a frequency above zero. -/
def Counts (cfg : Config) (as : List UInt64) (k base : Nat) : Prop :=
  ∃ m, Single.Lists cfg as k m base ∧ m.freq base ≠ some 0

/-- Two passes with such access counts list a region with a frequency above zero. -/
def Twice (cfg : Config) (as : List UInt64) (base : Nat) (q : Nat → Prop) : Prop :=
  ∃ k k', k ≠ k' ∧ Counts cfg as k base ∧ Counts cfg as k' base ∧ q (word k) ∧ q (word k')

/-- The passes with access counts up to `t` list a region with a frequency above zero at least twice, those
    with access counts below `t` at most once. -/
def SecondListed (cfg : Config) (as : List UInt64) (t base : Nat) : Prop :=
  Twice cfg as base (· ≤ t) ∧ ¬ Twice cfg as base (· < t)

section
variable {offset : Int} {c : AList fun _ : Nat => List (Nat × Option Nat)} {t a : Nat}
  {seen promotedAddr demotedAddr : List Nat}

/-- The lists of the script after the addresses `seen`. -/
structure Seen (seen promotedAddr demotedAddr : List Nat) : Prop where
  promoted : ∀ a, a ∈ promotedAddr ↔ 1 ≤ seen.count a
  demoted : ∀ a, a ∈ demotedAddr ↔ 2 ≤ seen.count a

/-- How often an address has been seen with one more. -/
lemma count_snoc (l : List Nat) (a b : Nat) :
    (l ++ [a]).count b = l.count b + if b = a then 1 else 0 := by
  rw [List.count_append, List.count_singleton]
  by_cases same : b = a
  · rw [if_pos same, if_pos (beq_iff_eq.mpr same.symm)]
  · rw [if_neg same, if_neg fun e => same (beq_iff_eq.mp e).symm]

/-- An address with one more. -/
lemma mem_snoc {l : List Nat} {b : Nat} : b ∈ l ++ [a] ↔ b ∈ l ∨ b = a := by
  rw [List.mem_append, List.mem_singleton]

/-- A list of what is seen so often gets an address that reaches the number. -/
lemma reach_snoc {l : List Nat} {n : Nat} (h : ∀ b, b ∈ l ↔ n ≤ seen.count b) (reach : n ≤ seen.count a + 1)
    (b : Nat) : b ∈ l ++ [a] ↔ n ≤ (seen ++ [a]).count b := by
  rw [mem_snoc, h, count_snoc]
  split
  case isTrue same =>
    rw [same]
    omega
  case isFalse other => simp [other]

/-- It stays as it is for an address that does not. -/
lemma stay_snoc {l : List Nat} {n : Nat} (h : ∀ b, b ∈ l ↔ n ≤ seen.count b) (off : seen.count a + 1 ≠ n)
    (b : Nat) : b ∈ l ↔ n ≤ (seen ++ [a]).count b := by
  rw [h, count_snoc]
  split
  case isTrue same =>
    rw [same]
    omega
  case isFalse => rfl

/-- An address that is seen for the first time is promoted. -/
lemma Seen.promote (h : Seen seen promotedAddr demotedAddr) (fresh : a ∉ promotedAddr) :
    Seen (seen ++ [a]) (promotedAddr ++ [a]) demotedAddr := by
  rw [h.promoted] at fresh
  exact ⟨reach_snoc h.promoted (by omega), stay_snoc h.demoted (by omega)⟩

/-- The second time, it is demoted. -/
lemma Seen.demote (h : Seen seen promotedAddr demotedAddr) (known : a ∈ promotedAddr) :
    Seen (seen ++ [a]) promotedAddr (demotedAddr ++ [a]) := by
  rw [h.promoted] at known
  exact ⟨stay_snoc h.promoted (by omega), reach_snoc h.demoted (by omega)⟩

/-- From then on nothing happens to it. -/
lemma Seen.again (h : Seen seen promotedAddr demotedAddr) (done : a ∈ demotedAddr) :
    Seen (seen ++ [a]) promotedAddr demotedAddr := by
  rw [h.demoted] at done
  exact ⟨stay_snoc h.promoted (by omega), stay_snoc h.demoted (by omega)⟩

/-- The addresses that are demoted at a time are those that are seen for the second time there. -/
lemma demoteFrom_spec (h : Seen seen promotedAddr demotedAddr) (toDemote : List Nat)
    {candidates : List (Nat × Option Nat)} (pairs : ∀ p ∈ candidates, p.2.isSome = true) :
    ∃ promotedAddr' demotedAddr' new,
      demoteFrom promotedAddr demotedAddr toDemote candidates =
        some (promotedAddr', demotedAddr', toDemote ++ new) ∧
      Seen (seen ++ candidates.map Prod.fst) promotedAddr' demotedAddr' ∧
      ∀ a, a ∈ new ↔ seen.count a < 2 ∧ 2 ≤ (seen ++ candidates.map Prod.fst).count a := by
  induction candidates generalizing seen promotedAddr demotedAddr toDemote with
  | nil =>
    refine ⟨promotedAddr, demotedAddr, [], by rw [demoteFrom, List.append_nil], ?_, ?_⟩
    · rw [List.map_nil, List.append_nil]
      exact h
    · intro a
      simp
  | cons p candidates ih =>
    obtain ⟨first, later⟩ := List.forall_mem_cons.mp pairs
    obtain ⟨addr, freq⟩ := p
    obtain ⟨freq, rfl⟩ := Option.isSome_iff_exists.mp first
    have e : seen ++ ((addr, some freq) :: candidates).map Prod.fst =
        seen ++ [addr] ++ candidates.map Prod.fst := by simp
    rw [demoteFrom, e]
    split
    case isTrue fresh =>
      obtain ⟨p', d', new, e, h', mem⟩ := ih (h.promote fresh) toDemote later
      refine ⟨p', d', new, e, h', ?_⟩
      intro a
      rw [mem, count_snoc]
      rw [h.promoted] at fresh
      split
      case isTrue same =>
        rw [same]
        omega
      case isFalse => rfl
    case isFalse notFresh =>
      have known := not_not.mp notFresh
      split
      case isTrue second =>
        obtain ⟨p', d', new, e, h', mem⟩ := ih (h.demote known) (toDemote ++ [addr]) later
        refine ⟨p', d', addr :: new, ?_, h', ?_⟩
        · rw [e, List.append_assoc]
          rfl
        · intro a
          have twice : 2 ≤ (seen ++ [addr] ++ candidates.map Prod.fst).count addr := by
            rw [h.promoted] at known
            rw [List.count_append, count_snoc, if_pos rfl]
            omega
          have before := second.2
          rw [h.demoted] at before
          rw [List.mem_cons, mem, count_snoc]
          split
          case isTrue same =>
            rw [same]
            omega
          case isFalse other => simp [other]
      case isFalse other =>
        have done : addr ∈ demotedAddr := by
          by_contra fresh
          exact other ⟨by omega, fresh⟩
        obtain ⟨p', d', new, e, h', mem⟩ := ih (h.again done) toDemote later
        refine ⟨p', d', new, e, h', ?_⟩
        intro a
        rw [mem, count_snoc]
        rw [h.demoted] at done
        split
        case isTrue same =>
          rw [same]
          omega
        case isFalse => rfl

/-- The addresses under a time. -/
def addrs (c : AList fun _ : Nat => List (Nat × Option Nat)) (time : Nat) : List Nat :=
  ((c.lookup time).getD []).map Prod.fst

/-- An address is written under the time by which it has been seen twice. -/
lemma mem_writeDemotionsFrom (offset : Int) (h : Seen seen promotedAddr demotedAddr) {times : List Nat}
    (sorted : times.Pairwise (· < ·))
    (pairs : ∀ time, ∀ p ∈ (c.lookup time).getD [], p.2.isSome = true) :
    ∃ file, writeDemotionsFrom offset c promotedAddr demotedAddr times = some file ∧
      ∀ t x, (t, x) ∈ file ↔ ∃ a : Nat, x = a + offset ∧
        (seen ++ (times.filter (· < t)).flatMap (addrs c)).count a < 2 ∧
        2 ≤ (seen ++ (times.filter (· ≤ t)).flatMap (addrs c)).count a := by
  induction times generalizing seen promotedAddr demotedAddr with
  | nil =>
    refine ⟨[], rfl, ?_⟩
    intro t x
    refine iff_of_false List.not_mem_nil ?_
    rintro ⟨a, _, lt, ge⟩
    exact absurd (Nat.lt_of_lt_of_le lt ge) (Nat.lt_irrefl _)
  | cons time times ih =>
    obtain ⟨first, sorted⟩ := List.pairwise_cons.mp sorted
    obtain ⟨p', d', new, e, h', mem⟩ := demoteFrom_spec h [] (pairs time)
    obtain ⟨file, hfile, written⟩ := ih h' sorted
    refine ⟨(new.mergeSort (· ≤ ·)).map (fun addr : Nat => (time, (addr : Int) + offset)) ++ file,
      ?_, ?_⟩
    · rw [writeDemotionsFrom, e]
      simp only [Option.bind_eq_bind, Option.bind_some, List.nil_append, hfile]
    intro t x
    have here : (t, x) ∈ (new.mergeSort (· ≤ ·)).map (fun addr : Nat => (time, (addr : Int) + offset)) ↔
        t = time ∧ ∃ a : Nat, x = a + offset ∧ a ∈ new := by
      rw [List.mem_map]
      constructor
      · rintro ⟨a, ha, e⟩
        obtain ⟨rfl, rfl⟩ := Prod.mk.inj e
        exact ⟨rfl, a, rfl, List.mem_mergeSort.mp ha⟩
      · rintro ⟨rfl, a, rfl, ha⟩
        exact ⟨a, List.mem_mergeSort.mpr ha, rfl⟩
    have later : ∀ q : Nat → Bool, (∀ t' > time, q t' = false) → times.filter q = [] := by
      intro q no
      rw [List.filter_eq_nil_iff]
      intro t' ht'
      rw [no t' (first t' ht')]
      exact Bool.false_ne_true
    rw [List.mem_append, here, written]
    rcases Nat.lt_trichotomy t time with lt | rfl | gt
    · -- no address has been seen by then
      have lt' : (time :: times).filter (· < t) = [] := by
        rw [List.filter_cons_of_neg (by simp; omega), later _ fun t' ht' => decide_eq_false (by omega)]
      have le' : (time :: times).filter (· ≤ t) = [] := by
        rw [List.filter_cons_of_neg (by simp; omega), later _ fun t' ht' => decide_eq_false (by omega)]
      rw [lt', le', later _ fun t' ht' => decide_eq_false (by omega),
        later _ fun t' ht' => decide_eq_false (by omega)]
      constructor
      · rintro (⟨e, _⟩ | ⟨a, _, few, many⟩)
        · omega
        · omega
      · rintro ⟨a, _, few, many⟩
        omega
    · have lt' : (t :: times).filter (· < t) = [] := by
        rw [List.filter_cons_of_neg (by simp), later _ fun t' ht' => decide_eq_false (by omega)]
      have le' : (t :: times).filter (· ≤ t) = [t] := by
        rw [List.filter_cons_of_pos (by simp), later _ fun t' ht' => decide_eq_false (by omega)]
      rw [lt', le', later _ fun t' ht' => decide_eq_false (by omega),
        later _ fun t' ht' => decide_eq_false (by omega)]
      simp only [List.flatMap_nil, List.append_nil, List.flatMap_singleton, mem]
      constructor
      · rintro (⟨_, a, e, new⟩ | ⟨a, _, few, many⟩)
        · exact ⟨a, e, new⟩
        · omega
      · exact fun ⟨a, e, new⟩ => .inl ⟨trivial, a, e, new⟩
    · have lt' : (time :: times).filter (· < t) = time :: times.filter (· < t) :=
        List.filter_cons_of_pos (decide_eq_true gt)
      have le' : (time :: times).filter (· ≤ t) = time :: times.filter (· ≤ t) :=
        List.filter_cons_of_pos (decide_eq_true (Nat.le_of_lt gt))
      rw [lt', le', List.flatMap_cons, List.flatMap_cons, ← List.append_assoc, ← List.append_assoc]
      refine or_iff_right ?_
      rintro ⟨e, _⟩
      omega

/-- Counting an element in lists without repetitions is counting the lists that have it. -/
lemma two_le_count {α : Type} {f : α → List Nat} {l : List α} (nodup : l.Nodup)
    (nodup' : ∀ p ∈ l, (f p).Nodup) : 2 ≤ (l.flatMap f).count a ↔
      ∃ p q, p ≠ q ∧ p ∈ l ∧ q ∈ l ∧ a ∈ f p ∧ a ∈ f q := by
  induction l with
  | nil => simp
  | cons p l ih =>
    obtain ⟨new, nodup⟩ := List.nodup_cons.mp nodup
    obtain ⟨first, nodup'⟩ := List.forall_mem_cons.mp nodup'
    rw [List.flatMap_cons, List.count_append]
    by_cases mem : a ∈ f p
    · have one : 2 ≤ (f p).count a + (l.flatMap f).count a ↔ a ∈ l.flatMap f := by
        rw [List.count_eq_one_of_mem first mem, ← List.one_le_count_iff]
        omega
      rw [one, List.mem_flatMap]
      constructor
      · rintro ⟨q, hq, mem'⟩
        refine ⟨p, q, ?_, List.mem_cons_self, List.mem_cons_of_mem _ hq, mem, mem'⟩
        rintro rfl
        exact new hq
      · rintro ⟨q, r, ne, hq, hr, mem₁, mem₂⟩
        cases List.mem_cons.mp hq with
        | inr hq => exact ⟨q, hq, mem₁⟩
        | inl e =>
          cases List.mem_cons.mp hr with
          | inr hr => exact ⟨r, hr, mem₂⟩
          | inl e' => exact absurd (e.trans e'.symm) ne
    · rw [List.count_eq_zero_of_not_mem mem, Nat.zero_add, ih nodup nodup']
      constructor
      · exact fun ⟨q, r, ne, hq, hr, rest⟩ =>
          ⟨q, r, ne, List.mem_cons_of_mem _ hq, List.mem_cons_of_mem _ hr, rest⟩
      · rintro ⟨q, r, ne, hq, hr, mem₁, mem₂⟩
        refine ⟨q, r, ne, ?_, ?_, mem₁, mem₂⟩
        · refine (List.mem_cons.mp hq).resolve_left ?_
          rintro rfl
          exact mem mem₁
        · refine (List.mem_cons.mp hr).resolve_left ?_
          rintro rfl
          exact mem mem₂

end

section
variable {cfg : Config} {as : List UInt64} {s : Sim} {ostream : Float → List Char} {app : String}
  {lines : List (List Char)} {offset : Int} {base t : Nat}

/-- The addresses that the script keeps of a pass. -/
lemma kept_addrs (p : Single.Pass) : (kept listedPair p).map Prod.fst =
    p.bases.filter fun base => 0 < (p.state.freq base).getD 0 := by
  rw [kept]
  induction p.bases with
  | nil => rfl
  | cons base bases ih =>
    have pair : ∀ f, listedPair ⟨base, some f⟩ = if 0 < f then some (base, some f) else none :=
      fun _ => rfl
    rw [List.filterMap_cons, List.filter_cons, pair]
    by_cases pos : 0 < (p.state.freq base).getD 0
    · rw [if_pos pos, if_pos (decide_eq_true pos), ← ih]
      rfl
    · rw [if_neg pos, if_neg (by simpa using pos), ih]

/-- They all have frequencies. -/
lemma kept_pairs {p : Single.Pass} {x : Nat × Option Nat} (h : x ∈ kept listedPair p) :
    x.2.isSome = true := by
  obtain ⟨base, _, e⟩ := List.mem_filterMap.mp h
  rw [listedPair] at e
  split at e
  · split at e
    · obtain rfl := Option.some.inj e
      rfl
    · cases e
  · next none => cases none

/-- A pass has an address for the script if it lists it with a frequency above zero. -/
lemma mem_kept_addrs (h : Single.simulate cfg as = some s) {p : Single.Pass} (valid : p.Of cfg as) :
    base ∈ (kept listedPair p).map Prod.fst ↔ Counts cfg as p.access base := by
  rw [kept_addrs, List.mem_filter, decide_eq_true_eq]
  constructor
  · intro ⟨listed, pos⟩
    refine ⟨p.state, valid.lists.mp listed, ?_⟩
    intro zero
    rw [zero] at pos
    exact Nat.lt_irrefl 0 pos
  · intro ⟨m, lists, ne⟩
    obtain rfl := lists.1.unique valid.passFrom
    refine ⟨valid.lists.mpr lists, ?_⟩
    obtain ⟨f, hf⟩ := lists.exists_freq h
    rw [hf] at ne ⊢
    exact Nat.pos_of_ne_zero fun zero => ne (congrArg some zero)

/-- An address is seen twice under the times in a set if the region is listed twice with such access
    counts. -/
lemma two_le_addrs (h : Single.simulate cfg as = some s) {passes : List Single.Pass}
    (valid : ∀ p ∈ passes, p.Of cfg as)
    (all : ∀ k m, Single.PassFrom cfg as k m → ∃ p ∈ passes, p.access = k)
    (sorted : passes.Pairwise (fun p q => p.access < q.access))
    {c : AList fun _ : Nat => List (Nat × Option Nat)}
    (entries : ∀ t, (c.lookup t).getD [] =
      (passes.filter fun p => word p.access = t).flatMap (kept listedPair)) (q : Nat → Bool) :
    2 ≤ (((sortedKeys c).filter q).flatMap (addrs c)).count base ↔
      Twice cfg as base (fun t => q t = true) := by
  have distinct : (passes.map Single.Pass.access).Nodup :=
    List.pairwise_map.mpr (sorted.imp Nat.ne_of_lt)
  -- the passes under these times
  have e : ((sortedKeys c).filter q).flatMap (addrs c) =
      (((sortedKeys c).filter q).flatMap fun t => passes.filter fun p => word p.access = t).flatMap
        fun p => (kept listedPair p).map Prod.fst := by
    have each : addrs c = fun t => (passes.filter fun p => word p.access = t).flatMap
        fun p => (kept listedPair p).map Prod.fst := by
      funext t
      rw [addrs, entries, List.map_flatMap]
    rw [each, List.flatMap_assoc]
  have mem : ∀ p, p ∈ (((sortedKeys c).filter q).flatMap fun t =>
      passes.filter fun p => word p.access = t) ↔
        p ∈ passes ∧ word p.access ∈ sortedKeys c ∧ q (word p.access) = true := by
    intro p
    simp only [List.mem_flatMap, List.mem_filter, decide_eq_true_eq]
    constructor
    · rintro ⟨t, ⟨key, hq⟩, hp, rfl⟩
      exact ⟨hp, key, hq⟩
    · exact fun ⟨hp, key, hq⟩ => ⟨_, ⟨key, hq⟩, hp, rfl⟩
  have nodup : (((sortedKeys c).filter q).flatMap fun t =>
      passes.filter fun p => word p.access = t).Nodup := by
    rw [List.nodup_flatMap]
    refine ⟨fun t _ => (distinct.of_map _).filter _, ?_⟩
    refine (((sortedKeys_lt c).filter q).imp Nat.ne_of_lt).imp ?_
    intro t t' ne p hp hp'
    have ht := of_decide_eq_true (List.mem_filter.mp hp).2
    have ht' := of_decide_eq_true (List.mem_filter.mp hp').2
    exact ne (ht.symm.trans ht')
  rw [e, two_le_count nodup]
  · constructor
    · rintro ⟨p, p', ne, hp, hp', counts, counts'⟩
      obtain ⟨hp, _, hq⟩ := (mem p).mp hp
      obtain ⟨hp', _, hq'⟩ := (mem p').mp hp'
      refine ⟨p.access, p'.access, ?_, (mem_kept_addrs h (valid p hp)).mp counts,
        (mem_kept_addrs h (valid p' hp')).mp counts', hq, hq'⟩
      exact fun same => ne (List.inj_on_of_nodup_map distinct hp hp' same)
    · rintro ⟨k, k', ne, counts, counts', hq, hq'⟩
      have found : ∀ k, Counts cfg as k base → q (word k) = true → ∃ p, p.access = k ∧
          base ∈ (kept listedPair p).map Prod.fst ∧ p ∈ (((sortedKeys c).filter q).flatMap fun t =>
            passes.filter fun p => word p.access = t) := by
        rintro k ⟨m, lists, ne⟩ hq
        obtain ⟨p, hp, rfl⟩ := all k m lists.1
        have here := (mem_kept_addrs h (valid p hp)).mpr ⟨m, lists, ne⟩
        refine ⟨p, rfl, here, (mem p).mpr ⟨hp, ?_, hq⟩⟩
        obtain ⟨x, hx, _⟩ := List.mem_map.mp here
        apply mem_sortedKeys (x := x)
        rw [entries, List.mem_flatMap]
        exact ⟨p, List.mem_filter.mpr ⟨hp, decide_eq_true rfl⟩, hx⟩
      obtain ⟨p, hk, here, hp⟩ := found k counts hq
      obtain ⟨p', hk', here', hp'⟩ := found k' counts' hq'
      refine ⟨p, p', ?_, hp, hp', here, here'⟩
      rintro rfl
      exact ne (hk.symm.trans hk')
  · intro p hp
    rw [kept_addrs]
    exact (valid p ((mem p).mp hp).1).nodup.filter _

/-- The file of demotions: a region comes under the access count by which it has been listed twice with a
    frequency above zero. -/
theorem getDemotions_spec (offset : Int) (h : Single.simulate cfg as = some s)
    (printable : Printable ostream s.cout) (logged : Logged ostream app s.cout lines) :
    ∃ file, getDemotions .cache app offset lines = some file ∧
      ∀ t x, (t, x) ∈ file ↔ ∃ base : Nat, x = base + offset ∧ SecondListed cfg as t base := by
  obtain ⟨passes, valid, all, sorted, cout⟩ := Single.exists_passes h
  obtain ⟨c, hc, entries⟩ := readFile_spec listedPair valid cout printable logged
  have pairs : ∀ time, ∀ x ∈ (c.lookup time).getD [], x.2.isSome = true := by
    intro time x mem
    rw [entries] at mem
    obtain ⟨p, _, mem⟩ := List.mem_flatMap.mp mem
    exact kept_pairs mem
  have start : Seen [] [] [] := ⟨fun a => by simp, fun a => by simp⟩
  obtain ⟨file, hfile, written⟩ := mem_writeDemotionsFrom offset start (sortedKeys_lt c) pairs
  refine ⟨file, by rw [getDemotions, hc]; exact hfile, ?_⟩
  intro t x
  rw [written]
  refine exists_congr fun base => and_congr_right fun _ => ?_
  rw [List.nil_append, List.nil_append, and_comm, ← Nat.not_le,
    two_le_addrs h valid all sorted entries, two_le_addrs h valid all sorted entries]
  simp only [decide_eq_true_eq]
  rfl

/-- There is one access count by which a region has been listed twice. -/
lemma SecondListed.unique {t' : Nat} (h : SecondListed cfg as t base)
    (h' : SecondListed cfg as t' base) : t = t' := by
  rcases Nat.lt_trichotomy t t' with lt | same | lt
  · obtain ⟨k, k', ne, counts, counts', le, le'⟩ := h.1
    exact absurd ⟨k, k', ne, counts, counts', Nat.lt_of_le_of_lt le lt, Nat.lt_of_le_of_lt le' lt⟩ h'.2
  · exact same
  · obtain ⟨k, k', ne, counts, counts', le, le'⟩ := h'.1
    exact absurd ⟨k, k', ne, counts, counts', Nat.lt_of_le_of_lt le lt, Nat.lt_of_le_of_lt le' lt⟩ h.2

/-- Of two passes that list a region with a frequency above zero the second lists it promoted, or one between
    them does. -/
lemma exists_promoted (h : Single.simulate cfg as = some s) {k k' : Nat} (lt : k < k')
    (counts : Counts cfg as k base) (counts' : Counts cfg as k' base) :
    ∃ j m, k ≤ j ∧ j ≤ k' ∧ Single.Lists cfg as j m base ∧ m.promoted base = true := by
  obtain ⟨m, lists, ne⟩ := counts
  cases prom : m.promoted base with
  | true => exact ⟨k, m, Nat.le_refl k, Nat.le_of_lt lt, lists, prom⟩
  | false =>
    -- the first pass promotes the region, and the next that lists it finds it promoted
    have promotes := (lists.promotes_iff h).mpr ⟨prom, ne⟩
    have next : ∃ j, k < j ∧ ∃ m, Single.Lists cfg as j m base :=
      ⟨k', lt, counts'.imp fun _ => And.left⟩
    classical
    obtain ⟨after, m', lists'⟩ := Nat.find_spec next
    refine ⟨Nat.find next, m', Nat.le_of_lt after, Nat.find_min' next ⟨lt, counts'.imp fun _ => And.left⟩,
      lists', lists'.promoted_iff.mpr ⟨k, m, after, lists, promotes, ?_⟩⟩
    intro j m'' between before listed
    exact Nat.find_min next before ⟨between, m'', listed⟩

/-- While the access counts do not wrap around, the passes that demote regions are those by which they have been listed
    twice if the promoted regions that a pass lists have frequencies above zero, and have not been listed promoted
    before. -/
theorem secondListed_iff_once (h : Single.simulate cfg as = some s) (short : as.length < 2 ^ 64) :
    (∀ k m base, Single.Lists cfg as k m base → m.promoted base = true →
      SecondListed cfg as (word k) base) ↔
    ∀ k m base, Single.Lists cfg as k m base → m.promoted base = true → m.freq base ≠ some 0 ∧
      ∀ k' m', k' < k → Single.Lists cfg as k' m' base → m'.promoted base = false := by
  have exact' : ∀ {k m base}, Single.Lists cfg as k m base → word k = k := fun lists =>
    word_of_lt (Nat.lt_of_le_of_lt lists.1.le.2 short)
  constructor
  · intro second k m base lists prom
    have here := second k m base lists prom
    constructor
    · -- one of the two passes is this one
      intro zero
      obtain ⟨⟨j, j', ne, counts, counts', le, le'⟩, few⟩ := here
      have before : ∀ j, Counts cfg as j base → word j ≤ word k → word j < word k := by
        rintro j ⟨m', lists', ne'⟩ le
        refine Nat.lt_of_le_of_ne le ?_
        rw [exact' lists, exact' lists']
        rintro rfl
        rw [lists'.1.unique lists.1] at ne'
        exact ne' zero
      exact few ⟨j, j', ne, counts, counts', before j counts le, before j' counts' le'⟩
    · intro k' m' lt lists'
      cases prom' : m'.promoted base with
      | false => rfl
      | true =>
        have same := (second k' m' base lists' prom').unique here
        rw [exact' lists, exact' lists'] at same
        omega
  · intro once k m base lists prom
    obtain ⟨ne, first⟩ := once k m base lists prom
    obtain ⟨k₀, m₀, lt, lists₀, promotes₀, _⟩ := lists.promoted_iff.mp prom
    constructor
    · refine ⟨k₀, k, by omega, ⟨m₀, lists₀, ((lists₀.promotes_iff h).mp promotes₀).2⟩, ⟨m, lists, ne⟩,
        ?_, Nat.le_refl _⟩
      rw [exact' lists, exact' lists₀]
      exact Nat.le_of_lt lt
    · rintro ⟨j, j', ne', counts, counts', lt, lt'⟩
      -- a pass between the two would list the region promoted
      have none : ∀ j j', j < j' → Counts cfg as j base → Counts cfg as j' base → ¬ j' < k := by
        intro j j' lt counts counts' before
        obtain ⟨i, m', _, le, listed, prom'⟩ := exists_promoted h lt counts counts'
        rw [first i m' (by omega) listed] at prom'
        cases prom'
      rw [exact' lists, exact' counts.choose_spec.1] at lt
      rw [exact' lists, exact' counts'.choose_spec.1] at lt'
      rcases Nat.lt_or_gt_of_ne ne' with less | less
      · exact none j j' less counts counts' lt'
      · exact none j' j less counts' counts lt

/-- The file of demotions holds the demotions of the run if and only if every pass that demotes a region has
    the access count by which the region has been listed twice with a frequency above zero. -/
theorem demotions_iff (h : Single.simulate cfg as = some s) (printable : Printable ostream s.cout)
    (logged : Logged ostream app s.cout lines) :
    (∃ file, getDemotions .cache app offset lines = some file ∧ ∀ t x, (t, x) ∈ file ↔
      ∃ base : Nat, x = base + offset ∧ ∃ k, t = word k ∧ Single.Erases cfg as k base) ↔
    ∀ k m base, Single.Lists cfg as k m base → m.promoted base = true →
      SecondListed cfg as (word k) base := by
  obtain ⟨file, hfile, written⟩ := getDemotions_spec offset h printable logged
  constructor
  · intro ⟨file', hfile', demotions⟩ k m base lists prom
    obtain rfl := Option.some.inj (hfile.symm.trans hfile')
    have erased := (Single.erases_iff h).mpr ⟨m, lists, prom⟩
    obtain ⟨base', e, second⟩ := (written _ _).mp ((demotions (word k) _).mpr ⟨base, rfl, k, rfl, erased⟩)
    obtain rfl : base = base' := by omega
    exact second
  · intro only
    refine ⟨file, hfile, ?_⟩
    intro t x
    rw [written]
    refine exists_congr fun base => and_congr_right fun _ => ?_
    constructor
    · intro second
      obtain ⟨k, k', ne, counts, counts', _⟩ := second.1
      have demoted : ∃ j m, Single.Lists cfg as j m base ∧ m.promoted base = true := by
        rcases Nat.lt_or_gt_of_ne ne with lt | lt
        · obtain ⟨j, m, _, _, found⟩ := exists_promoted h lt counts counts'
          exact ⟨j, m, found⟩
        · obtain ⟨j, m, _, _, found⟩ := exists_promoted h lt counts' counts
          exact ⟨j, m, found⟩
      obtain ⟨j, m, lists, prom⟩ := demoted
      exact ⟨j, second.unique (only j m base lists prom), (Single.erases_iff h).mpr ⟨m, lists, prom⟩⟩
    · rintro ⟨k, rfl, erased⟩
      obtain ⟨m, lists, prom⟩ := (Single.erases_iff h).mp erased
      exact only k m base lists prom

/-- The demotion of a run, at its second pass. -/
theorem demotions_iff_refill :
    ∃ s file, Single.simulate ⟨4, 3, 8, 0.9⟩ refill = some s ∧
      getDemotions .cache "sssp" 2048 (s.cout.flatMap (printed distance)) = some file ∧ (24, 2048) ∈ file ∧
      ∀ t x, (t, x) ∈ file ↔ ∃ base : Nat, x = base + 2048 ∧
        ∃ k, t = word k ∧ Single.Erases ⟨4, 3, 8, 0.9⟩ refill k base := by
  obtain ⟨s, m₁, m₂, h, lists, listed₁, listed₂, listed₃⟩ := refill_lists
  have short : refill.length < 2 ^ 64 := by decide
  have first : m₁.promoted 0 = false := congrArg (fun l => l.2.2) listed₁
  have second : m₂.promoted 0 = true := congrArg (fun l => l.2.2) listed₂
  have new : m₂.promoted 2 = false := congrArg (fun l => l.2.2) listed₃
  have once : ∀ k m base, Single.Lists ⟨4, 3, 8, 0.9⟩ refill k m base → m.promoted base = true →
      m.freq base ≠ some 0 ∧ ∀ k' m', k' < k → Single.Lists ⟨4, 3, 8, 0.9⟩ refill k' m' base →
        m'.promoted base = false := by
    intro k m base listed prom
    rcases (lists k m base).mp listed with ⟨_, rfl, rfl⟩ | ⟨rfl, rfl, rfl | rfl⟩
    · rw [first] at prom
      cases prom
    · refine ⟨freq_ne_zero listed₂ (by decide), ?_⟩
      intro k' m' lt listed'
      rcases (lists k' m' 0).mp listed' with ⟨_, rfl, _⟩ | ⟨rfl, _⟩
      · exact first
      · omega
    · rw [new] at prom
      cases prom
  obtain ⟨file, made, written⟩ := (demotions_iff h (printable_distance _) (logged_printed distance _)).mpr
    ((secondListed_iff_once h short).mpr once)
  refine ⟨s, file, h, made, (written 24 2048).mpr ⟨0, rfl, 24, rfl, ?_⟩, written⟩
  exact (Single.erases_iff h).mpr ⟨m₂, (lists 24 m₂ 0).mpr (.inr ⟨rfl, rfl, .inl rfl⟩), second⟩

/-- Region 0 is promoted by the pass at access 10 and listed again, with frequency zero, by that at access
    15. -/
def comeback : List UInt64 :=
  [65536, 69632, 4194304, 4198400, 73728, 77824, 77824, 77824, 77824, 4202496, 81920, 81920, 81920, 81920,
    81920]

/-- The simulator demotes it there, and the script does not. -/
theorem demotion_unwritten :
    ∃ s, Single.simulate ⟨1, 1, 5, 0.9⟩ comeback = some s ∧
      Printable (fun dist => (if dist == 0 then "0" else "1").toList) s.cout ∧
      ¬ ∃ file, getDemotions .cache "sssp" 0
          (s.cout.flatMap (printed fun dist => (if dist == 0 then "0" else "1").toList)) = some file ∧
        ∀ t x, (t, x) ∈ file ↔ ∃ base : Nat, x = base + 0 ∧
          ∃ k, t = word k ∧ Single.Erases ⟨1, 1, 5, 0.9⟩ comeback k base := by
  have run : ((Single.simulate ⟨1, 1, 5, 0.9⟩ comeback.dropLast).bind fun s =>
      (Single.pccTrackAccess ⟨1, 1, 5, 0.9⟩ s 81920).map fun _ =>
        ((Single.counted s).freq 0, (Single.counted s).promoted 0,
          decide ((Single.counted s).promotionCache.Resident 0),
          Single.passDue ⟨1, 1, 5, 0.9⟩ (Single.counted s).totalNumAccesses)) =
      some (some 0, true, true, true) := by decide +kernel
  have fifth : (Single.simulate ⟨1, 1, 5, 0.9⟩ (comeback.take 4)).map (fun s =>
      decide ((Single.counted s).promotionCache.Resident 0)) = some false := by decide +kernel
  obtain ⟨s₁, h₁, e⟩ := Option.bind_eq_some_iff.mp run
  obtain ⟨s, st, e⟩ := Option.map_eq_some_iff.mp e
  obtain ⟨zero, e⟩ := Prod.mk.inj e
  obtain ⟨prom, e⟩ := Prod.mk.inj e
  obtain ⟨held, due⟩ := Prod.mk.inj e
  obtain ⟨s₀, h₀, absent⟩ := Option.map_eq_some_iff.mp fifth
  have last : comeback.dropLast ++ [81920] = comeback := by decide
  have h : Single.simulate ⟨1, 1, 5, 0.9⟩ comeback = some s := by
    rw [← last]
    exact Single.simulate_snoc.mpr ⟨s₁, h₁, st⟩
  have printable : Printable (fun dist => (if dist == 0 then "0" else "1").toList) s.cout := by
    intro _ dist _ _ _ _
    show Decimal (if dist == 0 then "0" else "1").toList
    split
    · exact ⟨['0'], [], [], rfl, by simp, by simp, .inl rfl, .inl rfl⟩
    · exact ⟨['1'], [], [], rfl, by simp, by simp, .inl rfl, .inl rfl⟩
  refine ⟨s, h, printable, ?_⟩
  rintro ⟨file, hfile, demotions⟩
  obtain ⟨file', hfile', written⟩ :=
    getDemotions_spec 0 h printable (logged_printed _ s.cout)
  obtain rfl := Option.some.inj (hfile.symm.trans hfile')
  have whole : comeback.dropLast ++ [81920] <+: comeback := ⟨[], (List.append_nil _).trans last⟩
  have lists : Single.Lists ⟨1, 1, 5, 0.9⟩ comeback 15 (Single.counted s₁) 0 :=
    ⟨⟨comeback.dropLast, 81920, s₁, whole, rfl, h₁, rfl, due⟩, of_decide_eq_true held⟩
  have erased := (Single.erases_iff h).mpr ⟨_, lists, prom⟩
  obtain ⟨base, e, second⟩ := (written _ _).mp ((demotions 15 0).mpr ⟨0, rfl, 15, rfl, erased⟩)
  obtain rfl : base = 0 := by omega
  -- of the three passes only the second lists the region with a frequency above zero
  have tenth : ∀ k, Counts ⟨1, 1, 5, 0.9⟩ comeback k 0 → k = 10 := by
    rintro k ⟨m, listed, ne⟩
    obtain ⟨one, le⟩ := listed.1.le
    have total := listed.1.total
    have pass := listed.1
    obtain ⟨⟨pre, a, u, hpre, hk, hu, rfl, due⟩, held⟩ := listed
    rw [total] at due
    have le : k ≤ 15 := le
    have five : k = 5 ∨ k = 10 ∨ k = 15 := by
      interval_cases k <;> first | omega | exact absurd due (by decide)
    rcases five with rfl | rfl | rfl
    · obtain rfl : comeback.take 4 = pre :=
        Single.prefix_unique (a := 73728) (List.take_prefix 5 comeback) hpre (Nat.succ.inj hk)
      obtain rfl := Option.some.inj (h₀.symm.trans hu)
      rw [decide_eq_false_iff_not] at absent
      exact absurd held absent
    · rfl
    · rw [pass.unique lists.1] at ne
      exact absurd zero ne
  obtain ⟨k, k', ne, counts, counts', _⟩ := second.1
  exact ne ((tenth k counts).trans (tenth k' counts').symm)

end
end PromotionCache.Scripts
