import Mathlib.Data.List.Range
import PromotionCache.Utils.Promotions

/-!
# Pages of a file of promotions

Which pages the ranges of `read_promotions_over_time` stand for, with huge pages of `HUGE_PAGE_SIZE`. Pages
are below `2 ^ 43`; a run of lines goes on from the last of them at page 0, and its range does not
(`kept_iff`).
-/

namespace PromotionCache.Utils
open Lib

/-- `HUGE_PAGE_SIZE` -/
def hugePageSize : UInt64 := 2097152

/-- The last page below `2 ^ 43`, which is the last one of the address space. -/
def lastPage : UInt64 := 8796093022207

/-- The pages of a range. -/
def pagesOf (range : UInt64 × UInt64) : List ℕ :=
  (List.range (range.2 / hugePageSize).toNat).map ((range.1 / hugePageSize).toNat + ·)

/-- The ranges under a time are the pages that the file lists with it, and without lines there are none. -/
def Kept (recs : List (UInt64 × UInt64)) (data : RangeMap) : Prop :=
  (∀ t, (data.getD t []).flatMap pagesOf = (recs.filter (·.1 = t)).map (·.2.toNat)) ∧
    (recs = [] → data.isEmpty = true)

/-- The time of a run. -/
def timeOf (run : List (UInt64 × UInt64)) : UInt64 := (run.head?.getD (0, 0)).1

/-- All pages in order, under one time. -/
def allPages (t : UInt64) : List (UInt64 × UInt64) :=
  (List.range (2 ^ 43)).map fun p => (t, UInt64.ofNat p)

section
variable {pmdPagesize start time offset t p : UInt64} {run recs : List (UInt64 × UInt64)}
  {runs : List (List (UInt64 × UInt64))} {data : RangeMap} {file : TextFile}

/-- The ranges of a time after one more run. -/
lemma getD_pushRun : (pushRun pmdPagesize data run).getD t [] =
    data.getD t [] ++ if timeOf run = t then [rangeOf pmdPagesize run] else [] := by
  rw [pushRun, pushBack, Std.TreeMap.getD_insert]
  by_cases same : timeOf run = t
  · rw [if_pos same, if_pos (by rw [← same]; exact Std.ReflCmp.compare_self)]
    rw [← same]
    rfl
  · rw [if_neg same, List.append_nil, if_neg]
    intro eq
    exact same (Std.LawfulEqCmp.eq_of_compare eq)

/-- The ranges of the runs of a time come under it, in their order. -/
lemma getD_pushRuns : (runs.foldl (pushRun pmdPagesize) data).getD t [] =
    data.getD t [] ++ (runs.filter (timeOf · = t)).map (rangeOf pmdPagesize) := by
  induction runs generalizing data with
  | nil => simp
  | cons run runs ih =>
    rw [List.foldl_cons, ih, getD_pushRun, List.filter_cons]
    split <;> simp_all

/-- The times are those of the runs. -/
lemma mem_pushRuns :
    t ∈ runs.foldl (pushRun pmdPagesize) data ↔ t ∈ data ∨ ∃ run ∈ runs, timeOf run = t := by
  induction runs generalizing data with
  | nil => simp
  | cons run runs ih =>
    have first : t ∈ pushRun pmdPagesize data run ↔ timeOf run = t ∨ t ∈ data := by
      rw [pushRun, pushBack, Std.TreeMap.mem_insert, Std.LawfulEqCmp.compare_eq_iff_eq]
      rfl
    rw [List.foldl_cons, ih, first, List.exists_mem_cons_iff, or_comm (a := _ = t), or_assoc]

/-- What an entry of the map holds. -/
lemma mem_toList_pushRuns {e : UInt64 × List (UInt64 × UInt64)}
    (mem : e ∈ (runs.foldl (pushRun pmdPagesize) ∅).toList) :
    e.2 = (runs.filter (timeOf · = e.1)).map (rangeOf pmdPagesize) ∧ ∃ run ∈ runs, timeOf run = e.1 := by
  have looks := Std.TreeMap.mem_toList_iff_getElem?_eq_some.mp mem
  have held : e.1 ∈ runs.foldl (pushRun pmdPagesize) ∅ := by
    rw [Std.TreeMap.mem_iff_isSome_getElem?, looks]
    rfl
  constructor
  · have found : (runs.foldl (pushRun pmdPagesize) ∅).getD e.1 [] = _ := getD_pushRuns
    rwa [Std.TreeMap.getD_eq_getD_getElem?, looks, Std.TreeMap.getD_emptyc, List.nil_append] at found
  · rcases mem_pushRuns.mp held with empty | here
    · exact absurd empty Std.TreeMap.not_mem_emptyc
    · exact here

/-- A run has one time. -/
lemma time_of_mem (chain : run.IsChain fun a b => follows pmdPagesize a b)
    {line : UInt64 × UInt64} (mem : line ∈ run) : line.1 = timeOf run := by
  cases run with
  | nil => cases mem
  | cons first rest =>
    have times : (first :: rest).IsChain fun a b => a.1 = b.1 := by
      refine chain.imp ?_
      intro a b goes
      rw [follows, Bool.and_eq_true, decide_eq_true_eq] at goes
      exact goes.1.symm
    have all := List.isChain_iff_pairwise.mp times
    cases List.mem_cons.mp mem with
    | inl same => rw [same]; rfl
    | inr later => exact ((List.pairwise_cons.mp all).1 line later).symm

/-- The lines of a time are those of its runs. -/
lemma filter_flatten (one : ∀ run ∈ runs, ∀ line ∈ run, line.1 = timeOf run) :
    runs.flatten.filter (·.1 = t) = (runs.filter (timeOf · = t)).flatten := by
  induction runs with
  | nil => rfl
  | cons run runs ih =>
    obtain ⟨here, later⟩ := List.forall_mem_cons.mp one
    rw [List.flatten_cons, List.filter_append, ih later, List.filter_cons]
    by_cases same : timeOf run = t
    · have all : run.filter (·.1 = t) = run := by
        rw [List.filter_eq_self]
        intro line mem
        simpa [here line mem] using same
      simp [same, all]
    · have none : run.filter (·.1 = t) = [] := by
        rw [List.filter_eq_nil_iff]
        intro line mem
        simpa [here line mem] using same
      simp [same, none]

/-- Below `2 ^ 43` the next page is found, and after the last one comes page 0. -/
lemma follows_iff {before line : UInt64 × UInt64} (small : line.2.toNat < 2 ^ 43) :
    follows hugePageSize before line = true ↔
      line.1 = before.1 ∧ line.2.toNat = (before.2.toNat + 1) % 2 ^ 43 := by
  have size : hugePageSize.toNat = 2097152 := rfl
  rw [follows, Bool.and_eq_true, decide_eq_true_eq, decide_eq_true_eq, ← UInt64.toNat_inj (a := _ * _),
    UInt64.toNat_add, UInt64.toNat_mul, UInt64.toNat_mul, size]
  refine and_congr_right fun _ => ?_
  omega

/-- A run is known from its first line and its length. -/
lemma run_eq (chain : ((t, p) :: run).IsChain fun a b => follows hugePageSize a b)
    (small : ∀ line ∈ (t, p) :: run, line.2.toNat < 2 ^ 43) :
    (t, p) :: run = (List.range (run.length + 1)).map fun i =>
      (t, UInt64.ofNat ((p.toNat + i) % 2 ^ 43)) := by
  induction run generalizing p with
  | nil =>
    have lt : p.toNat < 2 ^ 43 := small (t, p) List.mem_cons_self
    have first : UInt64.ofNat (p.toNat % 2 ^ 43) = p := by
      rw [Nat.mod_eq_of_lt lt, UInt64.ofNat_toNat]
    simp only [List.length_nil, Nat.zero_add, List.range_one, List.map_cons, List.map_nil,
      Nat.add_zero, first]
  | cons line run ih =>
    obtain ⟨t', p'⟩ := line
    obtain ⟨goes, onward⟩ := List.isChain_cons_cons.mp chain
    obtain ⟨lt, later⟩ := List.forall_mem_cons.mp small
    obtain ⟨same, next⟩ := (follows_iff (later (t', p') List.mem_cons_self)).mp goes
    obtain rfl : t' = t := same
    have next : p'.toNat = (p.toNat + 1) % 2 ^ 43 := next
    have first : UInt64.ofNat (p.toNat % 2 ^ 43) = p := by
      rw [Nat.mod_eq_of_lt lt, UInt64.ofNat_toNat]
    rw [List.length_cons, ih onward later, List.range_succ_eq_map (n := run.length + 1), List.map_cons,
      List.map_map, Nat.add_zero p.toNat, first]
    refine congrArg _ (List.map_congr_left fun i _ => ?_)
    rw [next, Function.comp_apply, Nat.mod_add_mod, Nat.add_assoc, Nat.add_comm 1]

/-- A range loses `2 ^ 43` pages, as its length does. -/
lemma pagesOf_rangeOf (small : p.toNat < 2 ^ 43) : pagesOf (rangeOf hugePageSize ((t, p) :: run)) =
    (List.range ((run.length + 1) % 2 ^ 43)).map (p.toNat + ·) := by
  have size : hugePageSize.toNat = 2097152 := rfl
  have first : (p * hugePageSize / hugePageSize).toNat = p.toNat := by
    rw [UInt64.toNat_div, UInt64.toNat_mul, size]
    omega
  have count : (UInt64.ofNat (run.length + 1) * hugePageSize / hugePageSize).toNat =
      (run.length + 1) % 2 ^ 43 := by
    rw [UInt64.toNat_div, UInt64.toNat_mul, UInt64.toNat_ofNat', size]
    omega
  show (List.range (UInt64.ofNat (run.length + 1) * hugePageSize / hugePageSize).toNat).map
    ((p * hugePageSize / hugePageSize).toNat + ·) = _
  rw [first, count]

/-- The range of a run is its pages if it ends before the address space does and is not all of it. -/
lemma run_kept_iff (chain : ((t, p) :: run).IsChain fun a b => follows hugePageSize a b)
    (small : ∀ line ∈ (t, p) :: run, line.2.toNat < 2 ^ 43) :
    pagesOf (rangeOf hugePageSize ((t, p) :: run)) = ((t, p) :: run).map (·.2.toNat) ↔
      run.length + 1 < 2 ^ 43 ∧ p.toNat + (run.length + 1) ≤ 2 ^ 43 := by
  have lt : p.toNat < 2 ^ 43 := small (t, p) List.mem_cons_self
  have pages : ((t, p) :: run).map (·.2.toNat) =
      (List.range (run.length + 1)).map fun i => (p.toNat + i) % 2 ^ 43 := by
    rw [run_eq chain small, List.map_map]
    refine List.map_congr_left fun i _ => ?_
    show (UInt64.ofNat ((p.toNat + i) % 2 ^ 43)).toNat = _
    rw [UInt64.toNat_ofNat']
    omega
  rw [pages, pagesOf_rangeOf lt]
  constructor
  · intro same
    have len := congrArg List.length same
    rw [List.length_map, List.length_map, List.length_range, List.length_range] at len
    rw [len] at same
    have last := List.map_inj_left.mp same run.length (List.mem_range.mpr (Nat.lt_succ_self _))
    omega
  · intro ⟨short, fits⟩
    rw [Nat.mod_eq_of_lt short]
    refine List.map_congr_left fun i mem => ?_
    have := List.mem_range.mp mem
    omega

/-- The file is kept if every run is. -/
lemma kept_iff_runs (small : ∀ line ∈ recs, line.2.toNat < 2 ^ 43) :
    Kept recs ((recs.splitBy (follows hugePageSize)).foldl (pushRun hugePageSize) ∅) ↔
      ∀ run ∈ recs.splitBy (follows hugePageSize),
        pagesOf (rangeOf hugePageSize run) = run.map (·.2.toNat) := by
  have one : ∀ run ∈ recs.splitBy (follows hugePageSize), ∀ line ∈ run, line.1 = timeOf run :=
    fun run mem line => time_of_mem (List.isChain_of_mem_splitBy mem)
  have sides : ∀ t, ((((recs.splitBy (follows hugePageSize)).foldl (pushRun hugePageSize) ∅).getD t
      []).flatMap pagesOf = (recs.filter (·.1 = t)).map (·.2.toNat)) ↔
      ((recs.splitBy (follows hugePageSize)).filter (timeOf · = t)).flatMap
        (fun run => pagesOf (rangeOf hugePageSize run)) =
      ((recs.splitBy (follows hugePageSize)).filter (timeOf · = t)).flatMap
        (fun run => run.map (·.2.toNat)) := by
    intro t
    have lines : recs.filter (·.1 = t) =
        ((recs.splitBy (follows hugePageSize)).filter (timeOf · = t)).flatten := by
      rw [← filter_flatten one, List.flatten_splitBy]
    rw [getD_pushRuns, lines, Std.TreeMap.getD_emptyc, List.nil_append, List.flatMap_map,
      List.map_flatten, List.flatMap_def, List.flatMap_def]
  constructor
  · intro ⟨kept, _⟩ run mem
    refine eq_of_flatMap_eq (fun run mem => ?_) ((sides (timeOf run)).mp (kept (timeOf run))) run
      (List.mem_filter.mpr ⟨mem, by simp⟩)
    have mem := List.mem_of_mem_filter mem
    cases run with
    | nil => exact absurd mem (List.nil_notMem_splitBy _ _)
    | cons line run =>
      have sub : line ∈ recs := by
        rw [← List.flatten_splitBy (follows hugePageSize) recs]
        exact List.mem_flatten_of_mem mem List.mem_cons_self
      rw [pagesOf_rangeOf (small line sub), List.length_map, List.length_map, List.length_range]
      exact Nat.mod_le _ _
  · intro all
    refine ⟨fun t => (sides t).mpr ?_, ?_⟩
    · exact List.flatMap_congr fun run mem => all run (List.mem_of_mem_filter mem)
    · rintro rfl
      rfl

/-- Two numbers that follow each other in a range. -/
lemma pair_infix_range {i n : ℕ} (lt : i + 1 < n) : [i, i + 1] <:+: List.range n := by
  obtain ⟨rest, rfl⟩ : ∃ rest, n = i + (2 + rest) := ⟨n - i - 2, by omega⟩
  refine ⟨List.range i, (List.range rest).map fun j => i + (2 + j), ?_⟩
  rw [List.range_add, List.range_add, List.map_append, List.map_map, ← List.append_assoc]
  rfl

/-- A run ends before the address space does and is not all of it, unless it goes on from the last page at
    page 0 or holds all pages in order. -/
lemma run_fits (chain : ((t, p) :: run).IsChain fun a b => follows hugePageSize a b)
    (small : ∀ line ∈ (t, p) :: run, line.2.toNat < 2 ^ 43)
    (wraps : ¬ [(t, lastPage), (t, 0)] <:+: (t, p) :: run) (all : ¬ allPages t <:+: (t, p) :: run) :
    run.length + 1 < 2 ^ 43 ∧ p.toNat + (run.length + 1) ≤ 2 ^ 43 := by
  have lt : p.toNat < 2 ^ 43 := small (t, p) List.mem_cons_self
  rw [run_eq chain small] at wraps all
  have fits : p.toNat + (run.length + 1) ≤ 2 ^ 43 := by
    by_contra past
    -- the run passes the last page
    obtain ⟨i, hi⟩ : ∃ i, p.toNat + i = 2 ^ 43 - 1 := ⟨2 ^ 43 - 1 - p.toNat, by omega⟩
    have last : (p.toNat + i) % 2 ^ 43 = 2 ^ 43 - 1 := by omega
    have zero : (p.toNat + (i + 1)) % 2 ^ 43 = 0 := by omega
    have pair := (pair_infix_range (i := i) (n := run.length + 1) (by omega)).map fun i =>
      (t, UInt64.ofNat ((p.toNat + i) % 2 ^ 43))
    rw [List.map_cons, List.map_cons, List.map_nil, last, zero] at pair
    exact wraps pair
  refine ⟨?_, fits⟩
  by_contra long
  have whole : run.length + 1 = 2 ^ 43 := by omega
  have start : p.toNat = 0 := by omega
  have same : allPages t = (List.range (run.length + 1)).map fun i =>
      (t, UInt64.ofNat ((p.toNat + i) % 2 ^ 43)) := by
    rw [allPages, whole, start]
    refine List.map_congr_left fun i mem => ?_
    rw [Nat.zero_add, Nat.mod_eq_of_lt (List.mem_range.mp mem)]
  rw [same] at all
  exact all (List.infix_refl _)

/-- From the last page the lines go on at page 0. -/
lemma chain_wraps (t : UInt64) :
    [(t, lastPage), (t, 0)].IsChain fun a b => follows hugePageSize a b := by
  have small : (0 : UInt64).toNat < 2 ^ 43 := by decide
  have next : (0 : UInt64).toNat = (lastPage.toNat + 1) % 2 ^ 43 := by decide
  refine List.isChain_cons_cons.mpr ⟨(follows_iff small).mpr ⟨rfl, next⟩, ?_⟩
  exact List.isChain_singleton _

/-- Pages that follow each other make one run. -/
lemma chain_range (t : UInt64) {n : ℕ} (le : n ≤ 2 ^ 43) :
    ((List.range n).map fun p => (t, UInt64.ofNat p)).IsChain fun a b => follows hugePageSize a b := by
  cases n with
  | zero => exact List.isChain_nil
  | succ n =>
    rw [List.isChain_map, List.isChain_range_succ]
    intro p lt
    have here : (UInt64.ofNat p).toNat = p := by
      rw [UInt64.toNat_ofNat']
      omega
    have next : (UInt64.ofNat p.succ).toNat = p + 1 := by
      rw [UInt64.toNat_ofNat']
      omega
    refine (follows_iff ?_).mpr ⟨rfl, ?_⟩
    · rw [next]
      omega
    · rw [here, next]
      omega

/-- The pages of a run that is kept increase, and there are not all of them. -/
lemma pages_of_kept {first : UInt64 × UInt64} (small : first.2.toNat < 2 ^ 43)
    (kept : pagesOf (rangeOf hugePageSize (first :: run)) = (first :: run).map (·.2.toNat)) :
    ((first :: run).map (·.2.toNat)).Pairwise (· < ·) ∧ (first :: run).length < 2 ^ 43 := by
  obtain ⟨t, p⟩ := first
  rw [pagesOf_rangeOf small] at kept
  have len := congrArg List.length kept
  rw [List.length_map, List.length_map, List.length_range] at len
  constructor
  · rw [← kept, List.pairwise_map]
    exact List.pairwise_lt_range.imp fun lt => Nat.add_lt_add_left lt _
  · rw [← len]
    exact Nat.mod_lt _ (by decide)

/-- Whatever the local variables hold at first, the ranges under a time are its pages if and only if no line
    with the last page is followed by one with page 0 and the same time, and all pages in order do not stand
    under one time. -/
theorem kept_iff (read : (lines file.text).mapM timePage = some recs)
    (small : ∀ line ∈ recs, line.2.toNat < 2 ^ 43) :
    (∃ data, readPromotionsOverTime hugePageSize start time offset file = some data ∧
      Kept recs data) ↔
    (∀ t, ¬ [(t, lastPage), (t, 0)] <:+: recs) ∧ ∀ t, ¬ allPages t <:+: recs := by
  have parts : ∀ run ∈ recs.splitBy (follows hugePageSize), run <:+: recs := by
    intro run mem
    have part := List.infix_of_mem_flatten mem
    rwa [List.flatten_splitBy] at part
  have runs : (∃ data, readPromotionsOverTime hugePageSize start time offset file = some data ∧
      Kept recs data) ↔ ∀ run ∈ recs.splitBy (follows hugePageSize),
        pagesOf (rangeOf hugePageSize run) = run.map (·.2.toNat) := by
    rw [readPromotionsOverTime_eq read, ← kept_iff_runs small]
    exact ⟨fun ⟨_, e, kept⟩ => Option.some.inj e ▸ kept, fun kept => ⟨_, rfl, kept⟩⟩
  rw [runs]
  constructor
  · intro kept
    have pages : ∀ run ∈ recs.splitBy (follows hugePageSize),
        (run.map (·.2.toNat)).Pairwise (· < ·) ∧ run.length < 2 ^ 43 := by
      intro run mem
      cases run with
      | nil => exact absurd mem (List.nil_notMem_splitBy _ _)
      | cons first run =>
        have sub := small first ((parts _ mem).subset List.mem_cons_self)
        exact pages_of_kept sub (kept _ mem)
    constructor
    · intro t wraps
      obtain ⟨run, mem, part⟩ := exists_run_of_infix (chain_wraps t) (List.cons_ne_nil _ _) wraps
      have lt := (pages run mem).1.sublist (part.map _).sublist
      simp at lt
    · intro t all
      have ne : allPages t ≠ [] := by
        rw [allPages, ne_eq, List.map_eq_nil_iff, List.range_eq_nil]
        decide
      obtain ⟨run, mem, part⟩ := exists_run_of_infix (chain_range t (Nat.le_refl _)) ne all
      have le := part.length_le
      have lt := (pages run mem).2
      rw [List.length_map, List.length_range] at le
      omega
  · intro ⟨wraps, all⟩ run mem
    have part := parts run mem
    cases run with
    | nil => exact absurd mem (List.nil_notMem_splitBy _ _)
    | cons first run =>
      have chain := List.isChain_of_mem_splitBy mem
      have small : ∀ line ∈ first :: run, line.2.toNat < 2 ^ 43 := fun line mem =>
        small line (part.subset mem)
      exact (run_kept_iff chain small).mpr (run_fits chain small
        (fun here => wraps _ (here.trans part)) fun here => all _ (here.trans part))

end

/-- Two times, of which one comes back. -/
def batch : TextFile := ⟨"3,7\n3,0x8\n1,5\n3,9".toList, by decide⟩

/-- Records of two times, with a gap. -/
theorem kept_iff_batch : ∃ data, readPromotionsOverTime hugePageSize 0 3 0 batch = some data ∧
    Kept [(3, 7), (3, 8), (1, 5), (3, 9)] data := by
  have read : (lines batch.text).mapM timePage = some [(3, 7), (3, 8), (1, 5), (3, 9)] := by decide
  refine (kept_iff read (by simp)).mpr ⟨?_, ?_⟩
  · intro t wraps
    have mem : lastPage ∈ [7, 8, 5, 9] :=
      List.mem_map_of_mem (f := Prod.snd) (wraps.subset List.mem_cons_self)
    exact absurd mem (by decide)
  · intro t all
    have le := all.length_le
    rw [allPages, List.length_map, List.length_range] at le
    exact absurd le (by decide)

/-- After the last page comes page 0, and the range is for the page after the last one. -/
def lastPages : TextFile := ⟨"1,8796093022207\n1,0\n".toList, by decide⟩

/-- Behind the last page, the address 0 is taken for the next one. -/
theorem last_page_wraps :
    (lines lastPages.text).mapM timePage = some [(1, 8796093022207), (1, 0)] ∧
      ¬ ∀ start time offset,
        ∃ data, readPromotionsOverTime hugePageSize start time offset lastPages = some data ∧
          Kept [(1, 8796093022207), (1, 0)] data := by
  have read : (lines lastPages.text).mapM timePage = some [(1, 8796093022207), (1, 0)] := by decide
  refine ⟨read, ?_⟩
  intro keeps
  obtain ⟨data, e, kept, _⟩ := keeps 0 0 0
  rw [readPromotionsOverTime_eq read] at e
  obtain rfl := Option.some.inj e
  have pages := kept 1
  rw [getD_pushRuns] at pages
  revert pages
  decide

end PromotionCache.Utils
