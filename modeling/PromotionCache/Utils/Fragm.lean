import Mathlib.Algebra.Group.Nat.Defs
import Mathlib.Data.List.Count
import Mathlib.Data.List.Nodup
import Mathlib.Data.List.Range
import Mathlib.Tactic.Common

/-!
# Fragmenting memory

The loop of `fragment_memory` in `fragm.c` that asks the kernel for blocks of `2 ^ order` pages and gives back all
pages of a block but the first, with its error path and with the loop at its end that frees what is left. The
kernel is the value that each call of `SYS_user_alloc_pages` returns; it may hand a page out again that was freed.

What is still held is one page of each block (`Ledgered`). The end frees these pages (`finalFree_balanced`), and
the error path frees whole blocks again (`balanced_iff`).
-/

namespace PromotionCache.Utils

/-- `-ENOMEM` as a value of `pgs` -/
def enomem : ℕ := 2 ^ 64 - 12

/-- Where a page is. -/
inductive Owner where
  | kernel
  | held
  | freed
  deriving DecidableEq

/-- The owner of every page. -/
abbrev Ledger := ℕ → Owner

/-- Pages go to an owner. -/
def Ledger.give (l : Ledger) (pages : List ℕ) (owner : Owner) : Ledger := fun p =>
  if p ∈ pages then owner else l p

/-- The pages of a block. -/
def block (order pfn : ℕ) : List ℕ := List.range' pfn (2 ^ order)

/-- What the calls of `SYS_user_alloc_pages` return, from the pages that are out and the number of the call: a
    block that has no held page, or `-ENOMEM`. -/
structure Kernel (order : ℕ) where
  alloc : Ledger → ℕ → ℕ
  fresh : ∀ l i, alloc l i ≠ enomem → ∀ p ∈ block order (alloc l i), l p ≠ .held

/-- A call of `SYS_user_free_pages`. -/
structure Free where
  pfn : ℕ
  order : ℕ

/-- The pages that some calls free, each as often as it is freed. -/
def freedBy (frees : List Free) : List ℕ := frees.flatMap fun f => block f.order f.pfn

/-- `pgs`, up to the current iteration, and the pages. -/
structure Holes where
  pgs : List ℕ
  ledger : Ledger

/-- The calls of `for (j = 1; j < pow(2, order); j++)`. -/
def freeTail (order pfn : ℕ) : List Free := (List.range' 1 (2 ^ order - 1)).map fun j => ⟨pfn + j, 0⟩

/-- The calls of the error path. -/
def cleanup (order : ℕ) (pgs : List ℕ) : List Free := pgs.map fun pfn => ⟨pfn, order⟩

/-- The calls of the last loop of `fragment_memory`. -/
def finalFree (pgs : List ℕ) : List Free := pgs.map fun pfn => ⟨pfn, 0⟩

variable {order : ℕ}

/-- The body of the loop over the fragments; on the error path it is left with what is there before the calls of
    the error path. -/
def fill (K : Kernel order) (s : Holes) (i : ℕ) : Except Holes Holes :=
  let pfn := K.alloc s.ledger i
  if pfn = enomem then .error s
  else
    .ok
      { pgs := s.pgs ++ [pfn]
        ledger := (s.ledger.give (block order pfn) .held).give (freedBy (freeTail order pfn)) .freed }

/-- The loop of `fragment_memory` over the fragments. -/
def fillHoles (K : Kernel order) (numFrags : ℕ) : Except Holes Holes :=
  (List.range numFrags).foldlM (fill K) ⟨[], fun _ => .kernel⟩

/-- Calls that free each held page once, and no page that is free. -/
def Balanced (l : Ledger) (frees : List Free) : Prop :=
  ∀ p, (l p = .held → (freedBy frees).count p = 1) ∧ (l p = .freed → p ∉ freedBy frees)

variable {K : Kernel order} {s t : Holes} {i numFrags pfn p : ℕ} {pgs : List ℕ}

/-- The pages of a block. -/
lemma mem_block : p ∈ block order pfn ↔ pfn ≤ p ∧ p < pfn + 2 ^ order := by
  rw [block, List.mem_range'_1]

/-- At the end the pages of the list are freed. -/
lemma freedBy_finalFree : freedBy (finalFree pgs) = pgs := by
  rw [freedBy, finalFree, List.flatMap_map]
  exact List.flatMap_singleton' pgs

/-- All pages of a block but the first are freed at once. -/
lemma mem_freeTail : p ∈ freedBy (freeTail order pfn) ↔ p ∈ block order pfn ∧ p ≠ pfn := by
  have pos := Nat.two_pow_pos order
  simp only [freedBy, freeTail, List.mem_flatMap, List.mem_map, mem_block, List.mem_range'_1]
  constructor
  · rintro ⟨_, ⟨j, bounds, rfl⟩, low, high⟩
    dsimp only at low high
    omega
  · rintro ⟨bounds, ne⟩
    refine ⟨⟨p, 0⟩, ⟨p - pfn, by omega, ?_⟩, by dsimp only; omega⟩
    rw [Nat.add_sub_cancel' bounds.1]

/-- One page of each block is held, and the other pages of the last block are free. -/
structure Ledgered (order : ℕ) (s : Holes) : Prop where
  held : ∀ p, s.ledger p = .held ↔ p ∈ s.pgs
  nodup : s.pgs.Nodup
  last : ∀ pfn ∈ s.pgs.getLast?, ∀ p ∈ block order pfn, p ≠ pfn → s.ledger p = .freed

/-- At the start nothing is held. -/
lemma Ledgered.start : Ledgered order ⟨[], fun _ => .kernel⟩ where
  held p := by simp
  nodup := List.nodup_nil
  last pfn h := by cases h

/-- The pages after one more block. -/
lemma fill_ledger (h : fill K s i = .ok t) :
    t.pgs = s.pgs ++ [K.alloc s.ledger i] ∧ (∀ p ∈ block order (K.alloc s.ledger i), s.ledger p ≠ .held) ∧
      ∀ p, t.ledger p =
        if p = K.alloc s.ledger i then .held
        else if p ∈ block order (K.alloc s.ledger i) then .freed else s.ledger p := by
  rw [fill] at h
  split at h
  · cases h
  · rename_i ok
    obtain rfl := Except.ok.inj h
    refine ⟨rfl, K.fresh _ _ ok, fun p => ?_⟩
    have own : K.alloc s.ledger i ∈ block order (K.alloc s.ledger i) :=
      mem_block.mpr ⟨Nat.le_refl _, Nat.lt_add_of_pos_right (Nat.two_pow_pos order)⟩
    simp only [Ledger.give, mem_freeTail]
    by_cases first : p = K.alloc s.ledger i
    · subst first
      simp [own]
    · by_cases inside : p ∈ block order (K.alloc s.ledger i) <;> simp [first, inside]

/-- A hole that is filled keeps the ledger. -/
lemma Ledgered.fill (h : Ledgered order s) (step : fill K s i = .ok t) : Ledgered order t := by
  obtain ⟨pgs, fresh, ledger⟩ := fill_ledger step
  generalize K.alloc s.ledger i = new at pgs fresh ledger
  have own : new ∈ block order new :=
    mem_block.mpr ⟨Nat.le_refl _, Nat.lt_add_of_pos_right (Nat.two_pow_pos order)⟩
  refine ⟨fun p => ?_, ?_, ?_⟩
  · rw [ledger, pgs, List.mem_append, List.mem_singleton, ← h.held]
    split
    case isTrue first => simp [first]
    case isFalse other =>
      split
      case isTrue inside => simp [other, fresh p inside]
      case isFalse => simp [other]
  · rw [pgs, List.nodup_append]
    refine ⟨h.nodup, List.nodup_singleton _, ?_⟩
    rintro p old _ here rfl
    obtain rfl := List.mem_singleton.mp here
    exact fresh p own ((h.held p).mpr old)
  · intro pfn last p inside ne
    rw [pgs, List.getLast?_concat] at last
    obtain rfl := Option.some.inj last
    rw [ledger, if_neg ne, if_pos inside]

/-- So does one that cannot be filled. -/
lemma Ledgered.error (h : Ledgered order s) (step : Utils.fill K s i = .error t) : Ledgered order t := by
  rw [Utils.fill] at step
  split at step
  · obtain rfl := Except.error.inj step
    exact h
  · cases step

/-- The pages are in order at the end of the loop and where it is left. -/
lemma ledgered_of_foldlM {is : List ℕ} (h : Ledgered order s) :
    (is.foldlM (fill K) s = .ok t → Ledgered order t) ∧ (is.foldlM (fill K) s = .error t → Ledgered order t) := by
  induction is generalizing s with
  | nil =>
    constructor
    · intro run
      obtain rfl := Except.ok.inj run
      exact h
    · intro run
      cases run
  | cons i is ih =>
    rw [List.foldlM_cons]
    cases step : fill K s i with
    | error u =>
      constructor
      · intro run
        cases run
      · intro run
        obtain rfl := Except.error.inj run
        exact h.error step
    | ok u => exact ih (h.fill step)

/-- What is held is freed page by page. -/
lemma Ledgered.balanced (h : Ledgered order s) : Balanced s.ledger (finalFree s.pgs) := by
  intro p
  rw [freedBy_finalFree]
  constructor
  · intro held
    exact List.count_eq_one_of_mem h.nodup ((h.held p).mp held)
  · intro freed mem
    rw [(h.held p).mpr mem] at freed
    cases freed

/-- The loop at the end of `fragment_memory` frees what is held. -/
theorem finalFree_balanced (h : fillHoles K numFrags = .ok s) : Balanced s.ledger (finalFree s.pgs) :=
  ((ledgered_of_foldlM Ledgered.start).1 h).balanced

/-- A page that is held stays in the list. -/
lemma pgs_ne_nil_of_foldlM {is : List ℕ} (some : s.pgs ≠ []) (run : is.foldlM (fill K) s = .error t) :
    t.pgs ≠ [] := by
  induction is generalizing s with
  | nil => cases run
  | cons i is ih =>
    rw [List.foldlM_cons] at run
    cases step : fill K s i with
    | error u =>
      rw [step] at run
      obtain rfl := Except.error.inj run
      rw [fill] at step
      split at step
      · obtain rfl := Except.error.inj step
        exact some
      · cases step
    | ok u =>
      rw [step] at run
      refine ih ?_ run
      rw [(fill_ledger step).1]
      exact List.append_ne_nil_of_left_ne_nil some _

/-- No block was handed out if and only if the first call failed. -/
lemma pgs_eq_nil_iff (h : fillHoles K numFrags = .error s) :
    s.pgs = [] ↔ K.alloc (fun _ => .kernel) 0 = enomem := by
  cases numFrags with
  | zero => cases h
  | succ n =>
    rw [fillHoles, List.range_succ_eq_map, List.foldlM_cons] at h
    by_cases fails : K.alloc (fun _ => .kernel) 0 = enomem
    · rw [fill, if_pos fails] at h
      obtain rfl := Except.error.inj h
      exact iff_of_true rfl fails
    · rw [fill, if_neg fails] at h
      exact iff_of_false (pgs_ne_nil_of_foldlM (List.cons_ne_nil _ _) h) fails

/-- A page of the last block is free already. -/
lemma Ledgered.not_balanced (h : Ledgered order s) (pos : order ≠ 0) (some : s.pgs ≠ []) :
    ¬ Balanced s.ledger (cleanup order s.pgs) := by
  intro balanced
  have size : 1 < 2 ^ order := Nat.one_lt_two_pow pos
  have second : s.pgs.getLast some + 1 ∈ block order (s.pgs.getLast some) := mem_block.mpr (by omega)
  have freed := h.last _ (List.getLast?_eq_some_getLast some) _ second (by omega)
  apply (balanced _).2 freed
  exact List.mem_flatMap.mpr ⟨_, List.mem_map.mpr ⟨_, List.getLast_mem some, rfl⟩, second⟩

/-- The error path is in order if and only if blocks are single pages or none was handed out. -/
theorem balanced_iff (K : Kernel order) (numFrags : ℕ) (s : Holes) (h : fillHoles K numFrags = .error s) :
    Balanced s.ledger (cleanup order s.pgs) ↔ order = 0 ∨ K.alloc (fun _ => .kernel) 0 = enomem := by
  have inv := (ledgered_of_foldlM Ledgered.start).2 h
  rw [← pgs_eq_nil_iff h]
  constructor
  · intro balanced
    by_contra none
    rw [not_or] at none
    exact inv.not_balanced none.1 none.2 balanced
  · intro single
    -- the calls are those of the loop at the end
    have same : cleanup order s.pgs = finalFree s.pgs := by
      rcases single with rfl | none
      · rfl
      · rw [none]
        rfl
    rw [same]
    exact inv.balanced

/-- A kernel that has the first two pages only. -/
def twoPages : Kernel 1 where
  alloc l i := if i = 0 ∧ l 0 ≠ .held ∧ l 1 ≠ .held then 0 else enomem
  fresh l i := by
    intro ok p mem
    split at ok
    case isTrue free =>
      rw [if_pos free] at mem
      rcases List.mem_pair.mp mem with rfl | rfl
      · exact free.2.1
      · exact free.2.2
    case isFalse => exact absurd rfl ok

/-- What is there when the second call fails. -/
def outOfMemory : Holes where
  pgs := [0]
  ledger := (Ledger.give (fun _ => .kernel) (block 1 0) .held).give (freedBy (freeTail 1 0)) .freed

/-- The run that gets no second block. -/
lemma twoPages_run : fillHoles twoPages 2 = .error outOfMemory := by
  rfl

/-- Blocks of two pages, the second of which cannot be had. -/
theorem balanced_iff_twoPages :
    fillHoles twoPages 2 = .error outOfMemory ∧
      (Balanced outOfMemory.ledger (cleanup 1 outOfMemory.pgs) ↔
        1 = 0 ∨ twoPages.alloc (fun _ => .kernel) 0 = enomem) :=
  ⟨twoPages_run, balanced_iff twoPages 2 outOfMemory twoPages_run⟩

/-- The second page is freed twice. -/
theorem cleanup_not_balanced :
    fillHoles twoPages 2 = .error outOfMemory ∧ ¬ Balanced outOfMemory.ledger (cleanup 1 outOfMemory.pgs) := by
  refine ⟨twoPages_run, fun balanced => ?_⟩
  exact (balanced 1).2 rfl (by decide)

end PromotionCache.Utils
