import Mathlib.Algebra.Order.BigOperators.Group.List
import Mathlib.Data.List.TakeWhile
import Mathlib.Data.Multiset.AddSub
import Mathlib.Data.Multiset.Filter
import PromotionCache.Dedup.Reorder

/-!
# In what order the chunks are written

The chunks of an input, in their order, are numbered: the first one has the sequence number `(0, 0)`, and each is
followed by the chunk with the next number (`Numbered`). In whatever order they arrive, what has been written is
always the longest beginning of that order that has arrived (`reorder_run`).
-/

namespace PromotionCache.Dedup
open Lib

variable {α : Type*}

/-- The sequence number after that of a chunk. -/
def SeqChunk.after (c : SeqChunk α) : Sequence :=
  if c.isLastL2Chunk then sequenceIncL1 c.sequence else sequenceIncL2 c.sequence

/-- The sequence number after some chunks. -/
def afterAll (out : List (SeqChunk α)) : Sequence := (out.getLast?.map SeqChunk.after).getD ⟨0, 0⟩

/-- Every chunk has the number after those before it. -/
def Numbered (chunks : List (SeqChunk α)) : Prop :=
  ∀ before c, before ++ [c] <+: chunks → c.sequence = afterAll before

variable {chunks before arrived : List (SeqChunk α)} {c d : SeqChunk α} {s t : Reorder α}

/-- No number is below itself. -/
lemma sequenceLt_irrefl (s : Sequence) : ¬ sequenceLt s s := by
  rintro (lt | ⟨_, lt⟩) <;> exact Nat.lt_irrefl _ lt

/-- The order of the numbers is transitive. -/
lemma sequenceLt.trans {s1 s2 s3 : Sequence} (h : sequenceLt s1 s2) (h' : sequenceLt s2 s3) : sequenceLt s1 s3 := by
  unfold sequenceLt at *
  omega

/-- The next number is above. -/
lemma sequenceLt_after (c : SeqChunk α) : sequenceLt c.sequence c.after := by
  unfold SeqChunk.after
  split
  case isTrue => exact .inl (Nat.lt_succ_self _)
  case isFalse => exact .inr ⟨rfl, Nat.lt_succ_self _⟩

/-- The number after some chunks is that after the last one. -/
lemma afterAll_append (before : List (SeqChunk α)) (c : SeqChunk α) : afterAll (before ++ [c]) = c.after := by
  rw [afterAll, List.getLast?_concat]
  rfl

/-- The numbers go up. -/
lemma Numbered.lt (h : Numbered chunks) (pre : before <+: chunks) (mem : c ∈ before) :
    sequenceLt c.sequence (afterAll before) := by
  induction before using List.reverseRecOn with
  | nil => cases mem
  | append_singleton before d ih =>
    have own := h before d pre
    rw [afterAll_append]
    rcases List.mem_append.mp mem with mem | mem
    · have low := ih ((List.prefix_append _ _).trans pre) mem
      rw [← own] at low
      exact low.trans (sequenceLt_after d)
    · rw [List.mem_singleton.mp mem]
      exact sequenceLt_after d

/-- A chunk behind some others has a greater number. -/
lemma Numbered.lt_of_append (h : Numbered (before ++ chunks)) (mem : c ∈ before) (mem' : d ∈ chunks) :
    sequenceLt c.sequence d.sequence := by
  obtain ⟨l₁, l₂, rfl⟩ := List.append_of_mem mem'
  have pre : before ++ l₁ ++ [d] <+: before ++ (l₁ ++ d :: l₂) := ⟨l₂, by simp⟩
  rw [h (before ++ l₁) d pre]
  exact h.lt ((List.prefix_append _ _).trans pre) (List.mem_append_left _ mem)

/-- No two chunks have the same number. -/
lemma Numbered.injective (h : Numbered chunks) (mem : c ∈ chunks) (mem' : d ∈ chunks) (eq : c.sequence = d.sequence) :
    c = d := by
  obtain ⟨l₁, l₂, rfl⟩ := List.append_of_mem mem
  rcases List.mem_append.mp mem' with first | rest
  · have lt := h.lt_of_append first (List.mem_cons_self (a := c))
    rw [eq] at lt
    exact absurd lt (sequenceLt_irrefl _)
  · rcases List.mem_cons.mp rest with rfl | later
    · rfl
    · rw [← List.singleton_append, ← List.append_assoc] at h
      have lt := h.lt_of_append (List.mem_append_right l₁ List.mem_cons_self) later
      rw [eq] at lt
      exact absurd lt (sequenceLt_irrefl _)

/-- No chunk is there twice. -/
lemma Numbered.nodup (h : Numbered chunks) : chunks.Nodup := by
  induction chunks using List.reverseRecOn with
  | nil => exact List.nodup_nil
  | append_singleton chunks c ih =>
    have shorter : Numbered chunks := fun before d pre => h before d (pre.trans (List.prefix_append _ _))
    refine List.nodup_append.mpr ⟨ih shorter, List.nodup_singleton c, fun d mem e mem' eq => ?_⟩
    have lt := h.lt_of_append mem mem'
    rw [eq] at lt
    exact sequenceLt_irrefl _ lt

/-- The last chunk of a coarse chunk has the greatest second number. -/
lemma Numbered.l2num_lt (h : Numbered chunks) (mem : c ∈ chunks) (mem' : d ∈ chunks) (last : c.isLastL2Chunk = true)
    (same : d.sequence.l1num = c.sequence.l1num) (ne : d ≠ c) : d.sequence.l2num < c.sequence.l2num := by
  obtain ⟨l₁, l₂, rfl⟩ := List.append_of_mem mem
  rcases List.mem_append.mp mem' with first | rest
  · rcases h.lt_of_append first (List.mem_cons_self (a := c)) with lt | ⟨_, lt⟩
    · omega
    · exact lt
  · have later := (List.mem_cons.mp rest).resolve_left ne
    have first (e : SeqChunk α) (pre : l₁ ++ [c] ++ [e] <+: l₁ ++ c :: l₂) : e.sequence.l1num = c.sequence.l1num + 1 := by
      rw [h (l₁ ++ [c]) e pre, afterAll_append, SeqChunk.after, if_pos last]
      rfl
    cases l₂ with
    | nil => cases later
    | cons e l₂ =>
      have next := first e ⟨l₂, by simp⟩
      rcases List.mem_cons.mp later with rfl | later
      · omega
      · have split : l₁ ++ c :: e :: l₂ = (l₁ ++ [c, e]) ++ l₂ := by simp
        rw [split] at h
        rcases h.lt_of_append (List.mem_append_right l₁ (List.mem_cons_of_mem c List.mem_cons_self)) later with lt | ⟨eq, _⟩
        · omega
        · omega

/-- The tree holds some chunks: a queue for each first number that one of them has. -/
structure Keeps (tree : SearchTree (TreeElement α)) (m : Multiset (SeqChunk α)) : Prop where
  sorted : tree.Sorted TreeElement.l1num
  holds : ∀ e ∈ tree.toList, e.queue.Holds SeqChunk.l2num (m.filter (·.sequence.l1num = e.l1num))
  occupied : ∀ e ∈ tree.toList, ∃ c ∈ m, c.sequence.l1num = e.l1num
  covers : ∀ c ∈ m, ∃ e ∈ tree.toList, e.l1num = c.sequence.l1num

variable {tree : SearchTree (TreeElement α)} {m : Multiset (SeqChunk α)}

/-- The empty tree keeps nothing. -/
lemma keeps_null : Keeps .null (0 : Multiset (SeqChunk α)) :=
  ⟨List.Pairwise.nil, fun _ => nofun, fun _ => nofun, fun _ mem => absurd mem (Multiset.notMem_zero _)⟩

/-- Only the empty tree does. -/
lemma Keeps.null_iff (h : Keeps tree m) : tree.treeFindMin = none ↔ m = 0 := by
  rw [SearchTree.treeFindMin_eq, List.head?_eq_none_iff]
  constructor
  · intro empty
    rw [Multiset.eq_zero_iff_forall_notMem]
    intro c mem
    obtain ⟨e, found, _⟩ := h.covers c mem
    rw [empty] at found
    cases found
  · rintro rfl
    rw [List.eq_nil_iff_forall_not_mem]
    intro e found
    obtain ⟨c, mem, _⟩ := h.occupied e found
    exact Multiset.notMem_zero c mem

/-- A chunk is put into the cache. -/
lemma Keeps.put (h : Keeps s.tree m) (c : SeqChunk α) : Keeps (s.put c).tree (c ::ₘ m) := by
  have other {e : TreeElement α} (ne : e.l1num ≠ c.sequence.l1num) :
      (c ::ₘ m).filter (·.sequence.l1num = e.l1num) = m.filter (·.sequence.l1num = e.l1num) :=
    Multiset.filter_cons_of_neg m fun eq => ne eq.symm
  have own : (c ::ₘ m).filter (·.sequence.l1num = c.sequence.l1num) =
      c ::ₘ m.filter (·.sequence.l1num = c.sequence.l1num) := Multiset.filter_cons_of_pos m rfl
  unfold Reorder.put
  simp only
  split
  case h_1 missing =>
    have new : ∀ e ∈ s.tree.toList, e.l1num ≠ c.sequence.l1num := by
      intro e mem eq
      rw [(SearchTree.treeFind_iff h.sorted).mpr ⟨mem, eq⟩] at missing
      cases missing
    have none : m.filter (·.sequence.l1num = c.sequence.l1num) = 0 := by
      rw [Multiset.filter_eq_nil]
      intro d mem eq
      obtain ⟨e, found, eq'⟩ := h.covers d mem
      exact new e found (eq'.trans eq)
    refine ⟨h.sorted.treeInsert new, fun e mem => ?_, fun e mem => ?_, fun d mem => ?_⟩
    · rcases (SearchTree.mem_treeInsert new).mp mem with rfl | mem
      · change PriorityQueue.Holds _ _ ((c ::ₘ m).filter (·.sequence.l1num = c.sequence.l1num))
        rw [own, none]
        exact (PriorityQueue.holds_initial SeqChunk.l2num initialSearchTreeSize).insert c
      · rw [other (new e mem)]
        exact h.holds e mem
    · rcases (SearchTree.mem_treeInsert new).mp mem with rfl | mem
      · exact ⟨c, Multiset.mem_cons_self c m, rfl⟩
      · obtain ⟨d, mem, eq⟩ := h.occupied e mem
        exact ⟨d, Multiset.mem_cons_of_mem mem, eq⟩
    · rcases Multiset.mem_cons.mp mem with rfl | mem
      · exact ⟨_, (SearchTree.mem_treeInsert new).mpr (.inl rfl), rfl⟩
      · obtain ⟨e, found, eq⟩ := h.covers d mem
        exact ⟨e, (SearchTree.mem_treeInsert new).mpr (.inr found), eq⟩
  case h_2 pos found =>
    obtain ⟨mem, eq⟩ := (SearchTree.treeFind_iff h.sorted).mp found
    have elements (e : TreeElement α) := SearchTree.mem_setAt h.sorted mem eq
      (x := ⟨pos.l1num, pos.queue.insert SeqChunk.l2num c⟩) (z := e)
    refine ⟨h.sorted.setAt eq, fun e mem' => ?_, fun e mem' => ?_, fun d mem' => ?_⟩
    · rcases (elements e).mp mem' with rfl | ⟨mem', ne⟩
      · simp only [eq]
        rw [own, ← eq]
        exact (h.holds pos mem).insert c
      · rw [other ne]
        exact h.holds e mem'
    · rcases (elements e).mp mem' with rfl | ⟨mem', ne⟩
      · exact ⟨c, Multiset.mem_cons_self c m, eq.symm⟩
      · obtain ⟨d, mem, eq⟩ := h.occupied e mem'
        exact ⟨d, Multiset.mem_cons_of_mem mem, eq⟩
    · rcases Multiset.mem_cons.mp mem' with rfl | mem'
      · exact ⟨_, (elements _).mpr (.inl rfl), eq⟩
      · obtain ⟨e, found, eq'⟩ := h.covers d mem'
        by_cases same : e.l1num = c.sequence.l1num
        · exact ⟨_, (elements _).mpr (.inl rfl), eq.trans (same.symm.trans eq')⟩
        · exact ⟨e, (elements e).mpr (.inr ⟨found, same⟩), eq'⟩

/-- The least node, and the least chunk in it. -/
lemma Keeps.least (h : Keeps s.tree m) {pos : TreeElement α} (min : s.tree.treeFindMin = some pos) :
    pos ∈ s.tree.toList ∧ (∀ e ∈ s.tree.toList, pos.l1num ≤ e.l1num) ∧
      ∃ d ∈ m, d.sequence.l1num = pos.l1num ∧ pos.queue.findMin = some d ∧ pos.queue.elements 1 = some d ∧
        ∀ e ∈ m, e.sequence.l1num = pos.l1num → d.sequence.l2num ≤ e.sequence.l2num := by
  rw [SearchTree.treeFindMin_eq] at min
  obtain ⟨rest, eq⟩ : ∃ rest, s.tree.toList = pos :: rest := by
    cases list : s.tree.toList with
    | nil =>
      rw [list] at min
      cases min
    | cons e rest =>
      rw [list] at min
      exact ⟨rest, by rw [Option.some.inj min]⟩
  have sorted := h.sorted
  rw [SearchTree.Sorted, eq] at sorted
  have mem : pos ∈ s.tree.toList := eq ▸ List.mem_cons_self
  obtain ⟨c, inside, same⟩ := h.occupied pos mem
  have nonempty : m.filter (·.sequence.l1num = pos.l1num) ≠ 0 := fun zero =>
    Multiset.notMem_zero c (zero ▸ Multiset.mem_filter.mpr ⟨inside, same⟩)
  obtain ⟨d, own, found, slot, low⟩ := (h.holds pos mem).findMin nonempty
  obtain ⟨own, same⟩ := Multiset.mem_filter.mp own
  refine ⟨mem, fun e mem => ?_, d, own, same, found, slot, fun e mem eq => low e (Multiset.mem_filter.mpr ⟨mem, eq⟩)⟩
  rw [eq] at mem
  rcases List.mem_cons.mp mem with rfl | mem
  · exact Nat.le_refl _
  · exact ((List.pairwise_cons.mp sorted).1 e mem).le

/-- The next chunk is in the cache, and taken out. -/
lemma Keeps.takeNext [DecidableEq α] (h : Keeps s.tree (c ::ₘ m)) (next : c.sequence = s.next)
    (above : ∀ d ∈ m, sequenceLt c.sequence d.sequence) :
    ∃ tree, s.takeNext = some (some c, { s with tree }) ∧ Keeps tree m := by
  cases min : s.tree.treeFindMin with
  | none => exact absurd (h.null_iff.mp min) (Multiset.cons_ne_zero)
  | some pos =>
    obtain ⟨mem, low, d, inside, same, found, slot, first⟩ := h.least min
    obtain ⟨e, node, covers⟩ := h.covers c (Multiset.mem_cons_self c m)
    have below := low e node
    obtain rfl : d = c := by
      rcases Multiset.mem_cons.mp inside with eq | inside
      · exact eq
      · have up := above d inside
        have down := first c (Multiset.mem_cons_self c m)
        unfold sequenceLt at up
        omega
    have own : (d ::ₘ m).filter (·.sequence.l1num = pos.l1num) = d ::ₘ m.filter (·.sequence.l1num = pos.l1num) :=
      Multiset.filter_cons_of_pos m same
    obtain ⟨queue, deleted, holds⟩ :=
      (h.holds pos mem).deleteMin slot (Multiset.mem_filter.mpr ⟨inside, same⟩)
    rw [own, Multiset.erase_cons_head] at holds
    have elements (e : TreeElement α) := SearchTree.mem_setAt h.sorted mem rfl (x := ⟨pos.l1num, queue⟩) (z := e)
    have sorted : (s.tree.setAt TreeElement.l1num pos.l1num ⟨pos.l1num, queue⟩).Sorted TreeElement.l1num :=
      h.sorted.setAt rfl
    have other {e : TreeElement α} (ne : e.l1num ≠ pos.l1num) :
        (d ::ₘ m).filter (·.sequence.l1num = e.l1num) = m.filter (·.sequence.l1num = e.l1num) :=
      Multiset.filter_cons_of_neg m fun eq => ne (eq.symm.trans same)
    have rest {e : TreeElement α} (mem : e ∈ s.tree.toList) (ne : e.l1num ≠ pos.l1num) :
        e.queue.Holds SeqChunk.l2num (m.filter (·.sequence.l1num = e.l1num)) ∧ ∃ c ∈ m, c.sequence.l1num = e.l1num := by
      refine ⟨other ne ▸ h.holds e mem, ?_⟩
      obtain ⟨c, inside, eq⟩ := h.occupied e mem
      rcases Multiset.mem_cons.mp inside with rfl | inside
      · exact absurd (eq.symm.trans same) ne
      · exact ⟨c, inside, eq⟩
    have taken : s.takeNext = some (some d, { s with
        tree := if queue.isEmpty then (s.tree.setAt TreeElement.l1num pos.l1num ⟨pos.l1num, queue⟩).treeDelete
          TreeElement.l1num pos.l1num else s.tree.setAt TreeElement.l1num pos.l1num ⟨pos.l1num, queue⟩ }) := by
      have first : pos.l1num = s.next.l1num := by rw [← next, same]
      unfold Reorder.takeNext
      rw [min]
      simp only
      rw [if_pos first, found, deleted]
      simp only
      rw [if_pos next]
    refine ⟨_, taken, ?_⟩
    split
    case isTrue empty =>
      have none := holds.isEmpty.mp empty
      have nodes (e : TreeElement α) : e ∈ ((s.tree.setAt TreeElement.l1num pos.l1num ⟨pos.l1num, queue⟩).treeDelete
          TreeElement.l1num pos.l1num).toList ↔ e ∈ s.tree.toList ∧ e.l1num ≠ pos.l1num := by
        rw [SearchTree.toList_treeDelete sorted, List.mem_filter, elements, decide_eq_true_iff]
        constructor
        · rintro ⟨rfl | found, ne⟩
          · exact absurd rfl ne
          · exact found
        · exact fun found => ⟨.inr found, found.2⟩
      refine ⟨sorted.treeDelete _, fun e mem => ?_, fun e mem => ?_, fun f inside => ?_⟩
      · obtain ⟨mem, ne⟩ := (nodes e).mp mem
        exact (rest mem ne).1
      · obtain ⟨mem, ne⟩ := (nodes e).mp mem
        exact (rest mem ne).2
      · obtain ⟨e, found, eq⟩ := h.covers f (Multiset.mem_cons_of_mem inside)
        refine ⟨e, (nodes e).mpr ⟨found, fun eq' => ?_⟩, eq⟩
        exact Multiset.notMem_zero f (none ▸ Multiset.mem_filter.mpr ⟨inside, eq.symm.trans eq'⟩)
    case isFalse nonempty =>
      have more := mt holds.isEmpty.mpr nonempty
      refine ⟨sorted, fun e mem => ?_, fun e mem => ?_, fun f inside => ?_⟩
      · rcases (elements e).mp mem with rfl | ⟨mem, ne⟩
        · exact holds
        · exact (rest mem ne).1
      · rcases (elements e).mp mem with rfl | ⟨mem, ne⟩
        · obtain ⟨f, mem⟩ := Multiset.exists_mem_of_ne_zero more
          exact ⟨f, (Multiset.mem_filter.mp mem).1, (Multiset.mem_filter.mp mem).2⟩
        · exact (rest mem ne).2
      · obtain ⟨e, found, eq⟩ := h.covers f (Multiset.mem_cons_of_mem inside)
        by_cases eq' : e.l1num = pos.l1num
        · exact ⟨_, (elements _).mpr (.inl rfl), eq'.symm.trans eq⟩
        · exact ⟨e, (elements e).mpr (.inr ⟨found, eq'⟩), eq⟩

/-- The next chunk is not in the cache. -/
lemma Keeps.takeNext_none [DecidableEq α] (h : Keeps s.tree m) (above : ∀ d ∈ m, sequenceLt s.next d.sequence) :
    s.takeNext = some (none, s) := by
  unfold Reorder.takeNext
  cases min : s.tree.treeFindMin with
  | none => rfl
  | some pos =>
    obtain ⟨mem, _, d, inside, same, found, slot, _⟩ := h.least min
    obtain ⟨queue, deleted, _⟩ := (h.holds pos mem).deleteMin slot (Multiset.mem_filter.mpr ⟨inside, same⟩)
    have ne : d.sequence ≠ s.next := fun eq => by
      have up := above d inside
      rw [eq] at up
      exact sequenceLt_irrefl _ up
    simp only
    rw [found, deleted]
    simp only
    rw [if_neg ne, ite_self]

/-- The nodes together have all chunks. -/
lemma card_le_sum (nodes : List (TreeElement α)) (m : Multiset (SeqChunk α))
    (covers : ∀ c ∈ m, ∃ e ∈ nodes, e.l1num = c.sequence.l1num) :
    m.card ≤ (nodes.map fun e => (m.filter (·.sequence.l1num = e.l1num)).card).sum := by
  induction nodes generalizing m with
  | nil =>
    have none : m = 0 := Multiset.eq_zero_of_forall_notMem fun c mem => by
      obtain ⟨e, mem, _⟩ := covers c mem
      cases mem
    rw [none]
    exact Nat.le_refl _
  | cons e nodes ih =>
    have parts := congrArg Multiset.card (Multiset.filter_add_not (·.sequence.l1num = e.l1num) m)
    rw [Multiset.card_add] at parts
    have rest := ih (m.filter fun c => ¬ c.sequence.l1num = e.l1num) fun c mem => by
      obtain ⟨inside, ne⟩ := Multiset.mem_filter.mp mem
      obtain ⟨e', mem', eq⟩ := covers c inside
      rcases List.mem_cons.mp mem' with rfl | mem'
      · exact absurd eq.symm ne
      · exact ⟨e', mem', eq⟩
    have fewer : (nodes.map fun e' => ((m.filter fun c => ¬ c.sequence.l1num = e.l1num).filter
        (·.sequence.l1num = e'.l1num)).card).sum ≤
          (nodes.map fun e' => (m.filter (·.sequence.l1num = e'.l1num)).card).sum :=
      List.sum_le_sum fun e' _ => Multiset.card_le_card (Multiset.filter_le_filter _ (Multiset.filter_le _ _))
    rw [List.map_cons, List.sum_cons]
    omega

/-- The tree counts all chunks that it keeps. -/
lemma Keeps.card_le (h : Keeps s.tree m) : m.card ≤ s.cached := by
  have sizes : s.tree.toList.map (·.queue.size) =
      s.tree.toList.map fun e => (m.filter (·.sequence.l1num = e.l1num)).card :=
    List.map_congr_left fun e mem => (h.holds e mem).card
  rw [Reorder.cached, sizes]
  exact card_le_sum _ m h.covers

/-- What the array knows: the lengths of the coarse chunks whose last chunk has arrived. -/
structure Counts (arrived : List (SeqChunk α)) (s : Reorder α) : Prop where
  last : ∀ c ∈ arrived, c.isLastL2Chunk = true → s.chunksPerAnchor c.sequence.l1num = c.sequence.l2num + 1
  only : ∀ l, s.chunksPerAnchor l ≠ 0 → ∃ c ∈ arrived, c.isLastL2Chunk = true ∧ c.sequence.l1num = l
  bound : ∀ c ∈ arrived, c.sequence.l1num < s.chunksPerAnchorMax

/-- The state after some chunks have arrived: what is written is the beginning of all chunks up to the first one
    that has not arrived, and the cache has the others. -/
structure Arrived (chunks arrived : List (SeqChunk α)) (s : Reorder α) : Prop where
  counts : Counts arrived s
  next : s.next = afterAll s.out
  out : ∃ rest, s.out ++ rest = chunks ∧ ∀ c ∈ rest.head?, c ∉ arrived
  cache : ∃ m, Keeps s.tree m ∧ m + s.out = (arrived : Multiset (SeqChunk α))

variable {rest : List (SeqChunk α)}

/-- The next chunk has the number that is waited for. -/
lemma sequence_eq_next (numbered : Numbered chunks) (all : s.out ++ c :: rest = chunks) (next : s.next = afterAll s.out) :
    c.sequence = s.next := by
  rw [next]
  exact numbered s.out c ⟨rest, by rw [← all, List.append_assoc, List.singleton_append]⟩

/-- The next chunk is written. -/
lemma Counts.write (counts : Counts arrived s) (numbered : Numbered chunks) (sub : arrived ⊆ chunks)
    (all : s.out ++ c :: rest = chunks) (mem : c ∈ arrived) (next : s.next = afterAll s.out) :
    s.write c = some { s with out := s.out ++ [c], next := afterAll (s.out ++ [c]) } := by
  have own := sequence_eq_next numbered all next
  have bound := counts.bound c mem
  unfold Reorder.write
  simp only [← own, sequenceIncL2]
  rw [if_pos bound, afterAll_append, SeqChunk.after]
  cases last : c.isLastL2Chunk with
  | true =>
    rw [counts.last c mem last, if_pos ⟨Nat.succ_ne_zero _, rfl⟩, if_pos rfl]
    rfl
  | false =>
    have other : ¬ (s.chunksPerAnchor c.sequence.l1num ≠ 0 ∧
        c.sequence.l2num + 1 = s.chunksPerAnchor c.sequence.l1num) := by
      rintro ⟨known, eq⟩
      obtain ⟨d, mem', last', same⟩ := counts.only _ known
      have ne : c ≠ d := fun e => by
        rw [e, last'] at last
        cases last
      have lt := numbered.l2num_lt (sub mem') (sub mem) last' same.symm ne
      have count := counts.last d mem' last'
      rw [same] at count
      omega
    rw [if_neg other, if_neg Bool.false_ne_true]
    rfl

/-- What waits in the cache comes later. -/
lemma mem_rest (numbered : Numbered chunks) (sub : arrived ⊆ chunks) (once : arrived.Nodup)
    (all : s.out ++ c :: rest = chunks) (accounts : c ::ₘ m + s.out = (arrived : Multiset (SeqChunk α)))
    (mem : d ∈ m) : d ∈ rest ∧ sequenceLt c.sequence d.sequence := by
  have distinct : (c ::ₘ m + s.out : Multiset (SeqChunk α)).Nodup := accounts ▸ Multiset.coe_nodup.mpr once
  have inside : d ∈ arrived := Multiset.mem_coe.mp (accounts ▸ Multiset.mem_add.mpr (.inl (Multiset.mem_cons_of_mem mem)))
  have apart := Multiset.nodup_add.mp distinct
  have notOut : d ∉ s.out := fun mem' =>
    Multiset.disjoint_left.mp apart.2.2 (Multiset.mem_cons_of_mem mem) (Multiset.mem_coe.mpr mem')
  have ne : d ≠ c := fun e => (Multiset.nodup_cons.mp apart.1).1 (e ▸ mem)
  have later : d ∈ rest := by
    have placed := sub inside
    rw [← all] at placed
    rcases List.mem_append.mp placed with first | placed
    · exact absurd first notOut
    · exact (List.mem_cons.mp placed).resolve_left ne
  have split : chunks = (s.out ++ [c]) ++ rest := by rw [← all, List.append_assoc, List.singleton_append]
  exact ⟨later, (split ▸ numbered).lt_of_append (List.mem_append_right _ List.mem_cons_self) later⟩

/-- The loop writes the chunks up to the first one that has not arrived. -/
lemma writeLoop_spec [DecidableEq α] {fuel : ℕ} (numbered : Numbered chunks) (sub : arrived ⊆ chunks)
    (once : arrived.Nodup) (counts : Counts arrived s) (all : s.out ++ c :: rest = chunks)
    (next : s.next = afterAll s.out) (cache : Keeps s.tree m)
    (accounts : c ::ₘ m + s.out = (arrived : Multiset (SeqChunk α))) (enough : m.card < fuel) :
    ∃ t, Reorder.writeLoop fuel s c = some t ∧ Arrived chunks arrived t ∧
      t.chunksPerAnchorMax = s.chunksPerAnchorMax := by
  induction fuel generalizing s c rest m with
  | zero => exact absurd enough (Nat.not_lt_zero _)
  | succ fuel ih =>
    have mem : c ∈ arrived := Multiset.mem_coe.mp (accounts ▸ Multiset.mem_add.mpr (.inl (Multiset.mem_cons_self c m)))
    obtain ⟨s₁, written, tree, out, next₁, counts₁, max⟩ : ∃ s₁, s.write c = some s₁ ∧ s₁.tree = s.tree ∧
        s₁.out = s.out ++ [c] ∧ s₁.next = afterAll s₁.out ∧ Counts arrived s₁ ∧
          s₁.chunksPerAnchorMax = s.chunksPerAnchorMax :=
      ⟨_, counts.write numbered sub all mem next, rfl, rfl, rfl, ⟨counts.last, counts.only, counts.bound⟩, rfl⟩
    have all₁ : s₁.out ++ rest = chunks := by rw [out, ← all, List.append_assoc, List.singleton_append]
    have accounts₁ : m + s₁.out = (arrived : Multiset (SeqChunk α)) := by
      have moved : ((s.out ++ [c] : List (SeqChunk α)) : Multiset (SeqChunk α)) = c ::ₘ s.out :=
        Multiset.coe_eq_coe.mpr (List.perm_append_singleton c s.out)
      rw [out, moved, Multiset.add_cons, ← Multiset.cons_add, accounts]
    rw [← tree] at cache
    by_cases hit : ∃ d rest', rest = d :: rest' ∧ d ∈ m
    · obtain ⟨d, rest', rfl, inside⟩ := hit
      obtain ⟨m', rfl⟩ := Multiset.exists_cons_of_mem inside
      obtain ⟨tree', taken, cache'⟩ := cache.takeNext (sequence_eq_next numbered all₁ next₁) fun e mem' =>
        (mem_rest numbered sub once all₁ accounts₁ mem').2
      rw [Multiset.card_cons] at enough
      obtain ⟨t, loop, arrived', max'⟩ := ih (s := { s₁ with tree := tree' }) ⟨counts₁.last, counts₁.only, counts₁.bound⟩
        all₁ next₁ cache' accounts₁ (by omega)
      refine ⟨t, ?_, arrived', max'.trans max⟩
      simp only [Reorder.writeLoop, written, taken, Option.bind_eq_bind, Option.bind_some]
      exact loop
    · have above : ∀ e ∈ m, sequenceLt s₁.next e.sequence := by
        intro e mem'
        have later := (mem_rest numbered sub once all accounts mem').1
        cases rest with
        | nil => cases later
        | cons d rest' =>
          have ne : e ≠ d := fun eq => hit ⟨d, rest', rfl, eq ▸ mem'⟩
          have behind := (List.mem_cons.mp later).resolve_left ne
          have split : chunks = (s₁.out ++ [d]) ++ rest' := by rw [← all₁, List.append_assoc, List.singleton_append]
          rw [← sequence_eq_next numbered all₁ next₁]
          exact (split ▸ numbered).lt_of_append (List.mem_append_right _ List.mem_cons_self) behind
      have stays := cache.takeNext_none above
      have ends : Reorder.writeLoop (fuel + 1) s c = some s₁ := by
        simp only [Reorder.writeLoop, written, stays, Option.bind_eq_bind, Option.bind_some]
      refine ⟨s₁, ends, ⟨counts₁, next₁, ⟨rest, all₁, fun d head inside => ?_⟩, m, cache, accounts₁⟩, max⟩
      obtain ⟨rest', rfl⟩ : ∃ rest', rest = d :: rest' := by
        cases rest with
        | nil => cases head
        | cons e rest' => exact ⟨rest', by rw [Option.some.inj head]⟩
      rcases Multiset.mem_add.mp (accounts₁.symm ▸ Multiset.mem_coe.mpr inside : d ∈ m + (s₁.out : Multiset _)) with
        cached | written
      · exact hit ⟨d, rest', rfl, cached⟩
      · have distinct := numbered.nodup
        rw [← all₁] at distinct
        exact (List.nodup_append.mp distinct).2.2 d (Multiset.mem_coe.mp written) d List.mem_cons_self rfl

/-- The array is long enough for every chunk that arrives: it is made twice as long once for each of them. -/
def Fits : ℕ → List (SeqChunk α) → Prop
  | _, [] => True
  | max, c :: cs =>
    c.sequence.l1num < 2 * max ∧ Fits (if c.sequence.l1num ≥ max then 2 * max else max) cs

/-- The array grows, and knows what it knew. -/
lemma Counts.grow (counts : Counts arrived s) (l1num : ℕ) :
    Counts arrived (s.grow l1num) ∧
      (s.grow l1num).chunksPerAnchorMax =
        if l1num ≥ s.chunksPerAnchorMax then 2 * s.chunksPerAnchorMax else s.chunksPerAnchorMax := by
  unfold Reorder.grow
  split
  case isTrue =>
    refine ⟨⟨fun c mem last => ?_, fun l known => ?_, fun c mem => ?_⟩, rfl⟩
    · simp only
      rw [if_pos (counts.bound c mem)]
      exact counts.last c mem last
    · simp only at known
      split at known
      case isTrue => exact counts.only l known
      case isFalse => exact absurd rfl known
    · have := counts.bound c mem
      simp only
      omega
  case isFalse => exact ⟨counts, rfl⟩

/-- The array learns the length of a coarse chunk. -/
lemma Counts.countAnchor (counts : Counts arrived s) (numbered : Numbered chunks) (sub : arrived ⊆ chunks)
    (mem : c ∈ chunks) (new : c ∉ arrived) (bound : c.sequence.l1num < s.chunksPerAnchorMax) :
    ∃ chunksPerAnchor, s.countAnchor c = some { s with chunksPerAnchor } ∧
      Counts (arrived ++ [c]) { s with chunksPerAnchor } := by
  have bounds : ∀ d ∈ arrived ++ [c], d.sequence.l1num < s.chunksPerAnchorMax := by
    intro d mem
    rcases List.mem_append.mp mem with mem | mem
    · exact counts.bound d mem
    · rw [List.mem_singleton.mp mem]
      exact bound
  have apart {d : SeqChunk α} (inside : d ∈ arrived) : d ≠ c := fun e => new (e ▸ inside)
  unfold Reorder.countAnchor
  simp only
  cases last : c.isLastL2Chunk with
  | false =>
    rw [if_neg Bool.false_ne_true]
    refine ⟨s.chunksPerAnchor, rfl, fun d mem' last' => ?_, fun l known => ?_, bounds⟩
    · rcases List.mem_append.mp mem' with inside | own
      · exact counts.last d inside last'
      · rw [List.mem_singleton.mp own, last] at last'
        cases last'
    · obtain ⟨d, inside, found⟩ := counts.only l known
      exact ⟨d, List.mem_append_left _ inside, found⟩
  | true =>
    have others {d : SeqChunk α} (inside : d ∈ arrived) (last' : d.isLastL2Chunk = true) :
        d.sequence.l1num ≠ c.sequence.l1num := fun same => by
      have lt := numbered.l2num_lt mem (sub inside) last same (apart inside)
      have gt := numbered.l2num_lt (sub inside) mem last' same.symm (apart inside).symm
      omega
    have unknown : s.chunksPerAnchor c.sequence.l1num = 0 := by
      by_contra known
      obtain ⟨d, inside, last', same⟩ := counts.only _ known
      exact others inside last' same
    rw [if_pos rfl, if_pos ⟨bound, unknown⟩]
    refine ⟨_, rfl, fun d mem' last' => ?_, fun l known => ?_, bounds⟩
    · rcases List.mem_append.mp mem' with inside | own
      · simp only
        rw [Function.update_of_ne (others inside last')]
        exact counts.last d inside last'
      · rw [List.mem_singleton.mp own]
        simp only
        rw [Function.update_self]
    · by_cases same : l = c.sequence.l1num
      · exact ⟨c, List.mem_append_right _ (List.mem_singleton_self c), last, same.symm⟩
      · simp only at known
        rw [Function.update_of_ne same] at known
        obtain ⟨d, inside, found⟩ := counts.only l known
        exact ⟨d, List.mem_append_left _ inside, found⟩

/-- A chunk arrives. -/
lemma Arrived.arrive [DecidableEq α] (h : Arrived chunks arrived s) (numbered : Numbered chunks)
    (sub : arrived ++ [c] ⊆ chunks) (once : (arrived ++ [c]).Nodup)
    (fits : c.sequence.l1num < 2 * s.chunksPerAnchorMax) :
    ∃ t, s.arrive c = some t ∧ Arrived chunks (arrived ++ [c]) t ∧
      t.chunksPerAnchorMax =
        if c.sequence.l1num ≥ s.chunksPerAnchorMax then 2 * s.chunksPerAnchorMax else s.chunksPerAnchorMax := by
  obtain ⟨counts, next, ⟨rest, all, head⟩, m, cache, accounts⟩ := h
  have mem : c ∈ chunks := sub (List.mem_append_right _ (List.mem_singleton_self c))
  have new : c ∉ arrived := fun inside =>
    (List.nodup_append.mp once).2.2 c inside c (List.mem_singleton_self c) rfl
  have old : arrived ⊆ chunks := fun d inside => sub (List.mem_append_left _ inside)
  obtain ⟨grown, max⟩ := counts.grow c.sequence.l1num
  have bound : c.sequence.l1num < (s.grow c.sequence.l1num).chunksPerAnchorMax := by
    rw [max]
    split <;> omega
  obtain ⟨chunksPerAnchor, counted, counts'⟩ := grown.countAnchor numbered old mem new bound
  have same : ∀ l, (s.grow l).tree = s.tree ∧ (s.grow l).next = s.next ∧ (s.grow l).out = s.out := by
    intro l
    unfold Reorder.grow
    split <;> exact ⟨rfl, rfl, rfl⟩
  obtain ⟨sameTree, sameNext, sameOut⟩ := same c.sequence.l1num
  obtain ⟨s₁, counted₁, tree₁, next₁, out₁, counts₁, max₁⟩ : ∃ s₁, (s.grow c.sequence.l1num).countAnchor c = some s₁ ∧
      s₁.tree = s.tree ∧ s₁.next = s.next ∧ s₁.out = s.out ∧ Counts (arrived ++ [c]) s₁ ∧
        s₁.chunksPerAnchorMax = (s.grow c.sequence.l1num).chunksPerAnchorMax :=
    ⟨_, counted, sameTree, sameNext, sameOut, counts', rfl⟩
  have unfolded : s.arrive c =
      if c.sequence ≠ s₁.next then some (s₁.put c) else Reorder.writeLoop (s₁.cached + 1) s₁ c := by
    simp only [Reorder.arrive, counted₁, Option.bind_eq_bind, Option.bind_some]
  have total : ((arrived ++ [c] : List (SeqChunk α)) : Multiset (SeqChunk α)) = c ::ₘ arrived :=
    Multiset.coe_eq_coe.mpr (List.perm_append_singleton c arrived)
  have all₁ : s₁.out ++ rest = chunks := by rw [out₁, all]
  have next₁ : s₁.next = afterAll s₁.out := by rw [next₁, out₁, next]
  have cache₁ : Keeps s₁.tree m := tree₁ ▸ cache
  have accounts₁ : c ::ₘ m + s₁.out = ((arrived ++ [c] : List (SeqChunk α)) : Multiset (SeqChunk α)) := by
    rw [total, ← accounts, out₁, Multiset.cons_add]
  rw [unfolded]
  by_cases due : c.sequence = s₁.next
  · rw [if_neg (not_not.mpr due)]
    obtain ⟨rest', rfl⟩ : ∃ rest', rest = c :: rest' := by
      have placed := mem
      rw [← all₁] at placed
      rcases List.mem_append.mp placed with written | later
      · have inside : c ∈ (arrived : Multiset (SeqChunk α)) := by
          rw [← accounts, ← out₁]
          exact Multiset.mem_add.mpr (.inr (Multiset.mem_coe.mpr written))
        exact absurd (Multiset.mem_coe.mp inside) new
      · cases rest with
        | nil => cases later
        | cons d rest' =>
          have first := sequence_eq_next numbered all₁ next₁
          have eq : d = c := numbered.injective
            (all₁ ▸ List.mem_append_right _ List.mem_cons_self) mem (first.trans due.symm)
          exact ⟨rest', by rw [eq]⟩
    obtain ⟨t, loop, arrived', max'⟩ := writeLoop_spec numbered sub once counts₁ all₁ next₁ cache₁ accounts₁
      (Nat.lt_succ_of_le cache₁.card_le)
    exact ⟨t, loop, arrived', max'.trans (max₁.trans max)⟩
  · rw [if_pos due]
    have kept : (s₁.put c).next = s₁.next ∧ (s₁.put c).out = s₁.out ∧
        (s₁.put c).chunksPerAnchorMax = s₁.chunksPerAnchorMax ∧ (s₁.put c).chunksPerAnchor = s₁.chunksPerAnchor := by
      unfold Reorder.put
      simp only
      split <;> exact ⟨rfl, rfl, rfl, rfl⟩
    obtain ⟨sameNext, sameOut, sameMax, sameCounts⟩ := kept
    refine ⟨s₁.put c, rfl, ⟨⟨?_, ?_, ?_⟩, ?_, ⟨rest, by rw [sameOut, all₁], fun d first inside => ?_⟩, c ::ₘ m,
      cache₁.put c, by rw [sameOut, accounts₁]⟩, by rw [sameMax, max₁, max]⟩
    · rw [sameCounts]
      exact counts₁.last
    · rw [sameCounts]
      exact counts₁.only
    · rw [sameMax]
      exact counts₁.bound
    · rw [sameNext, sameOut, next₁]
    · rcases List.mem_append.mp inside with before | own
      · exact head d first before
      · cases rest with
        | nil => cases first
        | cons e rest' =>
          obtain rfl := Option.some.inj first
          rw [List.mem_singleton.mp own] at all₁
          exact due (sequence_eq_next numbered all₁ next₁)

/-- At the start nothing has arrived. -/
lemma arrived_start (chunks : List (SeqChunk α)) : Arrived chunks [] Reorder.start where
  counts := ⟨fun _ => nofun, fun _ known => absurd rfl known, fun _ => nofun⟩
  next := rfl
  out := ⟨chunks, rfl, fun _ _ => List.not_mem_nil⟩
  cache := ⟨0, keeps_null, rfl⟩

/-- What has been written is the longest beginning that has arrived. -/
lemma Arrived.takeWhile [DecidableEq α] (h : Arrived chunks arrived s) : s.out = chunks.takeWhile (· ∈ arrived) := by
  obtain ⟨_, _, ⟨rest, all, head⟩, m, _, accounts⟩ := h
  have written : ∀ c ∈ s.out, decide (c ∈ arrived) = true := fun c mem =>
    decide_eq_true (Multiset.mem_coe.mp (accounts ▸ Multiset.mem_add.mpr (.inr (Multiset.mem_coe.mpr mem))))
  rw [← all, List.takeWhile_append_of_pos written]
  cases rest with
  | nil => rw [List.takeWhile_nil, List.append_nil]
  | cons c rest =>
    have missing : ¬ decide (c ∈ arrived) = true := fun inside => head c rfl (of_decide_eq_true inside)
    rw [List.takeWhile_cons_of_neg (p := fun a => decide (a ∈ arrived)) missing, List.append_nil]

/-- With a weaker condition, more is taken. -/
lemma takeWhile_prefix_takeWhile {p q : α → Bool} (weaker : ∀ a, p a = true → q a = true) (l : List α) :
    l.takeWhile p <+: l.takeWhile q := by
  induction l with
  | nil => exact List.prefix_rfl
  | cons a l ih =>
    cases holds : p a with
    | false =>
      rw [List.takeWhile_cons, holds]
      exact List.nil_prefix
    | true =>
      rw [List.takeWhile_cons_of_pos holds, List.takeWhile_cons_of_pos (weaker a holds)]
      exact (List.prefix_cons_inj a).mpr ih

/-- What has been written stays written. -/
lemma Arrived.prefix [DecidableEq α] {arrivals : List (SeqChunk α)} (h : Arrived chunks arrived s)
    (h' : Arrived chunks (arrived ++ arrivals) t) : s.out <+: t.out := by
  rw [h.takeWhile, h'.takeWhile]
  exact takeWhile_prefix_takeWhile
    (fun c inside => decide_eq_true (List.mem_append_left arrivals (of_decide_eq_true inside))) chunks

/-- The chunks arrive one after the other. -/
lemma arrived_run [DecidableEq α] (numbered : Numbered chunks) {arrivals : List (SeqChunk α)}
    (h : Arrived chunks arrived s) (sub : arrived ++ arrivals ⊆ chunks) (once : (arrived ++ arrivals).Nodup)
    (fits : Fits s.chunksPerAnchorMax arrivals) :
    ∃ t, run Reorder.arrive s arrivals = some t ∧ Arrived chunks (arrived ++ arrivals) t := by
  induction arrivals generalizing s arrived with
  | nil => exact ⟨s, rfl, by rwa [List.append_nil]⟩
  | cons c arrivals ih =>
    have split : arrived ++ c :: arrivals = (arrived ++ [c]) ++ arrivals := by
      rw [List.append_assoc, List.singleton_append]
    rw [split] at sub once ⊢
    obtain ⟨small, fits⟩ := fits
    have sub' : arrived ++ [c] ⊆ chunks := fun d mem => sub (List.mem_append_left _ mem)
    obtain ⟨t, step, arrived', max⟩ := h.arrive numbered sub' (List.nodup_append.mp once).1 small
    obtain ⟨u, rest, arrived''⟩ := ih arrived' sub once (max ▸ fits)
    exact ⟨u, by rw [run_cons, step, Option.bind_some, rest], arrived''⟩

/-- When all chunks have arrived, all are written, and there is nothing left to flush. -/
lemma Arrived.complete [DecidableEq α] (h : Arrived chunks arrived s) (once : arrived.Nodup) (sub : arrived ⊆ chunks)
    (all : chunks ⊆ arrived) : s.flush 1 = some s ∧ s.out = chunks := by
  have out : s.out = chunks := by
    rw [h.takeWhile]
    exact List.takeWhile_eq_self_iff.mpr fun c mem => decide_eq_true (all mem)
  refine ⟨?_, out⟩
  obtain ⟨_, _, _, m, cache, accounts⟩ := h
  have none : m = 0 := by
    have lengths := congrArg Multiset.card accounts
    rw [Multiset.card_add, Multiset.coe_card, Multiset.coe_card, out] at lengths
    have le := (List.subperm_of_subset once sub).length_le
    exact Multiset.card_eq_zero.mp (by omega)
  rw [Reorder.flush, cache.null_iff.mpr none]

/-- In whatever order the chunks arrive, the stage neither exits nor leaves its array, and what it has written is
    the longest beginning of all chunks that has arrived; when all have, there is nothing left to flush. -/
theorem reorder_run [DecidableEq α] (numbered : Numbered chunks) {arrivals : List (SeqChunk α)}
    (sub : arrivals ⊆ chunks) (once : arrivals.Nodup) (fits : Fits 1024 arrivals) :
    ∃ s, run Reorder.arrive .start arrivals = some s ∧ s.out = chunks.takeWhile (· ∈ arrivals) ∧
      (chunks ⊆ arrivals → s.flush 1 = some s ∧ s.out = chunks) := by
  obtain ⟨s, reached, arrived⟩ := arrived_run numbered (arrived_start chunks) sub once fits
  rw [List.nil_append] at arrived
  exact ⟨s, reached, arrived.takeWhile, arrived.complete once sub⟩

/-- Two coarse chunks of two and one chunks, which arrive backwards. -/
theorem reorder_run_backwards :
    let chunks : List (SeqChunk Char) := [⟨⟨0, 0⟩, false, 'a'⟩, ⟨⟨0, 1⟩, true, 'b'⟩, ⟨⟨1, 0⟩, true, 'c'⟩]
    ∃ s, run Reorder.arrive .start chunks.reverse = some s ∧ s.out = chunks := by
  intro chunks
  have numbered : Numbered chunks := by
    rintro before c ⟨rest, eq⟩
    rcases before with _ | ⟨a, _ | ⟨b, _ | ⟨d, _ | ⟨e, before⟩⟩⟩⟩ <;> simp [chunks] at eq
    · obtain ⟨rfl, _⟩ := eq
      rfl
    · obtain ⟨rfl, rfl, _⟩ := eq
      rfl
    · obtain ⟨rfl, rfl, rfl, _⟩ := eq
      rfl
  have sub : chunks.reverse ⊆ chunks := fun c mem => List.mem_reverse.mp mem
  have fits : Fits 1024 chunks.reverse := ⟨by decide, by decide, by decide, trivial⟩
  obtain ⟨s, reached, _, complete⟩ := reorder_run numbered sub (by decide) fits
  exact ⟨s, reached, (complete fun c mem => List.mem_reverse.mpr mem).2⟩

end PromotionCache.Dedup
