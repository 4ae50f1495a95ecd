import PromotionCache.Tlb.SetSpec

/-!
# Sets without duplicate tags

`CacheSet.insert` does not look whether its tag is resident. As long as it is called for tags that
are not, every line of the list is the one the hash map returns for its tag (`CacheSet.Exact`), so
that no tag occurs twice. All operations keep this; for `insert` that is `Exact.insert`.

`Bound s t` says that a lookup of `t` hits. It follows the calls exactly, also in sets with
duplicate tags: an insertion binds its tag and unbinds that of the line it evicts, an eviction
unbinds its tag, and nothing else has an effect on it.
-/

namespace PromotionCache.Tlb
open Lib

namespace CacheSet

/-- A lookup of tag `t` finds a line. -/
def Bound (s : CacheSet) (t : Nat) : Prop := ∃ c, s.addrMap.find t = some (some c)

instance (s : CacheSet) (t : Nat) : Decidable (s.Bound t) :=
  decidable_of_iff ((s.addrMap.get t none).isSome = true) <| by
    unfold Bound UnorderedMap.get
    rcases s.addrMap.find t with _ | _ | _ <;> simp

/-- The lines in recency order. -/
def contents (s : CacheSet) : List CacheLine := (s.recency.getD []).map s.line

/-- The tags in recency order. -/
def tags (s : CacheSet) : List Nat := s.contents.map CacheLine.addr

/-- Every line of the list is the one the map returns for its tag. -/
structure Exact (s : CacheSet) (ps : List Ptr) : Prop extends s.Wf ps where
  complete : ∀ {c}, c ∈ ps → s.addrMap.find (s.line c).addr = some (some c)

section
variable {s : CacheSet} {ps : List Ptr}

/-- The lines of a set, in the order of its list. -/
lemma Wf.contents_eq (wf : s.Wf ps) : s.contents = ps.map s.line := by
  simp [contents, wf.recency]

/-- Its tags, in the same order. -/
lemma Wf.tags_eq (wf : s.Wf ps) : s.tags = ps.map fun c => (s.line c).addr := by
  simp [tags, wf.contents_eq]

/-- Different slots have different tags. -/
lemma Exact.addr_inj {c d} (ex : s.Exact ps) (hc : c ∈ ps) (hd : d ∈ ps)
    (e : (s.line c).addr = (s.line d).addr) : c = d := by
  have h := ex.complete hc
  rw [e, ex.complete hd] at h
  exact (Option.some.inj (Option.some.inj h)).symm

/-- No tag occurs twice. -/
lemma Exact.tags_nodup (ex : s.Exact ps) : s.tags.Nodup := by
  rw [ex.tags_eq]
  apply List.Nodup.map_on _ ex.toWf.nodup_list
  intro c hc d hd e
  exact ex.addr_inj hc hd e

/-- A tag is found if and only if a line has it. -/
lemma Exact.bound_iff {t} (ex : s.Exact ps) : s.Bound t ↔ t ∈ s.tags := by
  rw [ex.tags_eq]
  constructor
  · rintro ⟨c, h⟩
    obtain ⟨mem, addr⟩ := ex.bound h
    exact List.mem_map.mpr ⟨c, mem, addr⟩
  · intro h
    obtain ⟨c, mem, rfl⟩ := List.mem_map.mp h
    exact ⟨c, ex.complete mem⟩

/-- When a tag is not found. -/
lemma not_bound {t} : ¬ s.Bound t ↔ ∀ c, s.addrMap.find t ≠ some (some c) := by
  simp [Bound]

/-- `access` answers whether the tag is resident and changes no residency. -/
lemma Wf.access_bound (wf : s.Wf ps) (pol : s.policy = 0 ∨ s.policy = 2) (t o : Nat) (ld : Bool) :
    ∃ s', s.access t o ld = some (decide (s.Bound t), s') ∧
      s'.associativity = s.associativity ∧ s'.policy = s.policy ∧
      (∀ u, s'.Bound u ↔ s.Bound u) ∧
      ∃ qs, s'.Wf qs ∧ s'.tags.Perm s.tags ∧ (s.Exact ps → s'.Exact qs) := by
  by_cases b : s.Bound t
  · obtain ⟨c, h⟩ := b
    obtain ⟨l, hacc, wf'⟩ := wf.access_hit pol h o ld
    have mem := (wf.bound h).1
    have perm : (place s.policy s.line c (ps.erase c)).Perm ps :=
      (place_perm _ _ _ _).trans (List.perm_cons_erase mem).symm
    have b : s.Bound t := ⟨c, h⟩
    refine ⟨s.hit ps c o ld l, by simp [hacc, b], rfl, rfl, fun u => Iff.rfl, _, wf', ?_, ?_⟩
    · rw [wf'.tags_eq, wf.tags_eq]
      simpa [hit] using perm.map fun c => (s.line c).addr
    · intro ex
      refine ⟨wf', ?_⟩
      intro d hd
      have h' := ex.complete (perm.mem_iff.mp hd)
      simpa [hit] using h'
  · have hacc := access_miss (not_bound.mp b) o ld
    refine ⟨s.missed t, by simp [hacc, b], rfl, rfl, ?_, ps, wf.missed t, ?_, ?_⟩
    · intro u
      exact exists_congr fun c => missed_find t u c
    · rw [(wf.missed t).tags_eq, wf.tags_eq]
      rfl
    · intro ex
      refine ⟨wf.missed t, ?_⟩
      intro d hd
      exact (missed_find _ _ _).mpr (ex.complete hd)

/-- The line that the next `insert` evicts. -/
def victim (s : CacheSet) : Option CacheLine :=
  if s.freeEntries = [] then s.contents.getLast? else none

/-- What the next `insert` leaves in its out-parameters. -/
def report (s : CacheSet) (out : Evicted) : Evicted :=
  match s.victim with
  | none => out
  | some v => ⟨v.dirty, int64 v.addr, v.offset⟩

/-- The tags that survive the next `insert`. -/
def kept (s : CacheSet) : List Nat :=
  if s.freeEntries = [] then s.tags.dropLast else s.tags

/-- A full list has a last line. -/
lemma Wf.exists_last (wf : s.Wf ps) (h : s.freeEntries = []) (pos : 1 ≤ s.associativity) :
    ∃ qs v, ps = qs ++ [v] := by
  have len := wf.length
  have ne : ps ≠ [] := by
    rintro rfl
    simp [h] at len
    omega
  obtain ⟨qs, v, e⟩ := (List.eq_nil_or_concat' ps).resolve_left ne
  exact ⟨qs, v, e⟩

/-- With a free slot there is no victim. -/
lemma Wf.victim_free {c free} (h : s.freeEntries = c :: free) : s.victim = none := by
  simp [victim, h]

/-- Without one, the last line is the victim. -/
lemma Wf.victim_full {qs v} (wf : s.Wf (qs ++ [v])) (h : s.freeEntries = []) :
    s.victim = some (s.line v) := by
  simp [victim, h, wf.contents_eq]

/-- Old lines keep their contents when `c` is filled. -/
lemma stored_line {c d : Ptr} {t o : Nat} {ld : Bool} {l : Links Ptr} (ne : d ≠ c) :
    (s.stored c t o ld l).line d = s.line d := by
  simp [stored, filled, Function.update_of_ne ne]

/-- A line that is stored has its tag. -/
lemma stored_addr {c : Ptr} {t o : Nat} {ld : Bool} {l : Links Ptr} :
    ((s.stored c t o ld l).line c).addr = t := by
  simp [stored, filled]

/-- A tag that is stored is found, and what was found before. -/
lemma stored_bound {c : Ptr} {t o : Nat} {ld : Bool} {l : Links Ptr} (u : Nat) :
    (s.stored c t o ld l).Bound u ↔ u = t ∨ s.Bound u := by
  unfold Bound stored
  by_cases e : u = t <;> simp [e]

/-- The held line is not in the list. -/
lemma Held.ne_of_mem {c d : Ptr} (held : s.Held c ps) (hd : d ∈ ps) : d ≠ c := by
  have nd := held.slots.nodup_iff.mpr (slots_nodup _)
  rintro rfl
  exact (List.nodup_cons.mp nd).1 (List.mem_append_left _ hd)

/-- The tags once the held line `c` is filled. -/
lemma Held.tags_stored {c : Ptr} {t o : Nat} {ld : Bool} {l : Links Ptr} (held : s.Held c ps)
    (wf : (s.stored c t o ld l).Wf (place s.policy (s.filled c t o ld) c ps)) :
    (s.stored c t o ld l).tags.Perm (t :: ps.map fun d => (s.line d).addr) := by
  rw [wf.tags_eq]
  apply ((place_perm _ _ c ps).map _).trans
  rw [List.map_cons, stored_addr]
  apply List.Perm.of_eq
  congr 1
  apply List.map_congr_left
  intro d hd
  rw [stored_line (held.ne_of_mem hd)]

/-- The bindings of the old lines survive the binding of a tag that none of them has. -/
lemma Held.exact_stored {c : Ptr} {t o : Nat} {ld : Bool} {l : Links Ptr} (held : s.Held c ps)
    (wf : (s.stored c t o ld l).Wf (place s.policy (s.filled c t o ld) c ps))
    (complete : ∀ {d}, d ∈ ps → s.addrMap.find (s.line d).addr = some (some d))
    (absent : ∀ d ∈ ps, (s.line d).addr ≠ t) :
    (s.stored c t o ld l).Exact (place s.policy (s.filled c t o ld) c ps) := by
  refine ⟨wf, ?_⟩
  intro d hd
  rcases List.mem_cons.mp ((place_perm _ _ c ps).mem_iff.mp hd) with rfl | mem
  · simp [stored, filled]
  · rw [stored_line (held.ne_of_mem mem)]
    simp [stored, absent d mem, complete mem]

/-- What the map binds once the evicted line `v` is unbound. -/
lemma unseated_find {t u : Nat} {v c : Ptr} {m : Links Ptr} :
    (s.unseated t v m).addrMap.find u = some (some c) ↔
      s.addrMap.find u = some (some c) ∧ u ≠ (s.line v).addr := by
  unfold unseated
  rw [UnorderedMap.find_erase]
  split
  case isTrue e => simp [e]
  case isFalse ne => simp [missed_find, ne]

/-- A full set stays free of duplicates when a tag that is not resident replaces its last line. -/
lemma Held.exact_unseated {v : Ptr} {t o : Nat} {ld : Bool} {m l : Links Ptr}
    (held : (s.unseated t v m).Held v ps) (ex : s.Exact (ps ++ [v])) (nb : ¬ s.Bound t)
    (wf : ((s.unseated t v m).stored v t o ld l).Wf (place s.policy (s.filled v t o ld) v ps)) :
    ((s.unseated t v m).stored v t o ld l).Exact (place s.policy (s.filled v t o ld) v ps) := by
  refine held.exact_stored wf ?_ ?_
  · intro d hd
    have mem : d ∈ ps ++ [v] := List.mem_append_left _ hd
    refine unseated_find.mpr ⟨ex.complete mem, ?_⟩
    intro e
    exact held.ne_of_mem hd (ex.addr_inj mem (by simp) e)
  · intro d hd e
    exact nb ⟨d, e ▸ ex.complete (List.mem_append_left _ hd)⟩

/-- A set stays free of duplicates when a line is evicted. -/
lemma Exact.evicted {t : Nat} {c : Ptr} {l : Links Ptr} (ex : s.Exact ps)
    (h : s.addrMap.find t = some (some c)) (wf : (s.evicted c t l).Wf (ps.erase c)) :
    (s.evicted c t l).Exact (ps.erase c) := by
  obtain ⟨mem, addr⟩ := ex.bound h
  refine ⟨wf, ?_⟩
  intro d hd
  have dmem := List.mem_of_mem_erase hd
  have ne : (s.line d).addr ≠ t := by
    intro e
    cases ex.addr_inj dmem mem (e.trans addr.symm)
    exact ex.toWf.nodup_list.not_mem_erase hd
  change (s.addrMap.erase t).find (s.line d).addr = _
  rw [UnorderedMap.find_erase, if_neg ne]
  exact ex.complete dmem

/-- `insert` makes its tag resident, and the evicted one not; a set stays free of duplicates when
    the tag was not resident. -/
lemma Wf.insert_bound (wf : s.Wf ps) (pol : s.policy = 0 ∨ s.policy = 2)
    (pos : 1 ≤ s.associativity) (t o : Nat) (ld : Bool) (out : Evicted) :
    ∃ s', s.insert t o ld out = some (s', s.report out) ∧
      s'.associativity = s.associativity ∧ s'.policy = s.policy ∧
      (∀ u, s'.Bound u ↔ u = t ∨ (s.Bound u ∧ ∀ v, s.victim = some v → u ≠ v.addr)) ∧
      ∃ qs, s'.Wf qs ∧ s'.tags.Perm (t :: s.kept) ∧
        (s.Exact ps → ¬ s.Bound t → s'.Exact qs) := by
  cases hfree : s.freeEntries with
  | cons c free =>
    have hv : s.victim = none := Wf.victim_free hfree
    obtain ⟨held, l, hins, wf'⟩ := wf.insert_free pol hfree t o ld out
    refine ⟨(s.popped t free).stored c t o ld l, ?_, rfl, rfl, ?_, _, wf', ?_, ?_⟩
    · rw [hins]
      simp [report, hv]
    · intro u
      rw [stored_bound, hv]
      simp only [reduceCtorEq, false_implies, implies_true, and_true]
      exact or_congr_right (exists_congr fun c => missed_find t u c)
    · have ht := held.tags_stored wf'
      simpa [kept, hfree, wf.tags_eq] using ht
    · intro ex nb
      refine held.exact_stored wf' (fun hd => (missed_find _ _ _).mpr (ex.complete hd)) ?_
      intro d hd e
      exact nb ⟨d, e ▸ ex.complete hd⟩
  | nil =>
    obtain ⟨qs, v, rfl⟩ := wf.exists_last hfree pos
    have hv := wf.victim_full hfree
    obtain ⟨m, held, l, hins, wf'⟩ := wf.insert_full pol hfree t o ld out
    refine ⟨(s.unseated t v m).stored v t o ld l, ?_, rfl, rfl, ?_, _, wf', ?_, ?_⟩
    · rw [hins]
      simp [report, hv]
    · intro u
      rw [stored_bound, hv]
      apply or_congr_right
      constructor
      · rintro ⟨c, hc⟩
        obtain ⟨h, ne⟩ := unseated_find.mp hc
        exact ⟨⟨c, h⟩, by rintro _ ⟨⟩; exact ne⟩
      · rintro ⟨⟨c, hc⟩, ne⟩
        exact ⟨c, unseated_find.mpr ⟨hc, ne _ rfl⟩⟩
    · have ht := held.tags_stored wf'
      simpa [kept, hfree, wf.tags_eq] using ht
    · intro ex nb
      exact held.exact_unseated ex nb wf'

/-- `evict` of a resident tag frees its line. -/
lemma Wf.evict_spec {t} (wf : s.Wf ps) (b : s.Bound t) :
    ∃ s' d, s.evict t = some (s', d) ∧
      s'.associativity = s.associativity ∧ s'.policy = s.policy ∧
      (∀ u, s'.Bound u ↔ u ≠ t ∧ s.Bound u) ∧
      ∃ qs, s'.Wf qs ∧ s.tags.Perm (t :: s'.tags) ∧ (s.Exact ps → s'.Exact qs) := by
  obtain ⟨c, h⟩ := b
  obtain ⟨mem, addr⟩ := wf.bound h
  obtain ⟨l, hev, wf'⟩ := wf.evict_bound h
  refine ⟨s.evicted c t l, _, hev, rfl, rfl, ?_, _, wf', ?_, ?_⟩
  · intro u
    unfold Bound evicted
    by_cases e : u = t <;> simp [e]
  · rw [wf.tags_eq, wf'.tags_eq]
    have perm := (List.perm_cons_erase mem).map fun c => (s.line c).addr
    simpa [addr, evicted] using perm
  · intro ex
    exact ex.evicted h wf'

end
end CacheSet
end PromotionCache.Tlb
