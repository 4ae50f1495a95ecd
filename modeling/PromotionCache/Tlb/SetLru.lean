import PromotionCache.Lib.Lru
import PromotionCache.Tlb.SetRun

/-!
# Policy 0 is a bounded LRU cache

The abstract cache `Lib.Lru` maps a tag to the offset and the dirty flag last stored for it. A set
with policy 0 refines it: read through `view`, the recency list is the list of entries, and every
call gets the reply the abstract cache gives.
-/

namespace PromotionCache.Tlb
open Lib

/-- The abstract cache of a set with `n` lines, with the out-parameters of its caller. -/
structure LruState (n : Nat) where
  cache : Lru Nat (Nat × Bool) n
  out : Evicted

/-- What an insertion reports: the entry it evicts, if it evicts one. -/
def LruState.report {n : Nat} (a : LruState n) : Evicted :=
  match a.cache.victim with
  | none => a.out
  | some e => ⟨e.val.2, int64 e.key, e.val.1⟩

/-- The effect of a call on the abstract cache, and its reply. -/
def LruState.step {n : Nat} (pos : 0 < n) (a : LruState n) : Call → LruState n × Reply
  | .access t o ld =>
    let r := a.cache.access t fun v => (o, if ld then v.2 else true)
    (⟨r.2, a.out⟩, .hit r.1)
  | .insert t o ld => (⟨a.cache.insert t (o, !ld) pos, a.report⟩, .inserted a.report)
  | .evict t => (⟨a.cache.evict t, a.out⟩, .evicted (((a.cache.find t).map fun e => e.val.2).getD false))
  | .flush => (⟨.empty, a.out⟩, .flushed)

/-- The abstract cache after a list of calls, and its replies. -/
def LruState.run {n : Nat} (pos : 0 < n) (a : LruState n) : List Call → LruState n × List Reply
  | [] => (a, [])
  | call :: calls =>
    let (a', r) := a.step pos call
    let (a'', rs) := a'.run pos calls
    (a'', r :: rs)

/-- What a line means: a tag with the offset and the dirty flag stored for it. -/
def CacheSet.view (s : CacheSet) (c : Ptr) : Nat × Nat × Bool :=
  ((s.line c).addr, (s.line c).offset, (s.line c).dirty)

/-- Filling the held line leaves the meaning of the others. -/
lemma CacheSet.stored_view {s : CacheSet} {ps : List Ptr} {c : Ptr} (held : s.Held c ps)
    (t o : Nat) (ld : Bool) (l : Links Ptr) :
    (c :: ps).map (s.stored c t o ld l).view = (t, o, !ld) :: ps.map s.view := by
  rw [List.map_cons]
  congr 1
  · simp [CacheSet.view, CacheSet.stored, CacheSet.filled]
  · apply List.map_congr_left
    intro d hd
    simp [CacheSet.view, CacheSet.stored_line (held.ne_of_mem hd)]

/-- Set and abstract cache hold the same entries in the same order. -/
structure Refines {n : Nat} (m : SetState) (a : LruState n) (ps : List Ptr) : Prop
    extends Sound n 0 m.set ps where
  entries : ps.map m.set.view = a.cache.entries.map fun e => (e.key, e.val)
  out : m.out = a.out

section
variable {n : Nat} {m : SetState} {a : LruState n} {ps : List Ptr}

/-- The tags are the keys of the abstract cache, in the same order. -/
lemma Refines.keys (ref : Refines m a ps) :
    ps.map (fun c => (m.set.line c).addr) = a.cache.entries.map LruEntry.key := by
  have h := congrArg (List.map Prod.fst) ref.entries
  simpa [CacheSet.view, Function.comp_def] using h

/-- A resident tag has an entry, and it is the line the map returns. -/
lemma Refines.find_bound {t c} (ref : Refines m a ps) (h : m.set.addrMap.find t = some (some c)) :
    ∃ e, a.cache.find t = some e ∧ e.val = ((m.set.line c).offset, (m.set.line c).dirty) := by
  obtain ⟨mem, addr⟩ := ref.bound h
  have hv : m.set.view c ∈ a.cache.entries.map fun e => (e.key, e.val) := by
    rw [← ref.entries]
    exact List.mem_map_of_mem mem
  obtain ⟨e, emem, he⟩ := List.mem_map.mp hv
  have key : e.key = t := by
    have := congrArg Prod.fst he
    simpa [CacheSet.view, addr] using this
  have val : e.val = ((m.set.line c).offset, (m.set.line c).dirty) := congrArg Prod.snd he
  cases hf : a.cache.find t with
  | none =>
    have := List.find?_eq_none.mp hf e emem
    simp [key] at this
  | some e' =>
    have e'mem := List.mem_of_find?_eq_some hf
    have e'key : e'.key = t := by simpa using List.find?_some hf
    cases List.inj_on_of_nodup_map a.cache.keys emem e'mem (key.trans e'key.symm)
    exact ⟨e, rfl, val⟩

/-- A tag that is not resident has no entry. -/
lemma Refines.absent {t} (ref : Refines m a ps) (nb : ¬ m.set.Bound t) :
    t ∉ a.cache.entries.map LruEntry.key := by
  rw [← ref.keys, ← ref.tags_eq]
  intro h
  exact nb (ref.bound_iff.mpr h)

/-- A tag that is not bound is no key. -/
lemma Refines.find_absent {t} (ref : Refines m a ps) (nb : ¬ m.set.Bound t) :
    a.cache.find t = none := by
  apply List.find?_eq_none.mpr
  intro e he hk
  apply ref.absent nb
  exact List.mem_map.mpr ⟨e, he, by simpa using hk⟩

/-- Without the line of tag `t`, the list holds the other entries. -/
lemma Refines.others {t c} (ref : Refines m a ps) (h : m.set.addrMap.find t = some (some c)) :
    (ps.erase c).map m.set.view = (a.cache.others t).map fun e => (e.key, e.val) := by
  obtain ⟨mem, addr⟩ := ref.bound h
  have e1 : ps.erase c = ps.filter fun d => (m.set.view d).1 ≠ t := by
    rw [ref.toWf.nodup_list.erase_eq_filter]
    apply List.filter_congr
    intro d hd
    have iff : d = c ↔ (m.set.view d).1 = t := by
      constructor
      · rintro rfl
        exact addr
      · intro e
        exact ref.addr_inj hd mem (e.trans addr.symm)
    rw [Bool.eq_iff_iff]
    simp [iff]
  have e2 := congrArg (List.filter fun v : Nat × Nat × Bool => v.1 ≠ t) ref.entries
  rw [List.filter_map, List.filter_map] at e2
  rw [e1]
  exact e2

/-- The policy is one of the two. -/
private lemma Refines.pol2 (ref : Refines m a ps) : m.set.policy = 0 ∨ m.set.policy = 2 :=
  .inl ref.pol

/-- A hit moves the entry to the front in both caches. -/
lemma Refines.access (ref : Refines m a ps) (pos : 0 < n) (t o : Nat) (ld : Bool) :
    ∃ m' qs, m.step (.access t o ld) = some (m', (a.step pos (.access t o ld)).2) ∧
      Refines m' (a.step pos (.access t o ld)).1 qs := by
  by_cases b : m.set.Bound t
  · obtain ⟨c, h⟩ := b
    obtain ⟨mem, addr⟩ := ref.bound h
    obtain ⟨l, hacc, wf'⟩ := ref.toWf.access_hit ref.pol2 h o ld
    obtain ⟨e, hfind, hval⟩ := ref.find_bound h
    obtain ⟨hit, entries⟩ := Lru.access_found (f := fun v => (o, if ld then v.2 else true)) hfind
    have eplace : CacheSet.place m.set.policy m.set.line c (ps.erase c) = c :: ps.erase c := by
      simp [CacheSet.place, ref.pol]
    rw [eplace] at wf'
    have perm : (c :: ps.erase c).Perm ps := (List.perm_cons_erase mem).symm
    refine ⟨⟨m.set.hit ps c o ld l, m.out⟩, c :: ps.erase c, ?_, ?_⟩
    · rw [SetState.step_access hacc]
      simp only [LruState.step, hit]
    · refine ⟨⟨⟨wf', ?_⟩, ref.assoc, ref.pol⟩, ?_, ref.out⟩
      · intro d hd
        have hc := ref.complete (perm.mem_iff.mp hd)
        simpa [CacheSet.hit] using hc
      · change _ = (a.cache.access t _).2.entries.map _
        rw [entries, List.map_cons, List.map_cons, ← ref.others h]
        have stored := CacheSet.hitLine_stored (s := m.set) ps c c o ld
        simp only [if_true, Prod.mk.injEq] at stored
        congr 1
        · simp [CacheSet.view, CacheSet.hit, addr, stored, hval]
        · apply List.map_congr_left
          intro d hd
          have ne : d ≠ c := by
            rintro rfl
            exact ref.toWf.nodup_list.not_mem_erase hd
          have stored := CacheSet.hitLine_stored (s := m.set) ps c d o ld
          simp only [if_neg ne, Prod.mk.injEq] at stored
          simp [CacheSet.view, CacheSet.hit, stored]
  · have hacc := CacheSet.access_miss (CacheSet.not_bound.mp b) o ld
    have absent := Lru.access_absent (f := fun v => (o, if ld then v.2 else true))
      (ref.find_absent b)
    refine ⟨⟨m.set.missed t, m.out⟩, ps, ?_, ?_⟩
    · rw [SetState.step_access hacc]
      simp only [LruState.step, absent]
    · refine ⟨⟨⟨ref.toWf.missed t, ?_⟩, ref.assoc, ref.pol⟩, ?_, ref.out⟩
      · intro d hd
        exact (CacheSet.missed_find _ _ _).mpr (ref.complete hd)
      · simp only [LruState.step, absent]
        exact ref.entries

/-- An insertion adds the entry in front and evicts the same entry from both caches. -/
lemma Refines.insert (ref : Refines m a ps) (pos : 0 < n) {t : Nat} (nb : ¬ m.set.Bound t)
    (o : Nat) (ld : Bool) :
    ∃ m' qs, m.step (.insert t o ld) = some (m', (a.step pos (.insert t o ld)).2) ∧
      Refines m' (a.step pos (.insert t o ld)).1 qs := by
  have absent := ref.absent nb
  have len : a.cache.entries.length = ps.length := by
    have := congrArg List.length ref.entries
    simpa using this.symm
  have wflen := ref.toWf.length
  have assoc := ref.assoc
  cases hfree : m.set.freeEntries with
  | cons c free =>
    obtain ⟨held, l, hins, wf'⟩ := ref.toWf.insert_free ref.pol2 hfree t o ld m.out
    have room : a.cache.entries.length < n := by
      rw [hfree, List.length_cons] at wflen
      omega
    obtain ⟨hv, entries⟩ := Lru.insert_room pos (v := (o, !ld)) absent room
    have rep : a.report = m.out := by simp [LruState.report, hv, ref.out]
    have ex := held.exact_stored wf'
      (fun hd => (CacheSet.missed_find _ _ _).mpr (ref.complete hd))
      (fun d hd e => nb ⟨d, e ▸ ref.complete hd⟩)
    have eplace : CacheSet.place m.set.policy (m.set.filled c t o ld) c ps = c :: ps := by
      simp [CacheSet.place, ref.pol]
    refine ⟨⟨(m.set.popped t free).stored c t o ld l, m.out⟩, c :: ps, ?_, ?_⟩
    · rw [SetState.step_insert hins]
      simp only [LruState.step, rep]
    · refine ⟨⟨eplace ▸ ex, ref.assoc, ref.pol⟩, ?_, ?_⟩
      · have view := CacheSet.stored_view held t o ld l
        calc
          _ = (t, o, !ld) :: ps.map m.set.view := view
          _ = (a.cache.insert t (o, !ld) pos).entries.map fun e => (e.key, e.val) := by
            rw [entries, ref.entries, List.map_cons]
      · exact rep.symm
  | nil =>
    obtain ⟨qs, v, rfl⟩ := ref.toWf.exists_last hfree (by omega)
    obtain ⟨u, held, l, hins, wf'⟩ := ref.toWf.insert_full ref.pol2 hfree t o ld m.out
    have full : a.cache.entries.length = n := by
      rw [hfree, List.length_nil] at wflen
      omega
    obtain ⟨es, e, hes, hlast⟩ : ∃ es e, a.cache.entries = es ++ [e] ∧
        (e.key, e.val) = m.set.view v := by
      have he := ref.entries
      obtain ⟨es, e, hes⟩ := (List.eq_nil_or_concat' a.cache.entries).resolve_left
        (by intro h; simp [h] at full; omega)
      refine ⟨es, e, hes, ?_⟩
      rw [hes, List.map_append, List.map_append] at he
      have := List.append_inj_right' he rfl
      simpa using this.symm
    have hmap : qs.map m.set.view = es.map fun e => (e.key, e.val) := by
      have he := ref.entries
      rw [hes, List.map_append, List.map_append] at he
      exact List.append_inj_left' he rfl
    obtain ⟨hv, entries⟩ := Lru.insert_full pos (v := (o, !ld)) absent full hes
    have ex := (held.exact_unseated ref.toExact nb wf')
    have eplace : CacheSet.place m.set.policy (m.set.filled v t o ld) v qs = v :: qs := by
      simp [CacheSet.place, ref.pol]
    have rep : a.report = ⟨(m.set.line v).dirty, int64 (m.set.line v).addr,
        (m.set.line v).offset⟩ := by
      simp only [CacheSet.view, Prod.mk.injEq] at hlast
      simp [LruState.report, hv, hlast]
    refine ⟨⟨(m.set.unseated t v u).stored v t o ld l, a.report⟩, v :: qs, ?_, ?_⟩
    · rw [SetState.step_insert hins]
      simp only [LruState.step, rep]
    · refine ⟨⟨eplace ▸ ex, ref.assoc, ref.pol⟩, ?_, rfl⟩
      have view := CacheSet.stored_view held t o ld l
      calc
        _ = (t, o, !ld) :: qs.map m.set.view := view
        _ = (a.cache.insert t (o, !ld) pos).entries.map fun e => (e.key, e.val) := by
          rw [entries, hmap, List.map_cons]

/-- An eviction drops the same entry from both caches. -/
lemma Refines.evict (ref : Refines m a ps) (pos : 0 < n) {t : Nat} (b : m.set.Bound t) :
    ∃ m' qs, m.step (.evict t) = some (m', (a.step pos (.evict t)).2) ∧
      Refines m' (a.step pos (.evict t)).1 qs := by
  obtain ⟨c, h⟩ := b
  obtain ⟨l, hev, wf'⟩ := ref.toWf.evict_bound h
  obtain ⟨e, hfind, hval⟩ := ref.find_bound h
  refine ⟨⟨m.set.evicted c t l, m.out⟩, ps.erase c, ?_, ?_⟩
  · rw [SetState.step_evict hev]
    simp [LruState.step, hfind, hval]
  · refine ⟨⟨ref.toExact.evicted h wf', ref.assoc, ref.pol⟩, ?_, ref.out⟩
    exact ref.others h

/-- A flush empties both caches. -/
lemma Refines.flush (ref : Refines m a ps) (pos : 0 < n) :
    ∃ m' qs, m.step .flush = some (m', (a.step pos .flush).2) ∧
      Refines m' (a.step pos .flush).1 qs := by
  obtain ⟨l, u, hfl, wf', _⟩ := ref.toWf.flush
  refine ⟨⟨m.set.flushed ps l u, m.out⟩, [], ?_, ?_⟩
  · rw [SetState.step_flush hfl]
    rfl
  · refine ⟨⟨⟨wf', ?_⟩, ref.assoc, ref.pol⟩, rfl, ref.out⟩
    intro c hc
    cases hc

/-- One allowed call keeps the refinement and gets the abstract reply. -/
lemma Refines.step {call : Call} (ref : Refines m a ps) (pos : 0 < n) (ok : Allowed m.set call) :
    ∃ m' qs, m.step call = some (m', (a.step pos call).2) ∧ Refines m' (a.step pos call).1 qs := by
  cases call with
  | access t o ld => exact ref.access pos t o ld
  | insert t o ld => exact ref.insert pos ok o ld
  | evict t => exact ref.evict pos ok
  | flush => exact ref.flush pos

/-- One more call is one more step. -/
lemma LruState.run_snoc (pos : 0 < n) (a : LruState n) (calls : List Call) (call : Call) :
    a.run pos (calls ++ [call]) =
      (((a.run pos calls).1.step pos call).1,
        (a.run pos calls).2 ++ [((a.run pos calls).1.step pos call).2]) := by
  induction calls generalizing a with
  | nil => rfl
  | cons c calls ih => simp [LruState.run, ih]

/-- Along every history the replies are those of the abstract cache. -/
lemma Reaches.refines {lineSize calls m replies} {out : Evicted} (pos : 0 < n)
    (h : Reaches ⟨.new n lineSize 0, out⟩ calls m replies) :
    ∃ ps, Refines m (LruState.run pos ⟨.empty, out⟩ calls).1 ps ∧
      replies = (LruState.run pos ⟨.empty, out⟩ calls).2 := by
  induction h with
  | nil => exact ⟨[], ⟨sound_new n lineSize 0, rfl, rfl⟩, rfl⟩
  | @snoc calls m replies call m' r _ ok st ih =>
    obtain ⟨ps, ref, hr⟩ := ih
    obtain ⟨m'', qs, st', ref'⟩ := ref.step pos ok
    cases st.symm.trans st'
    rw [LruState.run_snoc]
    exact ⟨qs, ref', by rw [hr]⟩

/-- A set with policy 0 is a bounded LRU cache: after every history of allowed calls its tags, in
    list order, are the keys of the abstract cache, most recently used first; it has given the
    replies of the abstract cache; and every further allowed call succeeds. -/
theorem set_refines_lru {n lineSize : Nat} {out : Evicted} (pos : 0 < n)
    {calls : List Call} {m : SetState} {replies : List Reply}
    (h : Reaches ⟨.new n lineSize 0, out⟩ calls m replies) :
    m.set.getSet =
        some ((LruState.run pos ⟨.empty, out⟩ calls).1.cache.entries.map LruEntry.key) ∧
      replies = (LruState.run pos ⟨.empty, out⟩ calls).2 ∧
      ∀ call, Allowed m.set call → ∃ m' r, m.step call = some (m', r) := by
  obtain ⟨ps, ref, hr⟩ := h.refines pos
  refine ⟨?_, hr, ?_⟩
  · rw [ref.getSet, ref.keys]
  · intro call ok
    obtain ⟨m', qs, st, _⟩ := ref.step pos ok
    exact ⟨m', _, st⟩

/-- A set with one line: the second insertion evicts what the first one stored. -/
theorem set_refines_lru_evicts :
    ∃ m, Reaches ⟨.new 1 4096 0, ⟨false, -1, 0⟩⟩ [.insert 5 1 false, .insert 6 2 true] m
        [.inserted ⟨false, -1, 0⟩, .inserted ⟨true, 5, 1⟩] ∧
      m.set.getSet = some [6] := by
  set m₀ : SetState := ⟨.new 1 4096 0, ⟨false, -1, 0⟩⟩
  have run : (m₀.replay [.insert 5 1 false, .insert 6 2 true]).map Prod.snd =
      some [.inserted ⟨false, -1, 0⟩, .inserted ⟨true, 5, 1⟩] := by decide +kernel
  obtain ⟨⟨m, rs⟩, run, rfl⟩ := Option.map_eq_some_iff.mp run
  have h := Reaches.nil.replay run
  obtain ⟨tags, -, -⟩ := set_refines_lru (by decide) h
  exact ⟨m, h, tags⟩

end
end PromotionCache.Tlb
