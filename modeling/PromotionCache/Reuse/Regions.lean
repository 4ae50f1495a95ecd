import PromotionCache.Reuse.Kernels
import Mathlib.Data.Fintype.Card

/-!
# Regions of tracked addresses

`update_mem_regions` registers the same five regions for every application. They are all that `bfs` tracks; `sssp`
also tracks the weights, and `pagerank` arrays of ranks where the pointer that is registered is not set
(`covers_iff`).
-/

namespace PromotionCache.Reuse
open Lib PromotionCache.Graph

variable {G : CsrGraph} {app : App G} {L : Layout app} {a i n fuel : ℕ} {arr : Arr} {D : Type}
  {s t : Kernel G D} {v seed : Fin G.nodes}

/-- The address is in one of the regions. -/
def Registered (L : Layout app) (a : ℕ) : Prop := ∃ r ∈ memRegions L, r.1 ≤ a ∧ a < r.2

/-- In every layout, each tracked address is registered, and `summarize` prints a line for its page. -/
def Covers (app : App G) : Prop :=
  ∀ (L : Layout app) (fuel : ℕ), ∀ a ∈ tracked app L fuel, Registered L a ∧ ∀ reusePageSize, 0 < reusePageSize →
    ∃ r ∈ memRegions L, a / reusePageSize ∈
      summarized reusePageSize (track reusePageSize 0 (tracked app L fuel)).1.reuseMap r

/-- What the application tracks is in the arrays that are registered. -/
def TracksRegions : App G → Prop
  | .bfs _ => True
  | .sssp seed => G.outdegree seed = 0
  | .pagerank => G.nodes = 0

/-- The page of an address in a region is one of its pages. -/
lemma page_mem {first last p : ℕ} (pos : 0 < p) (low : first ≤ a) (high : a < last) :
    a / p ∈ List.range' (first / p) ((last + p - 1) / p - first / p) := by
  have le : first / p ≤ a / p := Nat.div_le_div_right low
  have lt : a / p < (last + p - 1) / p := by
    rw [Nat.lt_iff_add_one_le, ← Nat.add_div_right a pos]
    exact Nat.div_le_div_right (by omega)
  rw [List.mem_range'_1]
  omega

/-- `summarize` prints a line for the page of each tracked address that is registered. -/
lemma summarized_of_registered {p : ℕ} {vaddrs : List ℕ} (pos : 0 < p) (mem : a ∈ vaddrs) (reg : Registered L a) :
    ∃ r ∈ memRegions L, a / p ∈ summarized p (track p 0 vaddrs).1.reuseMap r := by
  obtain ⟨r, hr, low, high⟩ := reg
  refine ⟨r, hr, List.mem_filter.mpr ⟨page_mem pos low high, ?_⟩⟩
  have page : a / p ∈ pages p vaddrs := List.mem_map.mpr ⟨a, mem, rfl⟩
  obtain ⟨m, last⟩ := exists_last page
  obtain ⟨e, found, _⟩ := (tracks_track p 0 vaddrs).1.warm _ m last
  rw [UnorderedMap.contains, found]
  rfl

/-- An app is covered if all its tracked addresses are registered. -/
lemma covers_of_registered (h : ∀ (L : Layout app) fuel, ∀ a ∈ tracked app L fuel, Registered L a) : Covers app :=
  fun L fuel a mem => ⟨h L fuel a mem, fun _ pos => summarized_of_registered pos mem (h L fuel a mem)⟩

/-- An entry of a registered array is registered. -/
lemma registered_of_lt (arr : Arr) (mem : (L.start arr, L.addr arr n) ∈ memRegions L) (lt : i < n) :
    Registered L (L.addr arr i) := by
  refine ⟨_, mem, Nat.le_add_right _ _, ?_⟩
  dsimp only [Layout.addr]
  omega

/-- The entries of the node array are registered, the one behind the last vertex included. -/
lemma registered_nodeArray (le : i ≤ G.nodes) : Registered L (L.addr .nodeArray i) :=
  registered_of_lt .nodeArray List.mem_cons_self (Nat.lt_succ_of_le le)

/-- The entries of the edge array are registered. -/
lemma registered_edgeArray (lt : i < G.edges) : Registered L (L.addr .edgeArray i) :=
  registered_of_lt .edgeArray (by simp [memRegions]) lt

/-- The entries of the result are registered. -/
lemma registered_ret (lt : i < G.nodes) : Registered L (L.addr .ret i) :=
  registered_of_lt .ret (by simp [memRegions]) lt

/-- The beginnings of the worklists. -/
def AtWorklist (L : Layout app) (a : ℕ) : Prop := a = L.start .inWl ∨ a = L.start .outWl

/-- The entries of the worklists are registered. -/
lemma registered_worklist (h : AtWorklist L a) (lt : i < G.nodes * 2) : Registered L (a + 8 * i) := by
  rcases h with rfl | rfl
  · exact registered_of_lt .inWl (by simp [memRegions]) lt
  · exact registered_of_lt .outWl (by simp [memRegions]) lt

/-- An append keeps an invariant that holds with one more entry. -/
lemma stays_push {Inv : Kernel G D → Prop} {capacity : ℕ} (h : Inv s)
    (ind : s.outWl.length < capacity → Inv { s with outWl := s.outWl ++ [v] }) : Stays Inv (s.push capacity v) := by
  rw [Kernel.push]
  split
  case isTrue room => exact ind room
  case isFalse => exact h

/-- The turn to the next epoch keeps an invariant that holds with the worklists exchanged. -/
lemma stays_swap {Inv : Kernel G D → Prop} (h : Inv s)
    (ind : s.hop + 1 < intBound →
      Inv { s with inWl := s.outWl, outWl := [], inAt := s.outAt, outAt := s.inAt, hop := s.hop + 1 }) :
    Stays Inv s.swap := by
  rw [Kernel.swap]
  split
  case isTrue fits => exact ind fits
  case isFalse => exact h

/-- A pass over the worklist keeps an invariant that every entry keeps. -/
lemma stays_pass {Inv : Kernel G D → Prop} {entry : ℕ → Fin G.nodes → Kernel G D → Except (Kernel G D) (Kernel G D)}
    (h : Inv s)
    (ind : ∀ i node t, t.inWl[i]? = some node → Inv t → Stays Inv (entry i node t)) : Stays Inv (s.pass entry) := by
  refine Stays.foldlM h fun t i _ ht => ?_
  split
  case h_1 => exact ht
  case h_2 node found => exact ind i node t found ht

/-- A pass begins with the first entry. -/
lemma stays_pass_of_cons {Inv : Kernel G D → Prop}
    {entry : ℕ → Fin G.nodes → Kernel G D → Except (Kernel G D) (Kernel G D)} {vs : List (Fin G.nodes)}
    (wl : s.inWl = v :: vs) (first : Stays Inv (entry 0 v s))
    (ind : ∀ i node t, Inv t → Stays Inv (entry i node t)) : Stays Inv (s.pass entry) := by
  have range : List.range s.inWl.length = 0 :: List.range' 1 vs.length := by
    rw [wl, List.length_cons, List.range_eq_range', List.range'_succ]
  have head : s.inWl[0]? = some v := by
    rw [wl]
    rfl
  rw [Kernel.pass, range, List.foldlM_cons, head]
  refine Stays.bind first fun t ht => Stays.foldlM ht fun t i _ ht => ?_
  split
  case h_1 => exact ht
  case h_2 node found => exact ind i node t ht

/-- The log forgets nothing. -/
lemma log_touch {addrs : List ℕ} (h : a ∈ s.log) : a ∈ (s.touch addrs).log := List.mem_append_left _ h

/-- What is in the log stays there. -/
lemma log_swap (h : a ∈ s.log) : Stays (a ∈ ·.log) s.swap := stays_swap h fun _ => h

namespace Bfs
variable {L : Layout (.bfs seed : App G)} {s : Kernel G (Fin G.nodes → ℕ)}

/-- No vertex is twice in the output worklist, and what is logged is registered. -/
structure Inv (L : Layout (.bfs seed : App G)) (s : Kernel G (Fin G.nodes → ℕ)) : Prop where
  inWl : s.inWl.length ≤ G.nodes
  nodup : s.outWl.Nodup
  visited : ∀ v ∈ s.outWl, s.data v ≠ unset
  hop : s.hop < intBound
  inAt : AtWorklist L s.inAt
  outAt : AtWorklist L s.outAt
  log : ∀ a ∈ s.log, Registered L a

/-- Registered addresses may be touched. -/
lemma Inv.touch (h : Inv L s) {addrs : List ℕ} (reg : ∀ a ∈ addrs, Registered L a) : Inv L (s.touch addrs) where
  inWl := h.inWl
  nodup := h.nodup
  visited := h.visited
  hop := h.hop
  inAt := h.inAt
  outAt := h.outAt
  log a mem := (List.mem_append.mp mem).elim (h.log a) (reg a)

/-- Every vertex is appended at most once in an epoch. -/
lemma Inv.outWl_le (h : Inv L s) : s.outWl.length ≤ G.nodes := by
  have le := h.nodup.length_le_card
  rwa [Fintype.card_fin] at le

/-- The invariant holds at the start. -/
lemma Inv.init : Inv L (init L) where
  inWl := seed.pos
  nodup := List.nodup_nil
  visited _ mem := by cases mem
  hop := (by decide : 1 < intBound)
  inAt := .inl rfl
  outAt := .inr rfl
  log _ mem := by cases mem

/-- A vertex that is appended was not set before, so it is not in the worklist. -/
lemma Inv.visit (h : Inv L s) (e : Fin G.edges) : Stays (Inv L) (visit L s e) := by
  have pos : 0 < G.nodes := seed.pos
  have edge := registered_edgeArray (L := L) e.isLt
  have ret := registered_ret (L := L) (G.edgeArray e).isLt
  have h' : Inv L (s.touch [L.addr .edgeArray e, L.addr .ret (G.edgeArray e)]) := h.touch (by simp [edge, ret])
  rw [Bfs.visit]
  dsimp only
  split
  case isFalse => exact h'
  case isTrue fresh =>
    have set : s.hop ≠ unset := by
      have bound := h.hop
      rw [intBound] at bound
      rw [unset]
      omega
    have new : G.edgeArray e ∉ s.outWl := fun mem => h.visited _ mem fresh
    have data : ∀ v, s.data v ≠ unset ∨ v = G.edgeArray e →
        Function.update s.data (G.edgeArray e) s.hop v ≠ unset := by
      intro v old
      by_cases same : v = G.edgeArray e
      · rw [same, Function.update_self]
        exact set
      · rw [Function.update_of_ne same]
        exact old.resolve_right same
    refine Stays.bind (stays_push ?_ fun _ => ?_) fun t ht => ?_
    · exact { h' with visited := fun v mem => data v (.inl (h.visited v mem)) }
    · refine { h' with nodup := ?_, visited := fun v mem => ?_ }
      · rw [← List.concat_eq_append]
        exact h.nodup.concat new
      · rcases List.mem_append.mp mem with old | last
        · exact data v (.inl (h.visited v old))
        · exact data v (.inr (List.mem_singleton.mp last))
    · have index := registered_worklist ht.outAt (i := s.outWl.length) (by have := h.outWl_le; omega)
      exact ht.touch (by simp [ret, Kernel.touch, index])

/-- An entry of the worklist keeps the invariant. -/
lemma Inv.entry {i : ℕ} {node : Fin G.nodes} (h : Inv L s) (found : s.inWl[i]? = some node) :
    Stays (Inv L) (entry L i node s) := by
  have bound := (List.getElem?_eq_some_iff.mp found).1
  have index := registered_worklist h.inAt (i := i) (by have := h.inWl; omega)
  have here := registered_nodeArray (L := L) node.isLt.le
  have next := registered_nodeArray (L := L) (Nat.succ_le_of_lt node.isLt)
  exact Stays.foldlM (h.touch (by simp [index, here, next])) fun s e _ hs => hs.visit e

/-- An epoch keeps the invariant. -/
lemma Inv.epoch (h : Inv L s) : Stays (Inv L) (s.pass (Bfs.entry L) >>= Kernel.swap) := by
  refine Stays.bind (stays_pass h fun i node t found ht => ht.entry found) fun t ht => ?_
  refine stays_swap ht fun fits => ?_
  exact
    { inWl := ht.outWl_le
      nodup := List.nodup_nil
      visited := fun _ mem => by cases mem
      hop := fits
      inAt := ht.outAt
      outAt := ht.inAt
      log := ht.log }

/-- `bfs` touches registered addresses alone. -/
lemma covers : Covers (.bfs seed : App G) :=
  covers_of_registered fun L _ => (Stays.loop (Inv.init (L := L)) fun _ h => h.epoch).log

end Bfs

namespace Sssp
variable {L : Layout (.sssp seed : App G)} {s : Kernel G (Fin G.nodes → ℕ)} {e : Fin G.edges} {node : Fin G.nodes}

/-- Relaxing an edge forgets no address. -/
lemma log_relax (h : a ∈ s.log) : Stays (a ∈ ·.log) (relax L node s e) := by
  rw [relax]
  split
  case h_1 => exact h
  case h_2 =>
    dsimp only
    split
    case isTrue => exact Stays.bind (stays_push (log_touch h) fun _ => log_touch h) fun _ ht => log_touch ht
    case isFalse => exact log_touch h

/-- Neither does an entry of the worklist. -/
lemma log_entry {i : ℕ} (h : a ∈ s.log) : Stays (a ∈ ·.log) (entry L i node s) :=
  Stays.foldlM (log_touch h) fun _ _ _ hs => log_relax hs

/-- Neither does an epoch. -/
lemma log_epoch (h : a ∈ s.log) : Stays (a ∈ ·.log) (s.pass (entry L) >>= Kernel.swap) :=
  Stays.bind (stays_pass h fun _ _ _ _ ht => log_entry ht) fun _ ht => log_swap ht

/-- The weight of an edge is tracked, if reading it does not end the program. -/
lemma mem_log_relax (read : (L.weights e).isSome) : Stays (L.addr .edgeValues e ∈ ·.log) (relax L node s e) := by
  have own : L.addr .edgeValues e ∈ (s.touch [L.addr .edgeArray e, L.addr .ret (G.edgeArray e), L.addr .ret node,
      L.addr .edgeValues e]).log := List.mem_append_right _ (by simp)
  obtain ⟨w, weight⟩ := Option.isSome_iff_exists.mp read
  rw [relax, weight]
  dsimp only
  split
  case isTrue => exact Stays.bind (stays_push own fun _ => own) fun _ ht => log_touch ht
  case isFalse => exact own

/-- The first edge of an entry has its weight read. -/
lemma mem_log_entry {i : ℕ} {es : List (Fin G.edges)} (read : (L.weights e).isSome) (edges : G.edgesOf node = e :: es) :
    Stays (L.addr .edgeValues e ∈ ·.log) (entry L i node s) := by
  rw [entry, edges, List.foldlM_cons]
  refine Stays.bind (mem_log_relax read) fun t ht => ?_
  exact Stays.foldlM ht fun _ _ _ hs => log_relax hs

/-- The first pass starts with the seed. -/
lemma mem_tracked {es : List (Fin G.edges)} (read : (L.weights e).isSome) (edges : G.edgesOf seed = e :: es) :
    L.addr .edgeValues e ∈ tracked (.sssp seed) L 1 := by
  have running : (init L).running = true := rfl
  show Stays (L.addr .edgeValues e ∈ ·.log) (sssp L 1)
  rw [sssp, boundedLoop, if_pos running]
  refine Stays.bind (Stays.bind ?_ fun t ht => log_swap ht) fun t ht => ht
  exact stays_pass_of_cons rfl (mem_log_entry read edges) fun _ _ _ ht => log_entry ht

/-- Nothing but the seed is in the worklist, and what is logged is registered. -/
structure Inv (L : Layout (.sssp seed : App G)) (s : Kernel G (Fin G.nodes → ℕ)) : Prop where
  inWl : ∀ i node, s.inWl[i]? = some node → i = 0 ∧ node = seed
  outWl : s.outWl = []
  inAt : AtWorklist L s.inAt
  outAt : AtWorklist L s.outAt
  log : ∀ a ∈ s.log, Registered L a

/-- The invariant holds at the start. -/
lemma Inv.init : Inv L (init L) where
  inWl i node found := by
    have mem := List.mem_of_getElem? found
    have bound := (List.getElem?_eq_some_iff.mp found).1
    exact ⟨Nat.lt_one_iff.mp bound, List.mem_singleton.mp mem⟩
  outWl := rfl
  inAt := .inl rfl
  outAt := .inr rfl
  log _ mem := by cases mem

/-- Without edges, an entry tracks itself and the ends of its edges. -/
lemma Inv.entry {i : ℕ} (none : G.outdegree seed = 0) (h : Inv L s) (found : s.inWl[i]? = some node) :
    Stays (Inv L) (entry L i node s) := by
  obtain ⟨rfl, rfl⟩ := h.inWl i node found
  have edges : G.edgesOf node = [] := by rwa [← List.length_eq_zero_iff, CsrGraph.length_edgesOf]
  have pos : 0 < G.nodes := node.pos
  have index := registered_worklist h.inAt (i := 0) (by omega)
  have here := registered_nodeArray (L := L) node.isLt.le
  have next := registered_nodeArray (L := L) (Nat.succ_le_of_lt node.isLt)
  rw [Sssp.entry, edges]
  exact
    { h with
      log := fun a mem => (List.mem_append.mp mem).elim (h.log a) fun own => by
        simp only [List.mem_cons, List.not_mem_nil, or_false] at own
        rcases own with rfl | rfl | rfl
        · exact index
        · exact here
        · exact next }

/-- A seed without edges keeps the worklist short. -/
lemma Inv.epoch (none : G.outdegree seed = 0) (h : Inv L s) :
    Stays (Inv L) (s.pass (Sssp.entry L) >>= Kernel.swap) := by
  refine Stays.bind (stays_pass h fun i node t found ht => ht.entry none found) fun t ht => ?_
  refine stays_swap ht fun _ => ?_
  exact
    { inWl := fun i node found => by
        rw [ht.outWl] at found
        cases found
      outWl := rfl
      inAt := ht.outAt
      outAt := ht.inAt
      log := ht.log }

/-- From a seed without edges `sssp` touches registered addresses alone. -/
lemma covers (none : G.outdegree seed = 0) : Covers (.sssp seed : App G) :=
  covers_of_registered fun L _ => (Stays.loop (Inv.init (L := L)) fun _ h => h.epoch none).log

end Sssp

namespace Pagerank
variable {L : Layout (.pagerank : App G)} {s : Kernel G (Ranks G)}

/-- Visiting an edge forgets no address. -/
lemma log_visit {newR : Float} {e : Fin G.edges} (h : a ∈ s.log) : Stays (a ∈ ·.log) (visit L newR s e) := by
  rw [visit]
  dsimp only
  split
  case isTrue => exact Stays.bind (stays_push (log_touch h) fun _ => log_touch h) fun _ ht => log_touch ht
  case isFalse => exact log_touch h

/-- Neither does visiting several. -/
lemma log_edges {newR : Float} {es : List (Fin G.edges)} (h : a ∈ s.log) :
    Stays (a ∈ ·.log) (es.foldlM (visit L newR) s) :=
  Stays.foldlM h fun _ _ _ hs => log_visit hs

/-- Neither does an entry of the worklist. -/
lemma log_entry (h : a ∈ s.log) : Stays (a ∈ ·.log) (entry L i v s) :=
  Stays.bind (log_edges (log_touch h)) fun _ ht => log_touch ht

/-- Neither does an epoch. -/
lemma log_epoch (h : a ∈ s.log) : Stays (a ∈ ·.log) (s.pass (entry L) >>= swap) :=
  Stays.bind (stays_pass h fun _ _ _ _ ht => log_entry ht) fun _ ht => log_swap ht

/-- The rank of an entry is tracked. -/
lemma mem_log_entry : Stays (L.addr .x v ∈ ·.log) (entry L i v s) :=
  Stays.bind (log_edges (List.mem_append_right _ (by simp))) fun _ ht => log_touch ht

/-- The first pass starts with the first vertex. -/
lemma mem_tracked {vs : List (Fin G.nodes)} (wl : List.finRange G.nodes = v :: vs) :
    L.addr .x v ∈ tracked .pagerank L 1 := by
  have running : (init L).running = true := by
    rw [Kernel.running, init, wl]
    rfl
  show Stays (L.addr .x v ∈ ·.log) (pagerank L 1)
  rw [pagerank, boundedLoop, if_pos running]
  refine Stays.bind (Stays.bind ?_ fun t ht => log_swap ht) fun t ht => ht
  exact stays_pass_of_cons wl mem_log_entry fun _ _ _ ht => log_entry ht

/-- Without vertices there is no pass. -/
lemma covers (none : G.nodes = 0) : Covers (.pagerank : App G) := by
  refine covers_of_registered fun L fuel a mem => ?_
  have wl : List.finRange G.nodes = [] := by rwa [← List.length_eq_zero_iff, List.length_finRange]
  have idle : (init L).running = false := by
    rw [Kernel.running, init, wl]
    rfl
  have log : (outcome (pagerank L fuel)).log = [] := by
    cases fuel with
    | zero => rfl
    | succ fuel =>
      rw [pagerank, boundedLoop, idle]
      rfl
  rw [tracked, log] at mem
  cases mem

end Pagerank

/-- The place of an array. -/
def Arr.place : Arr → ℕ
  | .nodeArray => 1
  | .edgeArray => 2
  | .edgeValues => 3
  | .ret => 4
  | .inWl => 5
  | .outWl => 6
  | .x => 7
  | .inR => 8
  | .outR => 9

/-- The room between two places. -/
def room (G : CsrGraph) : ℕ := 2 ^ 21 * (G.nodes + G.edges + 1)

/-- Each array has its own place. -/
lemma Arr.place_inj {a b : Arr} (ne : a ≠ b) : a.place ≠ b.place := by
  cases a <;> cases b <;> first | exact absurd rfl ne | decide

/-- An array ends before the next one begins. -/
lemma place_room {m : ℕ} {a b : Arr} (lt : a.place < b.place) (le : m ≤ room G) :
    a.place * room G + m ≤ b.place * room G := by
  have next : (a.place + 1) * room G ≤ b.place * room G := Nat.mul_le_mul_right _ lt
  rw [Nat.succ_mul] at next
  omega

/-- No array has more than its room. -/
lemma bytes_le {b : Arr} {m : ℕ} (h : m ∈ app.bytes b) : m ≤ room G := by
  have slots : app.capacity ≤ G.nodes * 5 := by
    cases app <;> simp only [App.capacity] <;> omega
  rw [room]
  cases app <;> cases b <;> cases h <;> omega

/-- The arrays at their places, also those whose pointers are not set, with weights that can be read. -/
def spread (app : App G) : Layout app where
  start a := a.place * room G
  apart a b ne m hm n hn := by
    rcases Nat.lt_or_gt_of_ne (Arr.place_inj ne) with lt | gt
    · exact .inl (place_room lt (bytes_le hm))
    · exact .inr (place_room gt (bytes_le hn))
  aligned a _ := by
    refine Nat.dvd_mul_left_of_dvd (Nat.dvd_mul_right_of_dvd ?_ _) _
    cases a <;> rw [alignment] <;> decide
  weights _ := some 0

/-- An address of one array is in the region of no other. -/
lemma not_mem_region {b : Arr} (ne : arr ≠ b) (inside : 8 * i < room G) (le : 8 * n ≤ room G) :
    ¬ ((spread app).start b ≤ (spread app).addr arr i ∧ (spread app).addr arr i < (spread app).addr b n) := by
  rintro ⟨low, high⟩
  have own : (spread app).addr arr i = arr.place * room G + 8 * i := rfl
  have first : (spread app).start b = b.place * room G := rfl
  have last : (spread app).addr b n = b.place * room G + 8 * n := rfl
  rcases Nat.lt_or_gt_of_ne (Arr.place_inj ne) with lt | gt
  · have before := place_room (G := G) (m := 8 * i + 1) lt inside
    omega
  · have after := place_room (G := G) gt le
    omega

/-- In the spread layout, an array that is none of the five registered ones has no registered address. -/
lemma not_registered (inside : 8 * i < room G)
    (other : arr ∉ [Arr.nodeArray, .edgeArray, .ret, .inWl, .outWl]) :
    ¬ Registered (spread app) ((spread app).addr arr i) := by
  rintro ⟨r, mem, bounds⟩
  simp only [List.mem_cons, List.not_mem_nil, or_false, not_or] at other
  obtain ⟨notNodes, notEdges, notRet, notIn, notOut⟩ := other
  simp only [memRegions, List.mem_cons, List.not_mem_nil, or_false] at mem
  have size : room G = 2 ^ 21 * (G.nodes + G.edges + 1) := rfl
  rcases mem with rfl | rfl | rfl | rfl | rfl
  · exact not_mem_region notNodes inside (by omega) bounds
  · exact not_mem_region notEdges inside (by omega) bounds
  · exact not_mem_region notRet inside (by omega) bounds
  · exact not_mem_region notIn inside (by omega) bounds
  · exact not_mem_region notOut inside (by omega) bounds

/-- The regions cover what is tracked for `bfs`, for `sssp` from a vertex without edges, and for `pagerank` on a graph
    without vertices. -/
theorem covers_iff (app : App G) : Covers app ↔ TracksRegions app := by
  have size : room G = 2 ^ 21 * (G.nodes + G.edges + 1) := rfl
  cases app with
  | bfs seed => exact iff_of_true Bfs.covers trivial
  | sssp seed =>
    refine ⟨fun covers => ?_, Sssp.covers⟩
    rw [TracksRegions, ← CsrGraph.length_edgesOf, List.length_eq_zero_iff]
    by_contra some
    obtain ⟨e, es, edges⟩ := List.exists_cons_of_ne_nil some
    have reg := (covers (spread _) 1 _ (Sssp.mem_tracked rfl edges)).1
    have := e.isLt
    exact not_registered (by omega) (by decide) reg
  | pagerank =>
    refine ⟨fun covers => ?_, Pagerank.covers⟩
    rw [TracksRegions, ← List.length_finRange (n := G.nodes), List.length_eq_zero_iff]
    by_contra some
    obtain ⟨v, vs, wl⟩ := List.exists_cons_of_ne_nil some
    have reg := (covers (spread _) 1 _ (Pagerank.mem_tracked wl)).1
    have := v.isLt
    exact not_registered (by omega) (by decide) reg

/-- The weights of the edges of a seed are tracked outside the regions. -/
theorem sssp_not_covers : ¬ Covers (.sssp CsrGraph.sampleSeed : App CsrGraph.sample) := by
  intro covers
  have edges : CsrGraph.sample.edgesOf CsrGraph.sampleSeed = [⟨0, by decide⟩, ⟨1, by decide⟩] := by decide
  have reg := (covers (spread _) 1 _ (Sssp.mem_tracked rfl edges)).1
  exact not_registered (by decide) (by decide) reg

end PromotionCache.Reuse
