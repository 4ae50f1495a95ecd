import PromotionCache.Scripts.Policies

/-!
# The budget of huge pages

`write_promotions` of `get_promotions.py` promotes the first so many addresses of the log, and looks at its limit
after it has promoted one. `firstListed` are the addresses of the log with the times at which they come first.
-/

namespace PromotionCache.Scripts
open Lib Mt

/-- The addresses of the times, in this order. -/
def pairsOf (addrsAt : Nat → List Nat) (times : List Nat) : List (Nat × Nat) :=
  times.flatMap fun time => (addrsAt time).map fun addr => (time, addr)

/-- The candidates in order of time and then of the log. -/
def listing (candidates : AList fun _ : Nat => List Nat) : List (Nat × Nat) :=
  pairsOf (fun time => (candidates.lookup time).getD []) (sortedKeys candidates)

/-- The pairs whose address is not known and comes for the first time. -/
def firstListed (known : List Nat) : List (Nat × Nat) → List (Nat × Nat)
  | [] => []
  | (time, addr) :: rest =>
    if addr ∈ known then firstListed known rest
    else (time, addr) :: firstListed (known ++ [addr]) rest

/-- The line of the promotion file for an address. -/
def lineOf (offset : Int) (pair : Nat × Nat) : Nat × Int := (pair.1, (pair.2 : Int) + offset)

/-- The order of the lines: by time, then by address. -/
def LineLt (x y : Nat × Int) : Prop := x.1 < y.1 ∨ (x.1 = y.1 ∧ x.2 < y.2)

/-- The file holds the first addresses of the listing up to the limit, each once, and in order. -/
structure Budgeted (limit offset : Int) (pairs : List (Nat × Nat)) (file : List (Nat × Int)) : Prop where
  lines : file.Perm (((firstListed [] pairs).take limit.toNat).map (lineOf offset))
  once : (file.map Prod.snd).Nodup
  sorted : file.Pairwise LineLt
  within : (file.length : Int) ≤ limit

section
variable {limit offset : Int} {known addrs times : List Nat} {pairs rest : List (Nat × Nat)} {time : Nat}

/-- The pairs of one time, and those of the later ones. -/
lemma firstListed_append : firstListed known (addrs.map (fun addr => (time, addr)) ++ rest) =
    (fresh known addrs).map (fun addr => (time, addr)) ++ firstListed (known ++ fresh known addrs) rest := by
  induction addrs generalizing known with
  | nil => simp [fresh]
  | cons addr addrs ih =>
    rw [List.map_cons, List.cons_append, firstListed, fresh]
    split
    case isTrue => exact ih
    case isFalse =>
      rw [ih, List.map_cons, List.cons_append, List.append_assoc]
      rfl

/-- The addresses that are listed first are the fresh ones. -/
lemma firstListed_addrs : (firstListed known pairs).map Prod.snd = fresh known (pairs.map Prod.snd) := by
  induction pairs generalizing known with
  | nil => rfl
  | cons pair pairs ih =>
    obtain ⟨time, addr⟩ := pair
    rw [firstListed, List.map_cons, fresh]
    split
    case isTrue => exact ih
    case isFalse => rw [List.map_cons, ih]

/-- No address is listed first twice. -/
lemma nodup_firstListed : ((firstListed known pairs).map Prod.snd).Nodup := by
  rw [firstListed_addrs]
  exact nodup_fresh

/-- Something is listed first if anything is. -/
lemma firstListed_eq_nil : firstListed [] pairs = [] ↔ pairs = [] := by
  cases pairs with
  | nil => exact iff_of_true rfl rfl
  | cons pair pairs =>
    obtain ⟨time, addr⟩ := pair
    rw [firstListed, if_neg List.not_mem_nil]
    exact iff_of_false (List.cons_ne_nil _ _) (List.cons_ne_nil _ _)

/-- A pair is kept if its address is not known and does not come at an earlier time. -/
lemma mem_firstListed {addr : Nat} (ascending : pairs.Pairwise fun x y => x.1 ≤ y.1) :
    (time, addr) ∈ firstListed known pairs ↔
      (time, addr) ∈ pairs ∧ addr ∉ known ∧ ∀ t, (t, addr) ∈ pairs → time ≤ t := by
  induction pairs generalizing known with
  | nil => simp [firstListed]
  | cons pair pairs ih =>
    obtain ⟨time', addr'⟩ := pair
    obtain ⟨first, ascending⟩ := List.pairwise_cons.mp ascending
    have others : addr ≠ addr' → ∀ t, (t, addr) ∈ (time', addr') :: pairs ↔ (t, addr) ∈ pairs := by
      intro ne t
      rw [List.mem_cons, or_iff_right]
      exact fun e => ne (Prod.mk.inj e).2
    rw [firstListed]
    split
    case isTrue old =>
      rw [ih ascending]
      rcases eq_or_ne addr addr' with rfl | ne
      · exact iff_of_false (fun h => h.2.1 old) fun h => h.2.1 old
      · simp only [others ne]
    case isFalse new =>
      rw [List.mem_cons, ih ascending, List.mem_append, List.mem_singleton]
      rcases eq_or_ne addr addr' with rfl | ne
      · constructor
        · rintro (e | later)
          · obtain ⟨rfl, _⟩ := Prod.mk.inj e
            refine ⟨List.mem_cons_self, new, ?_⟩
            intro t mem
            rcases List.mem_cons.mp mem with e | mem
            · exact (Prod.mk.inj e).1.ge
            · exact first _ mem
          · exact absurd (.inr rfl) later.2.1
        · rintro ⟨mem, _, least⟩
          rcases List.mem_cons.mp mem with e | mem
          · exact .inl e
          · have e : time = time' := Nat.le_antisymm (least _ List.mem_cons_self) (first _ mem)
            exact .inl (by rw [e])
      · simp only [others ne]
        simp [ne]

/-- The lines of a time are those of its addresses. -/
lemma linesOf_perm : (linesOf offset time addrs).Perm
    ((addrs.map fun addr => (time, addr)).map (lineOf offset)) := by
  rw [List.map_map]
  exact (List.mergeSort_perm addrs _).map _

/-- They have that time. -/
lemma mem_linesOf {x : Nat × Int} (mem : x ∈ linesOf offset time addrs) : x.1 = time := by
  obtain ⟨addr, _, rfl⟩ := List.mem_map.mp mem
  rfl

/-- They are in order. -/
lemma linesOf_sorted (nodup : addrs.Nodup) : (linesOf offset time addrs).Pairwise LineLt := by
  have perm : (addrs.mergeSort (· ≤ ·)).Perm addrs := List.mergeSort_perm _ _
  have le := List.pairwise_mergeSort' (· ≤ ·) addrs
  have ne : (addrs.mergeSort (· ≤ ·)).Pairwise (· ≠ ·) := perm.nodup_iff.mpr nodup
  rw [linesOf, List.pairwise_map]
  refine (le.and ne).imp ?_
  intro a b both
  have le := both.1
  have ne := both.2
  exact .inr ⟨rfl, by show (a : Int) + offset < b + offset; omega⟩

/-- What is written from some time on, with room for more promotions. -/
lemma writeFrom_first (offset : Int) (c : AList fun _ : Nat => List Nat) (short : known.length < target limit)
    (ascending : times.Pairwise (· < ·)) :
    (writeFrom limit offset c known times).Perm
        (((firstListed known (pairsOf (fun time => (c.lookup time).getD []) times)).take
          (target limit - known.length)).map (lineOf offset)) ∧
      (writeFrom limit offset c known times).Pairwise LineLt ∧
        ∀ x ∈ writeFrom limit offset c known times, x.1 ∈ times := by
  induction times generalizing known with
  | nil => simp [writeFrom, pairsOf, firstListed]
  | cons time times ih =>
    obtain ⟨first, ascending⟩ := List.pairwise_cons.mp ascending
    set addrs := (c.lookup time).getD [] with haddrs
    set new := (fresh known addrs).take (target limit - known.length) with hnew
    have file : writeFrom limit offset c known (time :: times) = linesOf offset time new ++
        if target limit ≤ known.length + (fresh known addrs).length then []
        else writeFrom limit offset c (known ++ new) times := by
      rw [writeFrom, ← haddrs, promoteFrom_eq short, List.nil_append]
      simp only [decide_eq_true_eq]
      rfl
    have split : (firstListed known (pairsOf (fun time => (c.lookup time).getD []) (time :: times))).take
        (target limit - known.length) = new.map (fun addr => (time, addr)) ++
          (firstListed (known ++ fresh known addrs)
            (pairsOf (fun time => (c.lookup time).getD []) times)).take
              (target limit - known.length - (fresh known addrs).length) := by
      rw [pairsOf, List.flatMap_cons, firstListed_append, List.take_append, List.length_map, ← List.map_take]
      rfl
    have sorted : (linesOf offset time new).Pairwise LineLt :=
      linesOf_sorted (nodup_fresh.sublist (List.take_sublist _ _))
    rw [file, split]
    split
    case isTrue full =>
      rw [List.append_nil, Nat.sub_eq_zero_of_le (by omega), List.take_zero, List.append_nil]
      refine ⟨linesOf_perm, sorted, ?_⟩
      intro x mem
      rw [mem_linesOf mem]
      exact List.mem_cons_self
    case isFalse room =>
      have all : new = fresh known addrs := List.take_of_length_le (by omega)
      have len : (known ++ fresh known addrs).length = known.length + (fresh known addrs).length :=
        List.length_append
      have short' : (known ++ fresh known addrs).length < target limit := by omega
      obtain ⟨perm, sorted', mem'⟩ := ih short' ascending
      rw [len, ← Nat.sub_sub] at perm
      rw [all] at sorted ⊢
      refine ⟨?_, ?_, ?_⟩
      · rw [List.map_append]
        exact linesOf_perm.append perm
      · refine List.pairwise_append.mpr ⟨sorted, sorted', ?_⟩
        intro x hx y hy
        exact .inl (by rw [mem_linesOf hx]; exact first _ (mem' y hy))
      · intro x hx
        cases List.mem_append.mp hx with
        | inl now =>
          rw [mem_linesOf now]
          exact List.mem_cons_self
        | inr later => exact List.mem_cons_of_mem _ (mem' x later)

/-- Whatever the limit, at least one address is promoted if there is one. -/
lemma writePromotions_first (limit offset : Int) (c : AList fun _ : Nat => List Nat) :
    (writePromotions limit offset c).Perm
        (((firstListed [] (listing c)).take (target limit)).map (lineOf offset)) ∧
      (writePromotions limit offset c).Pairwise LineLt := by
  have short : ([] : List Nat).length < target limit := by
    unfold target
    exact Nat.lt_of_lt_of_le Nat.zero_lt_one (Nat.le_max_left _ _)
  obtain ⟨perm, sorted, _⟩ := writeFrom_first offset c short (sortedKeys_lt c)
  exact ⟨perm, sorted⟩

/-- What is listed. -/
lemma mem_listing {c : AList fun _ : Nat => List Nat} {time addr : Nat} :
    (time, addr) ∈ listing c ↔ addr ∈ (c.lookup time).getD [] := by
  simp only [listing, pairsOf, List.mem_flatMap, List.mem_map, Prod.mk.injEq]
  constructor
  · rintro ⟨_, _, _, mem, rfl, rfl⟩
    exact mem
  · exact fun mem => ⟨time, mem_sortedKeys mem, addr, mem, rfl, rfl⟩

/-- If there is a candidate, the file is not empty. -/
lemma one_le_length (limit offset : Int) {c : AList fun _ : Nat => List Nat} (some : listing c ≠ []) :
    1 ≤ (writePromotions limit offset c).length := by
  have ne : firstListed [] (listing c) ≠ [] := fun none => some (firstListed_eq_nil.mp none)
  have pos := List.length_pos_of_ne_nil ne
  rw [(writePromotions_first limit offset c).1.length_eq, List.length_map, List.length_take]
  unfold target
  omega

/-- Addresses that come once come once in the lines. -/
lemma nodup_lines {file : List (Nat × Int)} {n : Nat}
    (perm : file.Perm (((firstListed [] pairs).take n).map (lineOf offset))) :
    (file.map Prod.snd).Nodup := by
  have addrs : (((firstListed [] pairs).take n).map (lineOf offset)).map Prod.snd =
      (((firstListed [] pairs).map Prod.snd).take n).map fun addr : Nat => (addr : Int) + offset := by
    rw [List.map_map, ← List.map_take, List.map_map]
    rfl
  rw [(perm.map Prod.snd).nodup_iff, addrs]
  refine (nodup_firstListed.sublist (List.take_sublist _ _)).map ?_
  intro a b e
  have e : (a : Int) + offset = b + offset := e
  omega

/-- The file holds the first addresses up to the limit if and only if the limit is not 0 or there is nothing to
    promote. -/
theorem budgeted_iff (nonneg : 0 ≤ limit) (offset : Int) (c : AList fun _ : Nat => List Nat) :
    Budgeted limit offset (listing c) (writePromotions limit offset c) ↔ 1 ≤ limit ∨ listing c = [] := by
  obtain ⟨perm, sorted⟩ := writePromotions_first limit offset c
  constructor
  · intro budgeted
    refine or_iff_not_imp_right.mpr fun some => ?_
    have one := one_le_length limit offset some
    have within := budgeted.within
    omega
  · intro room
    have same : (firstListed [] (listing c)).take (target limit) =
        (firstListed [] (listing c)).take limit.toNat := by
      cases room with
      | inl one =>
        congr 1
        unfold target
        omega
      | inr none =>
        rw [none, firstListed, List.take_nil, List.take_nil]
    rw [same] at perm
    refine ⟨perm, nodup_lines perm, sorted, ?_⟩
    have len := perm.length_eq
    rw [List.length_map, List.length_take] at len
    omega

/-- Two candidates at one time. -/
def twoCandidates : AList fun _ : Nat => List Nat := AList.singleton 3 [7, 8]

/-- Two candidates and the limit 1. -/
theorem budgeted_iff_one : Budgeted 1 0 (listing twoCandidates) (writePromotions 1 0 twoCandidates) ↔
    1 ≤ (1 : Int) ∨ listing twoCandidates = [] :=
  budgeted_iff (by decide) 0 twoCandidates

/-- With a budget of no huge pages, one is promoted. -/
theorem budget_exceeded :
    ¬ Budgeted 0 0 (listing twoCandidates) (writePromotions 0 0 twoCandidates) := by
  intro budgeted
  have some : (3, 7) ∈ listing twoCandidates := mem_listing.mpr (by decide)
  have one := one_le_length 0 0 (List.ne_nil_of_mem some)
  have within := budgeted.within
  omega

end

end PromotionCache.Scripts
