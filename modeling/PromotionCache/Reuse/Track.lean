import Mathlib.Algebra.Group.Nat.Defs
import Mathlib.Data.Int.Notation
import Mathlib.Data.List.Induction
import Mathlib.Data.Nat.Notation
import Mathlib.Tactic.Common
import PromotionCache.Lib.UnorderedMap

/-!
# Reuse distances

`track_access` of `reuse/reuse.h`, with what it folds into the averages of a page as a result. The cold access to
a page stores 0 in place of its number, so the distance of the second access is counted from the first call
(`folds_iff`).
-/

namespace PromotionCache.Reuse
open Lib

/-- An entry of `reuse_map`. -/
structure Entry where
  accessNum : UInt64
  sumSq : Float
  numDataPts : UInt64
  ema : Float
  trueSumSq : Float
  trueNumDataPts : UInt64
  trueEma : Float

/-- `alpha` -/
def alpha : Float := 0.9

/-- `if (ema == 0) ema = reuse_dist; else ema = ema*alpha + reuse_dist*(1-alpha);` -/
def average (ema : Float) (reuseDist : UInt64) : Float :=
  if ema == 0 then reuseDist.toFloat else ema * alpha + reuseDist.toFloat * (1 - alpha)

/-- `num_data_pts < 2 || 3*std_dev >= abs(reuse_dist-ema) || std_dev > 1` -/
def considered (e : Entry) (reuseDist : UInt64) : Bool :=
  let stdDev := (e.sumSq / e.numDataPts.toFloat).sqrt
  e.numDataPts < 2 || (reuseDist.toFloat - e.ema).abs ≤ 3 * stdDev || 1 < stdDev

/-- The averages of a page with one more distance. -/
def Entry.fold (e : Entry) (reuseDist : UInt64) : Entry :=
  let e :=
    if considered e reuseDist then
      let ema := average e.ema reuseDist
      { e with
        sumSq := e.sumSq + (ema - reuseDist.toFloat).pow 2
        numDataPts := e.numDataPts + 1
        ema }
    else e
  let trueEma := average e.trueEma reuseDist
  { e with
    trueSumSq := e.trueSumSq + (trueEma - reuseDist.toFloat).pow 2
    trueNumDataPts := e.trueNumDataPts + 1
    trueEma }

/-- `access_num_map` and `reuse_map` -/
structure State where
  accessNumMap : UnorderedMap ℤ UInt64
  reuseMap : UnorderedMap ℕ Entry

/-- The maps at the start. -/
def State.empty : State := ⟨.empty, .empty⟩

section
variable (reusePageSize : ℕ)

/-- `track_access`, with the distance that it folds into the averages. -/
def trackAccess (s : State) (vaddr : ℕ) (pc : ℤ) : State × Option UInt64 :=
  let accessNum := (s.accessNumMap.find pc).getD 0
  let base := vaddr / reusePageSize
  let accessNumMap := s.accessNumMap.set pc (accessNum + 1)
  match s.reuseMap.find base with
  | none => (⟨accessNumMap, s.reuseMap.set base ⟨0, 0, 0, 0, 0, 0, 0⟩⟩, none)
  | some e =>
    let reuseDist := accessNum - e.accessNum
    (⟨accessNumMap, s.reuseMap.set base ({ e with accessNum }.fold reuseDist)⟩, some reuseDist)

/-- Calls of `track_access` with one `pc`, with the distance of each. -/
def track (pc : ℤ) (vaddrs : List ℕ) : State × List (Option UInt64) :=
  vaddrs.foldl (fun (s, dists) vaddr =>
    let (s, dist) := trackAccess reusePageSize s vaddr pc
    (s, dists ++ [dist])) (.empty, [])

/-- The pages that the calls are about. -/
def pages (vaddrs : List ℕ) : List ℕ := vaddrs.map (· / reusePageSize)

end

/-- Call `m` is the last one before call `k` that is about the same page. -/
def Preceding (ps : List ℕ) (m k : ℕ) : Prop :=
  m < k ∧ k < ps.length ∧ ps[m]? = ps[k]? ∧ ∀ j, m < j → j < k → ps[j]? ≠ ps[k]?

/-- An earlier call is about the page of call `m`. -/
def Seen (ps : List ℕ) (m : ℕ) : Prop := ∃ j < m, ps[j]? = ps[m]?

instance {ps : List ℕ} {m : ℕ} : Decidable (Seen ps m) :=
  inferInstanceAs (Decidable (∃ j < m, ps[j]? = ps[m]?))

/-- Every distance that is folded is the number of calls since the preceding one for the page. -/
def Folds (reusePageSize : ℕ) (pc : ℤ) (vaddrs : List ℕ) : Prop :=
  ∀ k d, (track reusePageSize pc vaddrs).2[k]? = some (some d) →
    ∃ m, Preceding (pages reusePageSize vaddrs) m k ∧ d.toNat = k - m

variable {reusePageSize vaddr p m k : ℕ} {pc : ℤ} {vaddrs ps : List ℕ} {s : State} {d : UInt64}

/-- Call `m` is the last one that is about page `p`. -/
def Last (ps : List ℕ) (p m : ℕ) : Prop := ps[m]? = some p ∧ ∀ j, m < j → ps[j]? ≠ some p

/-- The last access to a page is one of the accesses. -/
lemma Last.lt (h : Last ps p m) : m < ps.length := (List.getElem?_eq_some_iff.mp h.1).1

/-- The page of one more access has been accessed last with it. -/
lemma last_concat_self : Last (ps ++ [p]) p m ↔ m = ps.length := by
  constructor
  · intro h
    have bound := h.lt
    rw [List.length_append, List.length_singleton] at bound
    rcases Nat.lt_succ_iff_lt_or_eq.mp bound with lt | e
    · exact absurd (List.getElem?_concat_length (l := ps)) (h.2 ps.length lt)
    · exact e
  · rintro rfl
    refine ⟨List.getElem?_concat_length, fun j lt => ?_⟩
    rw [List.getElem?_eq_none]
    · exact fun e => by cases e
    · rw [List.length_append, List.length_singleton]
      exact lt

/-- The last access to another page stays the last one. -/
lemma last_concat_of_ne {q : ℕ} (ne : p ≠ q) : Last (ps ++ [q]) p m ↔ Last ps p m := by
  have look : ∀ j : ℕ, (ps ++ [q])[j]? = some p ↔ ps[j]? = some p := by
    intro j
    rw [List.getElem?_append]
    split
    case isTrue => exact Iff.rfl
    case isFalse past =>
      rw [List.getElem?_eq_none (Nat.le_of_not_lt past)]
      refine iff_of_false (fun e => ne ?_) (fun e => by cases e)
      exact (List.mem_singleton.mp (List.mem_of_getElem? e))
  exact and_congr (look m) (forall_congr' fun j => imp_congr_right fun _ => not_congr (look j))

/-- A page that has been accessed has a last access. -/
lemma exists_last (mem : p ∈ ps) : ∃ m, Last ps p m := by
  induction ps using List.reverseRecOn with
  | nil => cases mem
  | append_singleton ps q ih =>
    by_cases same : p = q
    · subst same
      exact ⟨ps.length, last_concat_self.mpr rfl⟩
    · have old : p ∈ ps := (List.mem_append.mp mem).resolve_right fun h => same (List.mem_singleton.mp h)
      obtain ⟨m, h⟩ := ih old
      exact ⟨m, (last_concat_of_ne same).mpr h⟩

/-- Calls that come later do not matter. -/
lemma getElem?_take_append {qs : List ℕ} (lt : k < ps.length) : (ps ++ qs)[k]? = ps[k]? :=
  List.getElem?_append_left lt

/-- Whether a page has been seen at an access does not depend on what comes after. -/
lemma seen_append {qs : List ℕ} (lt : m < ps.length) : Seen (ps ++ qs) m ↔ Seen ps m := by
  refine exists_congr fun j => and_congr_right fun before => ?_
  rw [getElem?_take_append lt, getElem?_take_append (Nat.lt_trans before lt)]

/-- A page has been seen at one more access if it is one of those before. -/
lemma seen_concat : Seen (ps ++ [p]) ps.length ↔ p ∈ ps := by
  rw [Seen, List.getElem?_concat_length, List.mem_iff_getElem?]
  constructor
  · rintro ⟨j, lt, e⟩
    rw [getElem?_take_append lt] at e
    exact ⟨j, e⟩
  · rintro ⟨j, e⟩
    have lt := (List.getElem?_eq_some_iff.mp e).1
    exact ⟨j, lt, by rwa [getElem?_take_append lt]⟩

/-- The access before an access does not depend on what comes after. -/
lemma preceding_append {qs : List ℕ} (lt : k < ps.length) : Preceding (ps ++ qs) m k ↔ Preceding ps m k := by
  rw [Preceding, Preceding, getElem?_take_append lt]
  constructor
  · rintro ⟨before, _, same, between⟩
    rw [getElem?_take_append (Nat.lt_trans before lt)] at same
    refine ⟨before, lt, same, fun j h h' => ?_⟩
    have none := between j h h'
    rwa [getElem?_take_append (Nat.lt_trans h' lt)] at none
  · rintro ⟨before, _, same, between⟩
    refine ⟨before, ?_, ?_, fun j h h' => ?_⟩
    · rw [List.length_append]
      exact Nat.lt_add_right _ lt
    · rwa [getElem?_take_append (Nat.lt_trans before lt)]
    · rw [getElem?_take_append (Nat.lt_trans h' lt)]
      exact between j h h'

/-- The access before one more access is the last one of its page. -/
lemma preceding_concat : Preceding (ps ++ [p]) m ps.length ↔ Last ps p m := by
  rw [Preceding, Last, List.getElem?_concat_length]
  constructor
  · rintro ⟨lt, _, same, between⟩
    rw [getElem?_take_append lt] at same
    refine ⟨same, fun j h e => ?_⟩
    have bound := (List.getElem?_eq_some_iff.mp e).1
    exact between j h bound (by rwa [getElem?_take_append bound])
  · rintro ⟨here, after⟩
    have lt := (List.getElem?_eq_some_iff.mp here).1
    refine ⟨lt, ?_, by rwa [getElem?_take_append lt], fun j h h' => ?_⟩
    · rw [List.length_append, List.length_singleton]
      exact Nat.lt_succ_self _
    · rw [getElem?_take_append h']
      exact after j h

/-- The number that the entry of a page has after call `m`: 0 if that was the cold one. -/
def stamp (ps : List ℕ) (m : ℕ) : UInt64 := if Seen ps m then .ofNat m else 0

/-- The entries after calls for these pages. -/
structure Tracks (pc : ℤ) (ps : List ℕ) (s : State) : Prop where
  num : (s.accessNumMap.find pc).getD 0 = .ofNat ps.length
  cold : ∀ p, p ∉ ps → s.reuseMap.find p = none
  warm : ∀ p m, Last ps p m → ∃ e, s.reuseMap.find p = some e ∧ e.accessNum = stamp ps m

/-- The empty maps are right for no access. -/
lemma Tracks.empty : Tracks pc [] .empty where
  num := rfl
  cold _ _ := rfl
  warm _ _ h := absurd h.lt (Nat.not_lt_zero _)

/-- Folding a distance in leaves the number of the last access alone. -/
@[simp] lemma Entry.fold_accessNum (e : Entry) (d : UInt64) : (e.fold d).accessNum = e.accessNum := by
  rw [Entry.fold]
  dsimp only
  split <;> rfl

/-- The counter goes on with one more access. -/
lemma ofNat_length_succ : UInt64.ofNat ps.length + 1 = .ofNat (ps ++ [p]).length := by
  rw [List.length_append, List.length_singleton, UInt64.ofNat_add]
  rfl

/-- An entry is written with the number that the page has afterwards. -/
lemma Tracks.write {e : Entry} {map : UnorderedMap ℕ Entry} (h : Tracks pc ps s)
    (own : e.accessNum = stamp (ps ++ [p]) ps.length) (written : map = s.reuseMap.set p e) :
    Tracks pc (ps ++ [p]) ⟨s.accessNumMap.set pc ((s.accessNumMap.find pc).getD 0 + 1), map⟩ where
  num := by
    rw [UnorderedMap.find_set, if_pos rfl, Option.getD_some, h.num, ofNat_length_succ]
  cold q new := by
    rw [List.mem_append, not_or, List.mem_singleton] at new
    rw [written, UnorderedMap.find_set, if_neg new.2]
    exact h.cold q new.1
  warm q m last := by
    rw [written, UnorderedMap.find_set]
    by_cases same : q = p
    · subst same
      obtain rfl := last_concat_self.mp last
      exact ⟨e, if_pos rfl, own⟩
    · have old := (last_concat_of_ne same).mp last
      obtain ⟨e', found, num⟩ := h.warm q m old
      refine ⟨e', by rw [if_neg same, found], ?_⟩
      rw [num, stamp, stamp]
      exact if_congr (seen_append old.lt).symm rfl rfl

/-- One call: nothing is folded on a cold access, and the distance from the number in the entry on another. -/
lemma Tracks.trackAccess (h : Tracks pc ps s) (reusePageSize vaddr : ℕ) :
    Tracks pc (ps ++ [vaddr / reusePageSize]) (trackAccess reusePageSize s vaddr pc).1 ∧
      ∀ d, (Reuse.trackAccess reusePageSize s vaddr pc).2 = some d ↔
        ∃ m, Last ps (vaddr / reusePageSize) m ∧ d = UInt64.ofNat ps.length - stamp ps m := by
  rw [Reuse.trackAccess]
  dsimp only
  by_cases mem : vaddr / reusePageSize ∈ ps
  · obtain ⟨m, last⟩ := exists_last mem
    obtain ⟨e, found, num⟩ := h.warm _ m last
    rw [found]
    constructor
    · refine h.write ?_ rfl
      rw [Entry.fold_accessNum, h.num, stamp, if_pos (seen_concat.mpr mem)]
    · intro d
      show some (_ - e.accessNum) = some d ↔ _
      rw [h.num, num, Option.some.injEq]
      constructor
      · rintro rfl
        exact ⟨m, last, rfl⟩
      · rintro ⟨m', last', rfl⟩
        obtain rfl : m = m' := by
          rcases Nat.lt_trichotomy m m' with lt | e | gt
          · exact absurd last'.1 (last.2 _ lt)
          · exact e
          · exact absurd last.1 (last'.2 _ gt)
        rfl
  · rw [h.cold _ mem]
    constructor
    · refine h.write ?_ rfl
      rw [stamp, if_neg (mt seen_concat.mp mem)]
    · intro d
      refine iff_of_false (fun e => by cases e) ?_
      rintro ⟨m, last, _⟩
      exact mem (List.mem_of_getElem? last.1)

/-- One more access is one more step. -/
lemma track_snoc : track reusePageSize pc (vaddrs ++ [vaddr]) =
    let (s, dists) := track reusePageSize pc vaddrs
    let (s, dist) := trackAccess reusePageSize s vaddr pc
    (s, dists ++ [dist]) := by
  rw [track, List.foldl_append]
  rfl

/-- A distance is the number of the call less the one in the entry. -/
lemma tracks_track (reusePageSize : ℕ) (pc : ℤ) (vaddrs : List ℕ) :
    Tracks pc (pages reusePageSize vaddrs) (track reusePageSize pc vaddrs).1 ∧
      (track reusePageSize pc vaddrs).2.length = vaddrs.length ∧
      ∀ k d, (track reusePageSize pc vaddrs).2[k]? = some (some d) ↔
        ∃ m, Preceding (pages reusePageSize vaddrs) m k ∧
          d = UInt64.ofNat k - stamp (pages reusePageSize vaddrs) m := by
  induction vaddrs using List.reverseRecOn with
  | nil =>
    refine ⟨Tracks.empty, rfl, fun k d => iff_of_false (fun e => by cases e) ?_⟩
    rintro ⟨m, ⟨_, lt, _⟩, _⟩
    exact Nat.not_lt_zero _ lt
  | append_singleton vaddrs vaddr ih =>
    obtain ⟨tracks, len, dists⟩ := ih
    have lenPages : (pages reusePageSize vaddrs).length = vaddrs.length := List.length_map _
    obtain ⟨next, dist⟩ := tracks.trackAccess reusePageSize vaddr
    have snoc : pages reusePageSize (vaddrs ++ [vaddr]) =
        pages reusePageSize vaddrs ++ [vaddr / reusePageSize] := List.map_append
    rw [track_snoc, snoc]
    dsimp only
    refine ⟨next, by rw [List.length_append, len, List.length_append]; rfl, fun k d => ?_⟩
    rcases Nat.lt_trichotomy k vaddrs.length with lt | rfl | gt
    · have before : k < (pages reusePageSize vaddrs).length := by rwa [lenPages]
      rw [List.getElem?_append_left (by rwa [len]), dists]
      refine exists_congr fun m => ?_
      rw [preceding_append before]
      refine and_congr_right fun preceding => ?_
      rw [stamp, stamp, if_congr (seen_append (Nat.lt_trans preceding.1 before)) rfl rfl]
    · rw [← len, List.getElem?_concat_length, Option.some.injEq, dist, len, ← lenPages]
      refine exists_congr fun m => ?_
      rw [preceding_concat]
      refine and_congr_right fun last => ?_
      rw [stamp, stamp, if_congr (seen_append last.lt) rfl rfl]
    · refine iff_of_false (fun e => ?_) ?_
      · have lt := (List.getElem?_eq_some_iff.mp e).1
        rw [List.length_append, len, List.length_singleton] at lt
        omega
      · rintro ⟨m, ⟨_, lt, _⟩, _⟩
        rw [List.length_append, lenPages, List.length_singleton] at lt
        omega

/-- When a number in an entry gives the right distance. -/
lemma toNat_sub_stamp (lt : m < k) : (UInt64.ofNat k - stamp ps m).toNat = k - m ↔
    k - m < 2 ^ 64 ∧ (m % 2 ^ 64 = 0 ∨ Seen ps m) := by
  rw [stamp]
  split
  case isTrue seen =>
    rw [← UInt64.ofNat_sub (Nat.le_of_lt lt), UInt64.toNat_ofNat']
    constructor
    · intro e
      exact ⟨Nat.mod_eq_iff_lt (by decide) |>.mp e, .inr seen⟩
    · exact fun h => Nat.mod_eq_of_lt h.1
  case isFalse cold =>
    rw [UInt64.sub_zero, UInt64.toNat_ofNat']
    constructor
    · intro e
      have bound := Nat.mod_lt k (Nat.two_pow_pos 64)
      omega
    · rintro ⟨gap, zero | seen⟩
      · omega
      · exact absurd seen cold

/-- The distances are right if and only if no page but that of a call with the number 0 is seen a second time, as
    long as the numbers do not come round between two calls for a page. -/
theorem folds_iff (reusePageSize : ℕ) (pc : ℤ) (vaddrs : List ℕ) :
    Folds reusePageSize pc vaddrs ↔
      ∀ m k, Preceding (pages reusePageSize vaddrs) m k →
        k - m < 2 ^ 64 ∧ (m % 2 ^ 64 = 0 ∨ Seen (pages reusePageSize vaddrs) m) := by
  obtain ⟨_, _, dists⟩ := tracks_track reusePageSize pc vaddrs
  constructor
  · intro folds m k preceding
    obtain ⟨m', preceding', e⟩ := folds k _ ((dists k _).mpr ⟨m, preceding, rfl⟩)
    obtain rfl : m' = m := by
      rcases Nat.lt_trichotomy m' m with lt | e | gt
      · exact absurd preceding.2.2.1 (preceding'.2.2.2 m lt preceding.1)
      · exact e
      · exact absurd preceding'.2.2.1 (preceding.2.2.2 m' gt preceding'.1)
    exact (toNat_sub_stamp preceding.1).mp e
  · intro right k d folded
    obtain ⟨m, preceding, rfl⟩ := (dists k d).mp folded
    exact ⟨m, preceding, (toNat_sub_stamp preceding.1).mpr (right m k preceding)⟩

/-- The second access to the second page is taken for two calls after the first one. -/
theorem second_access_not_folds : ¬ Folds 4096 0 [0, 4096, 4096] := by
  intro folds
  obtain ⟨m, preceding, e⟩ := folds 2 2 rfl
  have one : m = 1 := by
    rcases Nat.lt_or_ge m 1 with lt | ge
    · exact absurd rfl (preceding.2.2.2 1 lt (by decide))
    · have := preceding.1
      omega
  subst one
  cases e

end PromotionCache.Reuse
