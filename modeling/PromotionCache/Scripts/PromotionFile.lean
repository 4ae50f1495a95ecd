import PromotionCache.Scripts.GetPromotions
import PromotionCache.Utils.Promotions

/-!
# The file of promotions

The access counts that `get_promotions.py` writes, whatever the limit, and the text of its file as
`read_promotions_over_time` reads it. An access count is written if a region is listed under it for the first
time, until the limit is reached.
-/

namespace PromotionCache.Scripts
open Lib Pcc

/-- A pass lists the region under this access count. -/
def ListedAt (cfg : Config) (as : List UInt64) (t base : Nat) : Prop :=
  ∃ k m, Single.Lists cfg as k m base ∧ t = word k

/-- A region is listed under this access count and no smaller one, under which fewer regions than the limit are
    listed, or none. -/
def Recorded (cfg : Config) (as : List UInt64) (limit : Int) (t : Nat) : Prop :=
  (∃ base, ListedAt cfg as t base ∧ ∀ t' < t, ¬ ListedAt cfg as t' base) ∧
    ∀ earlier : Finset Nat, earlier.Nonempty → (∀ base ∈ earlier, ∃ t' < t, ListedAt cfg as t' base) →
      (earlier.card : Int) < limit

/-- `str` of an integer -/
def str : Int → List Char
  | .ofNat n => Nat.toDigits 10 n
  | .negSucc n => '-' :: Nat.toDigits 10 (n + 1)

/-- A line of the promotion file, without the newline. -/
def promotionLine (line : Nat × Int) : List Char := str line.1 ++ ',' :: str line.2

/-- What is written into the promotion file. -/
def promotionFile (file : List (Nat × Int)) : List Char :=
  file.flatMap fun line => promotionLine line ++ ['\n']

/-- The numbers of a line fit in an `unsigned long`. -/
def Readable (line : Nat × Int) : Prop := line.1 < 2 ^ 64 ∧ line.2.natAbs < 2 ^ 64

instance (line : Nat × Int) : Decidable (Readable line) := inferInstanceAs (Decidable (_ ∧ _))

/-- The numbers of a line when they are read. -/
def recordOf (line : Nat × Int) : UInt64 × UInt64 := (UInt64.ofInt line.1, UInt64.ofInt line.2)

section
variable {limit offset : Int} {c : AList fun _ : Nat => List Nat} {unique toPromote addrs times : List Nat}
  {t : Nat}

/-- New addresses are taken until the limit is reached. -/
lemma promoteFrom_any (limit : Int) (nodup : unique.Nodup) (toPromote : List Nat) (addrs : List Nat) :
    ∃ new done, promoteFrom limit unique toPromote addrs = (unique ++ new, toPromote ++ new, done) ∧
      (unique ++ new).Nodup ∧ (∀ a ∈ new, a ∈ addrs) ∧
      (done = false → (∀ a ∈ addrs, a ∈ unique ++ new) ∧
        (new = [] ∨ ((unique ++ new).length : Int) < limit)) ∧
      (done = true → new ≠ [] ∧ limit ≤ (unique ++ new).length) := by
  induction addrs generalizing unique toPromote with
  | nil =>
    refine ⟨[], false, by simp [promoteFrom], by simpa using nodup, by simp, ?_, by simp⟩
    exact fun _ => ⟨by simp, .inl rfl⟩
  | cons addr addrs ih =>
    rw [promoteFrom]
    split
    case isTrue known =>
      obtain ⟨new, done, e, nodup', sub, going, stopped⟩ := ih nodup toPromote
      refine ⟨new, done, e, nodup', fun a mem => List.mem_cons_of_mem _ (sub a mem), ?_, stopped⟩
      intro h
      obtain ⟨all, room⟩ := going h
      exact ⟨List.forall_mem_cons.mpr ⟨List.mem_append_left _ known, all⟩, room⟩
    case isFalse fresh =>
      have nodup' : (unique ++ [addr]).Nodup :=
        List.nodup_append.mpr ⟨nodup, List.nodup_singleton _, by
          rintro a mem b hb rfl
          rw [List.mem_singleton.mp hb] at mem
          exact fresh mem⟩
      dsimp only
      split
      case isTrue full =>
        refine ⟨[addr], true, rfl, nodup', by simp, by simp, ?_⟩
        exact fun _ => ⟨by simp, full⟩
      case isFalse room =>
        obtain ⟨new, done, e, nodup'', sub, going, stopped⟩ := ih nodup' (toPromote ++ [addr])
        have assoc : unique ++ [addr] ++ new = unique ++ addr :: new := List.append_cons .. |>.symm
        rw [assoc] at e nodup'' going stopped
        refine ⟨addr :: new, done, ?_, nodup'', ?_, ?_, ?_⟩
        · rw [e, ← List.append_cons]
        · exact List.forall_mem_cons.mpr
            ⟨List.mem_cons_self, fun a mem => List.mem_cons_of_mem _ (sub a mem)⟩
        · intro h
          obtain ⟨all, room'⟩ := going h
          refine ⟨List.forall_mem_cons.mpr ⟨by simp, all⟩, .inr ?_⟩
          rcases room' with rfl | room'
          · exact Int.lt_of_not_ge room
          · exact room'
        · exact fun h => ⟨by simp, (stopped h).2⟩

/-- The first time is written if it has a new address, and the later ones if the limit is not reached there. -/
lemma mem_writeFrom_cons {time : Nat} {new : List Nat} {done : Bool}
    (e : promoteFrom limit unique [] ((c.lookup time).getD []) = (unique ++ new, [] ++ new, done)) :
    t ∈ (writeFrom limit offset c unique (time :: times)).map Prod.fst ↔
      (t = time ∧ new ≠ []) ∨
        (done = false ∧ t ∈ (writeFrom limit offset c (unique ++ new) times).map Prod.fst) := by
  rw [writeFrom, e]
  simp only [List.nil_append, List.map_append, List.mem_append, List.map_map, List.mem_map,
    List.mem_mergeSort]
  refine or_congr ?_ ?_
  · constructor
    · rintro ⟨a, mem, rfl⟩
      exact ⟨rfl, List.ne_nil_of_mem mem⟩
    · rintro ⟨rfl, ne⟩
      obtain ⟨a, mem⟩ := List.exists_mem_of_ne_nil _ ne
      exact ⟨a, mem, rfl⟩
  · cases done <;> simp

/-- The addresses that are known when a time is looked at do not reach the limit. -/
lemma card_lt_of_known {earlier : Finset Nat} (nodup : unique.Nodup)
    (room : unique = [] ∨ (unique.length : Int) < limit) (ne : earlier.Nonempty)
    (known : ∀ a ∈ earlier, a ∈ unique) : (earlier.card : Int) < limit := by
  obtain ⟨b, hb⟩ := ne
  have le : earlier.card ≤ unique.length := by
    rw [← List.toFinset_card_of_nodup nodup]
    exact Finset.card_le_card fun a mem => List.mem_toFinset.mpr (known a mem)
  rcases room with rfl | room
  · exact absurd (known b hb) List.not_mem_nil
  · omega

/-- A time is written if it has an address that is in no list before it, and the addresses in these lists do
    not reach the limit. -/
lemma mem_writeFrom_times (sorted : times.Pairwise (· < ·)) (nodup : unique.Nodup)
    (room : unique = [] ∨ (unique.length : Int) < limit) :
    t ∈ (writeFrom limit offset c unique times).map Prod.fst ↔
      (t ∈ times ∧ ∃ a ∈ (c.lookup t).getD [], a ∉ unique ∧
        ∀ t' ∈ times, t' < t → a ∉ (c.lookup t').getD []) ∧
      ∀ earlier : Finset Nat, earlier.Nonempty →
        (∀ a ∈ earlier, a ∈ unique ∨ ∃ t' ∈ times, t' < t ∧ a ∈ (c.lookup t').getD []) →
          (earlier.card : Int) < limit := by
  induction times generalizing unique with
  | nil => simp [writeFrom]
  | cons time times ih =>
    obtain ⟨first, sorted⟩ := List.pairwise_cons.mp sorted
    obtain ⟨new, done, e, nodup', sub, going, stopped⟩ :=
      promoteFrom_any limit nodup [] ((c.lookup time).getD [])
    have disjoint : ∀ a ∈ new, a ∉ unique := fun a mem known =>
      (List.nodup_append.mp nodup').2.2 a known a mem rfl
    have onward : done = false → unique ++ new = [] ∨ ((unique ++ new).length : Int) < limit := by
      intro h
      rcases (going h).2 with rfl | room'
      · simpa using room
      · exact .inr room'
    rw [mem_writeFrom_cons e]
    constructor
    · rintro (⟨rfl, ne⟩ | ⟨open', later⟩)
      · obtain ⟨a, mem⟩ := List.exists_mem_of_ne_nil _ ne
        have none : ∀ t' ∈ t :: times, ¬ t' < t := by
          intro t' mem lt
          cases List.mem_cons.mp mem with
          | inl same => omega
          | inr later => exact absurd (first t' later) (by omega)
        refine ⟨⟨List.mem_cons_self, a, sub a mem, disjoint a mem, ?_⟩, ?_⟩
        · exact fun t' mem lt => absurd lt (none t' mem)
        · intro earlier ne within
          refine card_lt_of_known nodup room ne fun a mem => ?_
          rcases within a mem with known | ⟨t', mem', lt, _⟩
          · exact known
          · exact absurd lt (none t' mem')
      · obtain ⟨all, _⟩ := going open'
        obtain ⟨⟨mem, a, listed, fresh, before⟩, few⟩ := (ih sorted nodup' (onward open')).mp later
        refine ⟨⟨List.mem_cons_of_mem _ mem, a, listed, ?_, ?_⟩, ?_⟩
        · exact fun known => fresh (List.mem_append_left _ known)
        · intro t' mem' lt listed'
          cases List.mem_cons.mp mem' with
          | inl same =>
            rw [same] at listed'
            exact fresh (all a listed')
          | inr later => exact before t' later lt listed'
        · intro earlier ne within
          refine few earlier ne fun b hb => ?_
          rcases within b hb with known | ⟨t', mem', lt, listed'⟩
          · exact .inl (List.mem_append_left _ known)
          · cases List.mem_cons.mp mem' with
            | inl same =>
              rw [same] at listed'
              exact .inl (all b listed')
            | inr later => exact .inr ⟨t', later, lt, listed'⟩
    · rintro ⟨⟨mem, a, listed, fresh, before⟩, few⟩
      cases List.mem_cons.mp mem with
      | inl same =>
        subst same
        refine .inl ⟨rfl, ?_⟩
        rintro rfl
        cases done with
        | true => exact (stopped rfl).1 rfl
        | false =>
          have known := (going rfl).1 a listed
          rw [List.append_nil] at known
          exact fresh known
      | inr later =>
        have lt := first t later
        -- addresses that are known after this time are listed before `t`
        have known : ∀ b ∈ unique ++ new,
            b ∈ unique ∨ ∃ t' ∈ time :: times, t' < t ∧ b ∈ (c.lookup t').getD [] := by
          intro b hb
          cases List.mem_append.mp hb with
          | inl known => exact .inl known
          | inr now => exact .inr ⟨time, List.mem_cons_self, lt, sub b now⟩
        have open' : done = false := by
          cases done with
          | false => rfl
          | true =>
            obtain ⟨ne, full⟩ := stopped rfl
            obtain ⟨b, hb⟩ := List.exists_mem_of_ne_nil _ ne
            have card := few (unique ++ new).toFinset
              ⟨b, List.mem_toFinset.mpr (List.mem_append_right _ hb)⟩
              fun b hb => known b (List.mem_toFinset.mp hb)
            rw [List.toFinset_card_of_nodup nodup'] at card
            omega
        refine .inr ⟨open', (ih sorted nodup' (onward open')).mpr ⟨⟨later, a, listed, ?_, ?_⟩, ?_⟩⟩
        · intro mem
          cases List.mem_append.mp mem with
          | inl known => exact fresh known
          | inr now => exact before time List.mem_cons_self lt (sub a now)
        · exact fun t' mem' => before t' (List.mem_cons_of_mem _ mem')
        · intro earlier ne within
          refine few earlier ne fun b hb => ?_
          rcases within b hb with mem | ⟨t', mem', lt', listed'⟩
          · exact known b mem
          · exact .inr ⟨t', List.mem_cons_of_mem _ mem', lt', listed'⟩

/-- Whatever the limit, a time is written if it is the first with some address, and the addresses before do not
    reach the limit. -/
theorem mem_writePromotions_times : t ∈ (writePromotions limit offset c).map Prod.fst ↔
    (∃ a ∈ (c.lookup t).getD [], ∀ t' < t, a ∉ (c.lookup t').getD []) ∧
      ∀ earlier : Finset Nat, earlier.Nonempty →
        (∀ a ∈ earlier, ∃ t' < t, a ∈ (c.lookup t').getD []) → (earlier.card : Int) < limit := by
  rw [writePromotions, mem_writeFrom_times (sortedKeys_lt c) List.nodup_nil (.inl rfl)]
  constructor
  · rintro ⟨⟨_, a, listed, _, before⟩, few⟩
    refine ⟨⟨a, listed, fun t' lt listed' => before t' (mem_sortedKeys listed') lt listed'⟩, ?_⟩
    intro earlier ne within
    refine few earlier ne fun b hb => ?_
    obtain ⟨t', lt, listed'⟩ := within b hb
    exact .inr ⟨t', mem_sortedKeys listed', lt, listed'⟩
  · rintro ⟨⟨a, listed, before⟩, few⟩
    refine ⟨⟨mem_sortedKeys listed, a, listed, List.not_mem_nil, fun t' _ => before t'⟩, ?_⟩
    intro earlier ne within
    refine few earlier ne fun b hb => ?_
    rcases within b hb with mem | ⟨t', _, lt, listed'⟩
    · exact absurd mem List.not_mem_nil
    · exact ⟨t', lt, listed'⟩

/-- The access counts of the file. -/
theorem mem_getPromotions_times {cfg : Config} {as : List UInt64} {s : Sim}
    {ostream : Float → List Char} {app : String} {lines : List (List Char)} {file : List (Nat × Int)}
    (h : Single.simulate cfg as = some s) (printable : Printable ostream s.cout)
    (logged : Logged ostream app s.cout lines)
    (made : getPromotions .cache app limit offset lines = some file) :
    t ∈ file.map Prod.fst ↔ Recorded cfg as limit t := by
  obtain ⟨c, hc, listed, _⟩ := readFile_listed h printable logged
  rw [getPromotions, hc] at made
  obtain rfl := Option.some.inj made
  rw [mem_writePromotions_times, Recorded]
  simp only [listed, ListedAt]

/-- A printed number consists of digits and a sign. -/
lemma isWord_str {x : Int} {ch : Char} (mem : ch ∈ str x) : ch = '-' ∨ isWord ch = true := by
  cases x with
  | ofNat n => exact .inr (isWord_of_mem_toDigits (by decide) (by decide) mem)
  | negSucc n =>
    cases List.mem_cons.mp mem with
    | inl minus => exact .inl minus
    | inr digit => exact .inr (isWord_of_mem_toDigits (by decide) (by decide) digit)

/-- It has no other character. -/
lemma not_mem_str {x : Int} {ch : Char} (ne : ch ≠ '-') (other : isWord ch = false) : ch ∉ str x := by
  intro mem
  rcases isWord_str mem with minus | word
  · exact ne minus
  · rw [other] at word
    cases word

/-- The lines of the file are read one by one. -/
lemma lines_promotionFile (file : List (Nat × Int)) :
    Utils.lines (promotionFile file) = file.map promotionLine := by
  have pieces : (promotionFile file).splitOn '\n' = file.map promotionLine ++ [[]] := by
    induction file with
    | nil => rfl
    | cons line file ih =>
      have none : '\n' ∉ promotionLine line := by
        rw [promotionLine, List.mem_append, List.mem_cons, not_or, not_or]
        exact ⟨not_mem_str (by decide) (by decide), by decide, not_mem_str (by decide) (by decide)⟩
      rw [promotionFile, List.flatMap_cons, List.append_assoc, List.singleton_append,
        List.splitOn_append_cons_self_of_not_mem none, ← promotionFile, ih]
      rfl
  rw [Utils.lines, pieces, List.getLast?_append_of_ne_nil _ (by simp), List.getLast?_singleton,
    if_pos rfl, List.dropLast_concat]

/-- A natural number is its own word. -/
lemma ofInt_natCast (n : Nat) : UInt64.ofInt n = UInt64.ofNat n := by
  rw [← UInt64.toNat_inj, UInt64.ofInt, UInt64.toNat_ofNat', UInt64.toNat_ofNat']
  omega

/-- What `stoul` makes of an integer that was printed: its value modulo `2 ^ 64`. -/
lemma stoul_str (x : Int) :
    stoul (str x) = if x.natAbs < 2 ^ 64 then some (UInt64.ofInt x) else none := by
  cases x with
  | ofNat n =>
    rw [str, stoul_toDigits, Int.ofNat_eq_natCast, ofInt_natCast]
    rfl
  | negSucc n =>
    have value : UInt64.ofInt (Int.negSucc n) = 0 - UInt64.ofNat (n + 1) := by
      rw [← UInt64.toNat_inj, UInt64.ofInt, UInt64.toNat_sub, UInt64.toNat_ofNat', UInt64.toNat_ofNat',
        UInt64.toNat_zero, Int.negSucc_eq]
      omega
    rw [str, stoul_neg_toDigits, value]
    rfl

/-- The numbers of a line are read back if they fit in 64 bits. -/
lemma timePage_promotionLine (line : Nat × Int) : Utils.timePage (promotionLine line) =
    if Readable line then some (recordOf line) else none := by
  have whole : cString (promotionLine line) = promotionLine line := by
    rw [cString, List.takeWhile_eq_self_iff]
    intro ch mem
    rw [decide_eq_true_eq]
    rintro rfl
    rw [promotionLine, List.mem_append, List.mem_cons] at mem
    rcases mem with mem | mem | mem
    · exact not_mem_str (by decide) (by decide) mem
    · exact absurd mem (by decide)
    · exact not_mem_str (by decide) (by decide) mem
  have fields : (promotionLine line).splitOn ',' = [str line.1, str line.2] := by
    rw [promotionLine, List.splitOn_append_cons_self_of_not_mem (not_mem_str (by decide) (by decide)),
      List.splitOn_eq_singleton (not_mem_str (by decide) (by decide))]
  rw [Utils.timePage, whole, fields]
  dsimp only
  rw [stoul_str, stoul_str, Int.natAbs_natCast]
  by_cases time : line.1 < 2 ^ 64
  · by_cases page : line.2.natAbs < 2 ^ 64
    · have readable : Readable line := ⟨time, page⟩
      rw [if_pos time, if_pos page, if_pos readable]
      rfl
    · have unreadable : ¬ Readable line := fun h => page h.2
      rw [if_pos time, if_neg page, if_neg unreadable]
      rfl
  · have unreadable : ¬ Readable line := fun h => time h.1
    rw [if_neg time, if_neg unreadable]
    rfl

/-- The file is read back if all its numbers fit. -/
lemma mapM_promotionFile (file : List (Nat × Int)) :
    (Utils.lines (promotionFile file)).mapM Utils.timePage =
      if ∀ line ∈ file, Readable line then some (file.map recordOf) else none := by
  rw [lines_promotionFile]
  induction file with
  | nil => simp
  | cons line file ih =>
    rw [List.map_cons, List.mapM_cons, ih, timePage_promotionLine]
    by_cases here : Readable line
    · rw [if_pos here]
      by_cases later : ∀ line ∈ file, Readable line
      · rw [if_pos later, if_pos (List.forall_mem_cons.mpr ⟨here, later⟩)]
        rfl
      · rw [if_neg later, if_neg fun h => later (List.forall_mem_cons.mp h).2]
        rfl
    · rw [if_neg here, if_neg fun h => here (List.forall_mem_cons.mp h).1]
      rfl

end
end PromotionCache.Scripts
