import PromotionCache.Utils.Buddyinfo

/-!
# Counting free blocks

The grammar of `/proc/buddyinfo`, and what `print_buddyinfo` makes of it. The loop over the lines ends on any text
(`printBuddyinfo_total`) and reads what the grammar says (`loop_zones`). What it adds up are the sums over the zones
only if the zones are few and what is in `num_frags` at the start happens to be right (`counts_iff`): for one node the
table keeps the zone that is read last, and for all nodes nothing is added to the result.
-/

namespace PromotionCache.Utils.Buddyinfo
open Lib Graph.EdgelistToBinary

/-- A word that fits into a `char[64]`. -/
structure Word (cs : List Char) : Prop where
  nonempty : cs ≠ []
  chars : ∀ c ∈ cs, isSpace c = false
  fits : cs.length < 64

/-- Numbers after white space. -/
inductive IsCounts : (k : ℕ) → (Fin k → UInt64) → List Char → Prop
  | nil : IsCounts 0 Fin.elim0 []
  | cons {k n ns first rest} : IsUlong n first → IsCounts k ns rest →
      IsCounts (k + 1) (Fin.cons (UInt64.ofNat n) ns) (first ++ rest)

/-- A line: the node and its number, the zone, and the free blocks of each order. -/
inductive IsZone : Zone → List Char → Prop
  | intro {node ns w b ds b' w' b'' w'' counts eol} : Word w → Blank b → IsNumeral node ds → node < 2 ^ 31 →
      Blank b' → Word w' → Blank b'' → Word w'' → IsCounts maxOrder ns counts → Blank eol →
      IsZone ⟨node, ns⟩ (w ++ (b ++ (ds ++ ',' :: (b' ++ (w' ++ (b'' ++ (w'' ++ (counts ++ eol))))))))

/-- The lines of a text. -/
inductive IsBuddyinfo : List Zone → List Char → Prop
  | nil : IsBuddyinfo [] []
  | cons {z zs line rest} : IsZone z line → IsBuddyinfo zs rest → IsBuddyinfo (z :: zs) (line ++ rest)

section
variable {k n : ℕ} {ns : Fin k → UInt64} {z : Zone} {zs : List Zone} {cs rest text behind : List Char}
  {order : ℕ} {nodeInput : ℤ} {s : Scan}

/-- No white space comes after a word has started. -/
lemma Word.stops (h : Word cs) : Stops isSpace (cs ++ rest) := by
  obtain ⟨c, w, rfl⟩ := List.exists_cons_of_ne_nil h.nonempty
  exact .cons (h.chars c List.mem_cons_self)

/-- A word is read up to the white space behind it. -/
lemma scanWord_word {b : List Char} (skip : ∀ c ∈ b, isSpace c = true) (h : Word cs) (ends : Ends rest) :
    scanWord (b ++ (cs ++ rest)) = some (cs, rest) := by
  have chars : ∀ c ∈ cs, (!isSpace c) = true := fun c mem => by rw [h.chars c mem, Bool.not_false]
  have stops : Stops (fun c => !isSpace c) rest := ends.stops fun c space => by rw [space, Bool.not_true]
  rw [scanWord, dropWhile_run skip h.stops]
  exact plus_run chars h.nonempty stops

/-- `%lu` reads a number up to its end. -/
lemma scanUlong_eq (h : IsUlong n cs) (ends : Ends rest) :
    scanUlong (cs ++ rest) = some (UInt64.ofNat n, rest) := by
  cases h with
  | @intro b ds blank numeral lt =>
    rw [List.append_assoc]
    exact scanUlong_numeral b numeral lt blank.spaces ends.stops_digit

/-- Behind counts a number ends. -/
lemma IsCounts.ends (h : IsCounts k ns cs) (ends : Ends rest) : Ends (cs ++ rest) := by
  cases h with
  | nil => exact ends
  | cons first _ =>
    rw [List.append_assoc]
    exact first.ends

/-- The counts are read as they are written. -/
lemma scanCounts_eq (h : IsCounts k ns cs) (ends : Ends rest) : scanCounts k (cs ++ rest) = some (ns, rest) := by
  induction h with
  | nil => rfl
  | cons first counts ih =>
    rw [List.append_assoc, scanCounts, scanUlong_eq first (counts.ends ends)]
    simp only [Option.bind_eq_bind, Option.bind_some, ih]

/-- A line is read, with the white space behind it. -/
lemma scanZone_line (h : IsZone z cs) : scanZone (cs ++ rest) = some (z, rest.dropWhile isSpace) := by
  cases h with
  | @intro node ns w b ds b' w' b'' w'' counts eol word blank number lt blank' word' blank'' word'' free blank₃ =>
    have first : ∀ cs, scanWord (w ++ (b ++ cs)) = some (w, b ++ cs) := fun cs =>
      scanWord_word (b := []) (by simp) word blank.ends
    have second : ∀ cs, scanInt (b ++ (ds ++ ',' :: cs)) = some ((node : ℤ), ',' :: cs) := fun cs =>
      scanInt_numeral b number lt blank.spaces (.cons (by decide))
    have comma : ∀ cs, lit [','] (',' :: cs) = some cs := lit_append [',']
    have third : ∀ cs, scanWord (b' ++ (w' ++ (b'' ++ cs))) = some (w', b'' ++ cs) := fun cs =>
      scanWord_word blank'.spaces word' blank''.ends
    have fourth := scanWord_word blank''.spaces word'' (free.ends (blank₃.ends : Ends (eol ++ rest)))
    have numbers := scanCounts_eq free (blank₃.ends : Ends (eol ++ rest))
    simp only [List.append_assoc, List.cons_append]
    rw [scanZone, first]
    simp only [Option.bind_eq_bind, Option.bind_some, second, comma, third, fourth, numbers]
    rw [List.dropWhile_append_of_pos blank₃.spaces]

/-- `%s` takes something from the text. -/
lemma scanWord_length {w : List Char} (h : scanWord cs = some (w, rest)) : rest.length < cs.length :=
  Nat.lt_of_lt_of_le (plus_length h) (List.length_dropWhile_le _ _)

/-- The counts take nothing back. -/
lemma scanCounts_length (h : scanCounts k cs = some (ns, rest)) : rest.length ≤ cs.length := by
  induction k generalizing cs with
  | zero =>
    obtain ⟨_, rfl⟩ := Prod.mk.inj (Option.some.inj h)
    exact Nat.le_refl _
  | succ k ih =>
    simp only [scanCounts, Option.bind_eq_bind, Option.bind_eq_some_iff, Prod.exists] at h
    obtain ⟨n, cs', first, ns', rest', counts, e⟩ := h
    obtain ⟨_, rfl⟩ := Prod.mk.inj (Option.some.inj e)
    exact Nat.le_trans (ih counts) (Nat.le_of_lt (scanUlong_length first))

/-- A line that is read has a character. -/
lemma scanZone_length (h : scanZone cs = some (z, rest)) : rest.length < cs.length := by
  simp only [scanZone, Option.bind_eq_bind, Option.bind_eq_some_iff, Prod.exists] at h
  obtain ⟨_, cs₁, first, _, cs₂, second, cs₃, comma, _, cs₄, third, _, cs₅, fourth, _, cs₆, counts, e⟩ := h
  obtain ⟨_, rfl⟩ := Prod.mk.inj (Option.some.inj e)
  calc (cs₆.dropWhile isSpace).length ≤ cs₆.length := List.length_dropWhile_le _ _
    _ ≤ cs₅.length := scanCounts_length counts
    _ ≤ cs₄.length := Nat.le_of_lt (scanWord_length fourth)
    _ ≤ cs₃.length := Nat.le_of_lt (scanWord_length third)
    _ ≤ cs₂.length := lit_length comma
    _ ≤ cs₁.length := Nat.le_of_lt (scanInt_length second)
    _ < cs.length := scanWord_length first

/-- The loop goes on until it stops itself or is at the end of the text. -/
lemma more_eq_true : more text s = true ↔ s.stopped = false ∧ s.off < text.length := by
  simp [more]

/-- How much is left to read. -/
def left (text : List Char) (s : Scan) : ℕ := if s.stopped then 0 else text.length - s.off

/-- A round of the loop reads something or is the last one. -/
lemma scanLine_left (goes : more text s = true) :
    ∃ t, scanLine order nodeInput text behind s = some t ∧ left text t < left text s := by
  obtain ⟨going, before⟩ := more_eq_true.mp goes
  have some : left text s = text.length - s.off := by rw [left, going, if_neg Bool.false_ne_true]
  unfold scanLine
  dsimp only
  split
  case h_1 =>
    refine ⟨_, rfl, ?_⟩
    rw [some]
    exact Nat.sub_pos_of_lt before
  case h_2 z rest found =>
    have progress := scanZone_length found
    refine ⟨_, rfl, ?_⟩
    rw [some, left, going, if_neg Bool.false_ne_true]
    dsimp only
    omega

/-- The loop over the lines ends, whatever the text is. -/
theorem printBuddyinfo_total (numFrags : Int32) (file : Option (List Char)) (behind : List Char) :
    ∃ r, printBuddyinfo order nodeInput numFrags file behind = some r := by
  unfold printBuddyinfo
  split
  case h_1 => exact ⟨_, rfl⟩
  case h_2 => exact ⟨_, rfl⟩
  case h_3 text _ =>
    have step : ∀ s, True → more text s = true → ∃ t, scanLine order nodeInput text behind s = some t ∧ True ∧
        left text t < left text s := by
      intro s _ goes
      obtain ⟨t, ht, less⟩ := scanLine_left goes
      exact ⟨t, ht, trivial, less⟩
    have start : left text ⟨0, ⟨fun _ => 0, numFrags⟩, false⟩ < text.length + 1 := Nat.lt_succ_self _
    obtain ⟨t, ht, _⟩ := whileLoop_enough (fun _ => True) (left text) trivial step start
    rw [ht]
    exact ⟨_, rfl⟩

/-- A line of a zone is not empty. -/
lemma IsZone.pos (h : IsZone z cs) : 0 < cs.length := by
  cases h with
  | intro word =>
    rw [List.length_append]
    exact Nat.add_pos_left (List.length_pos_iff.mpr word.nonempty) _

/-- A line does not begin with white space. -/
lemma IsBuddyinfo.stops (h : IsBuddyinfo zs cs) (ne : zs ≠ []) : Stops isSpace (cs ++ rest) := by
  cases h with
  | nil => exact absurd rfl ne
  | cons line _ =>
    cases line with
    | intro word =>
      simp only [List.append_assoc]
      exact word.stops

/-- The lines are read to the end, and nothing behind the text is taken for a line. -/
lemma loop_zones (order : ℕ) (nodeInput : ℤ) (behind : List Char) (h : IsBuddyinfo zs rest) (going : s.stopped = false)
    (done : zs = [] → text.length ≤ s.off)
    (here : zs ≠ [] → (text ++ behind).drop s.off = rest ++ behind ∧ s.off + rest.length = text.length) {fuel : ℕ}
    (enough : zs.length < fuel) :
    ∃ t, whileLoop (more text) (scanLine order nodeInput text behind) fuel s = some t ∧
      t.sums = zs.foldl (addZone order nodeInput) s.sums := by
  induction h generalizing s fuel with
  | nil =>
    obtain ⟨fuel, rfl⟩ := Nat.exists_eq_succ_of_ne_zero (Nat.ne_of_gt (Nat.zero_lt_of_lt enough))
    have stops : more text s = false := by
      rw [← Bool.not_eq_true, more_eq_true]
      exact fun goes => absurd (done rfl) (Nat.not_le.mpr goes.2)
    exact ⟨s, whileLoop_done stops, rfl⟩
  | @cons z zs line rest hline lines ih =>
    obtain ⟨fuel, rfl⟩ := Nat.exists_eq_succ_of_ne_zero (Nat.ne_of_gt (Nat.zero_lt_of_lt enough))
    obtain ⟨buf, len⟩ := here (List.cons_ne_nil _ _)
    have pos := hline.pos
    rw [List.append_assoc] at buf
    rw [List.length_append] at len
    have goes : more text s = true := more_eq_true.mpr ⟨going, by omega⟩
    set t : Scan :=
      { s with
        off := s.off + ((line ++ (rest ++ behind)).length - ((rest ++ behind).dropWhile isSpace).length)
        sums := addZone order nodeInput s.sums z } with ht
    have read : scanLine order nodeInput text behind s = some t := by
      rw [scanLine, buf, scanZone_line hline]
    rw [whileLoop_round goes read]
    refine ih (s := t) going ?_ ?_ (Nat.lt_of_succ_lt_succ enough)
    · rintro rfl
      cases lines
      have skipped := List.length_dropWhile_le isSpace behind
      simp only [ht, List.nil_append, List.length_append, List.length_nil] at len ⊢
      omega
    · intro ne
      have kept : (rest ++ behind).dropWhile isSpace = rest ++ behind := (lines.stops ne).dropWhile
      have off : t.off = s.off + line.length := by
        simp only [ht, kept, List.length_append]
        omega
      rw [off, ← List.drop_drop, buf, List.drop_left]
      exact ⟨rfl, by omega⟩

/-- There are no more zones than characters. -/
lemma IsBuddyinfo.length (h : IsBuddyinfo zs cs) : zs.length ≤ cs.length := by
  induction h with
  | nil => exact Nat.le_refl _
  | cons line _ ih =>
    have pos := line.pos
    rw [List.length_cons, List.length_append]
    omega

/-- What some zones add up to. -/
def sumsOf (order : ℕ) (nodeInput : ℤ) (numFrags : Int32) (zs : List Zone) : Sums :=
  zs.foldl (addZone order nodeInput) ⟨fun _ => 0, numFrags⟩

/-- What the lines add up to is printed. -/
lemma printBuddyinfo_eq (h : IsBuddyinfo zs text) (ne : zs ≠ []) (numFrags : Int32) :
    printBuddyinfo order nodeInput numFrags (some text) behind =
      some ⟨rowsOf (sumsOf order nodeInput numFrags zs).nr, (sumsOf order nodeInput numFrags zs).numFrags⟩ := by
  have len := h.length
  obtain ⟨c, cs, rfl⟩ := List.exists_cons_of_length_pos (Nat.lt_of_lt_of_le (List.length_pos_iff.mpr ne) len)
  obtain ⟨t, ht, sums⟩ := loop_zones (s := ⟨0, ⟨fun _ => 0, numFrags⟩, false⟩) order nodeInput behind h rfl
    (fun e => absurd e ne) (fun _ => ⟨rfl, Nat.zero_add _⟩) (Nat.lt_succ_of_le len)
  simp only [printBuddyinfo, ht, Option.bind_eq_bind, Option.bind_some, sums, sumsOf]

end

/-- A zone without free blocks. -/
def Zone.Empty (z : Zone) : Prop := ∀ i, z.free i = 0

/-- The zones of a node, or all. -/
def selected (nodeInput : ℤ) (zs : List Zone) : List Zone :=
  zs.filter fun z => nodeInput = -1 ∨ z.node = nodeInput

/-- The free blocks of one order. -/
def pages (zs : List Zone) (i : Fin maxOrder) : ℕ := (zs.map fun z => (z.free i).toNat).sum

/-- The blocks of `2 ^ order` pages in the free blocks of order `i`. -/
def fragmentsIn (order : ℕ) (n : Fin maxOrder → UInt64) (i : Fin maxOrder) : ℕ :=
  if order ≤ i then (n i).toNat * 2 ^ ((i : ℕ) - order) else 0

/-- The blocks of `2 ^ order` pages in all free blocks from this order on. -/
def fragments (order : ℕ) (zs : List Zone) : ℕ :=
  (zs.map fun z => ((List.finRange maxOrder).map (fragmentsIn order z.free)).sum).sum

/-- The result and the pages of the table are the sums over the zones. -/
structure Counts (order : ℕ) (nodeInput : ℤ) (zs : List Zone) (r : Report) : Prop where
  ret : r.ret.toInt = fragments order (selected nodeInput zs)
  pages : r.rows.map (fun row => (row.order, row.pages.toNat)) =
    (List.finRange maxOrder).map fun i => (i, pages (selected nodeInput zs) i)

/-- Where the sums come out right, although `num_frags` starts with what is in memory and the table keeps one zone of a
    node: something is read, what is not has no free blocks, and either all nodes are asked for, their pages fit into
    64 bits and `num_frags` is the result by chance; or one node, of which the last zone has all free blocks, and
    `num_frags` is 0 by chance. -/
def Countable (order : ℕ) (nodeInput : ℤ) (numFrags : Int32) (shown later : List Zone) : Prop :=
  shown ≠ [] ∧
    if nodeInput = -1 then
      (∀ z ∈ later, z.Empty) ∧ (∀ i, pages shown i < 2 ^ 64) ∧ numFrags.toInt = fragments order shown
    else
      (∀ z ∈ (selected nodeInput shown).dropLast ++ selected nodeInput later, z.Empty) ∧ numFrags = 0 ∧
        fragments order (selected nodeInput shown) < 2 ^ 31

section
variable {k order : ℕ} {nodeInput x : ℤ} {n : Fin maxOrder → UInt64} {nr : UInt64} {numFrags : Int32} {z : Zone}
  {zs shown later : List Zone} {i : Fin maxOrder}

/-- The addition of a term that fits into an `int`. -/
def saturate (x : ℤ) (t : ℕ) : ℤ := if x + t < 2 ^ 31 then x + t else -2 ^ 31

/-- A `double` holds small numbers as they are. -/
lemma fl_natCast {m : ℕ} (small : m < 2 ^ 53) : fl 53 m = m :=
  fl_of_representable ⟨m, 0, small, (Nat.mul_one m).symm⟩

/-- With a sign as well. -/
lemma flSigned_intCast (low : -2 ^ 53 < x) (high : x < 2 ^ 53) : flSigned 53 x = x := by
  unfold flSigned
  split
  case isTrue neg =>
    have neg : x < 0 := by exact_mod_cast neg
    have e : -(x : ℚ) = (x.natAbs : ℕ) := by
      rw [Nat.cast_natAbs, abs_of_neg neg]
      push_cast
      rfl
    rw [e, fl_natCast (by omega), ← e, neg_neg]
  case isFalse nonneg =>
    have nonneg : 0 ≤ x := by exact_mod_cast not_lt.mp nonneg
    obtain ⟨m, rfl⟩ := Int.eq_ofNat_of_zero_le nonneg
    exact fl_natCast (by omega)

/-- Truncation leaves an integer alone. -/
lemma truncate_intCast (x : ℤ) : truncate x = x := by
  unfold truncate
  split
  · exact Int.ceil_intCast x
  · exact Int.floor_intCast x

/-- The doubles are exact where the term fits into an `int`. -/
lemma addFrags_eq (small : nr.toNat * 2 ^ k < 2 ^ 31) :
    (addFrags numFrags nr k).toInt = saturate numFrags.toInt (nr.toNat * 2 ^ k) := by
  have low := numFrags.le_toInt
  have high := numFrags.toInt_lt
  have fits : nr.toNat < 2 ^ 53 := by
    have le := Nat.le_mul_of_pos_right nr.toNat (Nat.two_pow_pos k)
    omega
  have term : fl 53 (fl 53 nr.toNat * 2 ^ k) = (nr.toNat * 2 ^ k : ℕ) := by
    have e : fl 53 nr.toNat * 2 ^ k = ((nr.toNat * 2 ^ k : ℕ) : ℚ) := by
      rw [fl_natCast fits]
      push_cast
      rfl
    rw [e]
    exact fl_natCast (by omega)
  have sum : flSigned 53 (numFrags.toInt + fl 53 (fl 53 nr.toNat * 2 ^ k)) =
      ((numFrags.toInt + (nr.toNat * 2 ^ k : ℕ) : ℤ) : ℚ) := by
    rw [term, ← flSigned_intCast (x := numFrags.toInt + (nr.toNat * 2 ^ k : ℕ)) (by omega) (by omega)]
    push_cast
    rfl
  rw [addFrags, sum, toInt, truncate_intCast, saturate]
  by_cases lt : numFrags.toInt + (nr.toNat * 2 ^ k : ℕ) < 2 ^ 31
  · rw [if_pos ⟨by omega, lt⟩, if_pos lt]
    exact Int32.toInt_ofInt_of_le (by omega) lt
  · rw [if_neg (fun fits => lt fits.2), if_neg lt]
    rfl

/-- Adding nothing saturates nothing. -/
lemma saturate_zero (high : x < 2 ^ 31) : saturate x 0 = x := by
  rw [saturate, Nat.cast_zero, add_zero, if_pos high]

/-- Terms that stay within an `int`. -/
lemma foldl_saturate_fits {ts : List ℕ} (fits : x + (ts.sum : ℕ) < 2 ^ 31) :
    ts.foldl saturate x = x + (ts.sum : ℕ) := by
  induction ts generalizing x with
  | nil => exact (add_zero x).symm
  | cons t ts ih =>
    rw [List.sum_cons, Nat.cast_add, ← add_assoc] at fits ⊢
    have here : saturate x t = x + t := if_pos (by omega)
    rw [List.foldl_cons, here, ih fits]

/-- Terms that do not: the sum begins again below what they add up to. -/
lemma foldl_saturate_lt {ts : List ℕ} (beyond : 2 ^ 31 ≤ x + (ts.sum : ℕ)) (small : ts.sum < 2 ^ 31) (high : x < 2 ^ 31) :
    ts.foldl saturate x < (ts.sum : ℕ) := by
  induction ts generalizing x with
  | nil =>
    rw [List.sum_nil] at beyond
    omega
  | cons t ts ih =>
    rw [List.sum_cons] at beyond small ⊢
    rw [List.foldl_cons]
    by_cases lt : x + t < 2 ^ 31
    · have here : saturate x t = x + t := if_pos lt
      have rest := ih (x := x + t) (by omega) (by omega) lt
      rw [here]
      omega
    · have here : saturate x t = -2 ^ 31 := if_neg lt
      rw [here, foldl_saturate_fits (by omega)]
      omega

/-- The terms are what is added, if and only if nothing was there. -/
lemma foldl_saturate_eq_iff {ts : List ℕ} (small : ts.sum < 2 ^ 31) (high : x < 2 ^ 31) :
    ts.foldl saturate x = (ts.sum : ℕ) ↔ x = 0 := by
  constructor
  · intro e
    by_cases fits : x + (ts.sum : ℕ) < 2 ^ 31
    · rw [foldl_saturate_fits fits] at e
      omega
    · have less := foldl_saturate_lt (by omega) small high
      omega
  · rintro rfl
    rw [foldl_saturate_fits (by omega), zero_add]

/-- The loop over the orders adds the fragments of each. -/
lemma foldl_addOrder {is : List (Fin maxOrder)} (small : (is.map (fragmentsIn order n)).sum < 2 ^ 31) :
    (is.foldl (addOrder order n) numFrags).toInt = (is.map (fragmentsIn order n)).foldl saturate numFrags.toInt := by
  induction is generalizing numFrags with
  | nil => rfl
  | cons i is ih =>
    rw [List.map_cons, List.sum_cons] at small
    have here : (addOrder order n numFrags i).toInt = saturate numFrags.toInt (fragmentsIn order n i) := by
      unfold addOrder fragmentsIn at *
      split
      case isTrue le =>
        rw [if_pos le] at small
        exact addFrags_eq (by omega)
      case isFalse => exact (saturate_zero numFrags.toInt_lt).symm
    rw [List.foldl_cons, List.map_cons, List.foldl_cons, ih (by omega), here]

/-- An empty zone has no fragments of an order. -/
lemma fragmentsIn_empty (empty : z.Empty) : fragmentsIn order z.free i = 0 := by
  rw [fragmentsIn, empty i, UInt64.toNat_zero, Nat.zero_mul, ite_self]

/-- Nor of all orders together. -/
lemma sum_fragmentsIn_empty (order : ℕ) (empty : z.Empty) (is : List (Fin maxOrder)) :
    (is.map (fragmentsIn order z.free)).sum = 0 := by
  refine List.sum_eq_zero fun t mem => ?_
  obtain ⟨i, _, rfl⟩ := List.mem_map.mp mem
  exact fragmentsIn_empty empty

/-- A zone without free blocks adds nothing. -/
lemma foldl_addOrder_empty (empty : z.Empty) (is : List (Fin maxOrder)) :
    is.foldl (addOrder order z.free) numFrags = numFrags := by
  have zero := sum_fragmentsIn_empty order empty is
  have high := numFrags.toInt_lt
  rw [← Int32.toInt_inj, foldl_addOrder (by rw [zero]; decide), foldl_saturate_fits (by rw [zero]; omega), zero]
  exact add_zero _

/-- `-1` selects all zones. -/
lemma selected_all (zs : List Zone) : selected (-1) zs = zs :=
  List.filter_eq_self.mpr fun _ _ => decide_eq_true (.inl rfl)

/-- The zones are selected one by one. -/
lemma selected_append (zs zs' : List Zone) :
    selected nodeInput (zs ++ zs') = selected nodeInput zs ++ selected nodeInput zs' := List.filter_append _ _

/-- The pages of two lists of zones. -/
lemma pages_append (zs zs' : List Zone) (i : Fin maxOrder) : pages (zs ++ zs') i = pages zs i + pages zs' i := by
  rw [pages, List.map_append, List.sum_append, pages, pages]

/-- The fragments of two lists of zones. -/
lemma fragments_append (zs zs' : List Zone) :
    fragments order (zs ++ zs') = fragments order zs + fragments order zs' := by
  rw [fragments, List.map_append, List.sum_append, fragments, fragments]

/-- The fragments of one zone. -/
lemma fragments_singleton (z : Zone) :
    fragments order [z] = ((List.finRange maxOrder).map (fragmentsIn order z.free)).sum :=
  List.sum_singleton

/-- Zones have no free blocks if and only if no order has any. -/
lemma pages_eq_zero : (∀ i, pages zs i = 0) ↔ ∀ z ∈ zs, z.Empty := by
  constructor
  · intro zero z mem i
    have le : (z.free i).toNat ≤ pages zs i := List.le_sum_of_mem (List.mem_map_of_mem mem)
    rw [zero i, Nat.le_zero] at le
    exact UInt64.toNat_inj.mp le
  · intro empty i
    refine List.sum_eq_zero fun t mem => ?_
    obtain ⟨z, hz, rfl⟩ := List.mem_map.mp mem
    rw [empty z hz i]
    rfl

/-- Empty zones have no fragments. -/
lemma fragments_empty (empty : ∀ z ∈ zs, z.Empty) : fragments order zs = 0 := by
  refine List.sum_eq_zero fun t mem => ?_
  obtain ⟨z, hz, rfl⟩ := List.mem_map.mp mem
  exact sum_fragmentsIn_empty order (empty z hz) _

/-- For all nodes the table adds up in 64 bits, and nothing is added to the result. -/
lemma foldl_addZone_all (order : ℕ) (s : Sums) (zs : List Zone) :
    (zs.foldl (addZone order (-1)) s).numFrags = s.numFrags ∧
      ∀ i, ((zs.foldl (addZone order (-1)) s).nr i).toNat = ((s.nr i).toNat + pages zs i) % 2 ^ 64 := by
  induction zs generalizing s with
  | nil => exact ⟨rfl, fun i => (Nat.mod_eq_of_lt (s.nr i).toNat_lt).symm⟩
  | cons z zs ih =>
    obtain ⟨frags, pages'⟩ := ih (addZone order (-1) s z)
    have here : addZone order (-1) s z = { s with nr := fun i => s.nr i + z.free i } := if_neg (not_not.mpr rfl)
    rw [List.foldl_cons]
    refine ⟨?_, fun i => ?_⟩
    · rw [frags, here]
    · rw [pages' i, here]
      dsimp only
      rw [UInt64.toNat_add, Nat.mod_add_mod, Nat.add_assoc]
      rfl

/-- A zone of the node that is asked for takes the place of the one before in the table. -/
lemma addZone_node (one : nodeInput ≠ -1) (s : Sums) (here : z.node = nodeInput) : addZone order nodeInput s z =
    ⟨z.free, (List.finRange maxOrder).foldl (addOrder order z.free) s.numFrags⟩ := by
  rw [addZone, if_pos one, if_pos here]

/-- The zones of other nodes do not count. -/
lemma foldl_addZone_selected (one : nodeInput ≠ -1) (s : Sums) (zs : List Zone) :
    zs.foldl (addZone order nodeInput) s = (selected nodeInput zs).foldl (addZone order nodeInput) s := by
  induction zs generalizing s with
  | nil => rfl
  | cons z zs ih =>
    rw [List.foldl_cons, ih, selected, selected, List.filter_cons]
    by_cases here : z.node = nodeInput
    · rw [if_pos (decide_eq_true (.inr here)), List.foldl_cons]
    · have skip : addZone order nodeInput s z = s := by rw [addZone, if_pos one, if_neg here]
      have out : ¬ (nodeInput = -1 ∨ z.node = nodeInput) := not_or.mpr ⟨one, here⟩
      rw [skip, if_neg (by rw [decide_eq_true_eq]; exact out)]

/-- Zones without free blocks add nothing to the result. -/
lemma foldl_addZone_empty (one : nodeInput ≠ -1) (s : Sums) (here : ∀ z ∈ zs, z.node = nodeInput)
    (empty : ∀ z ∈ zs, z.Empty) : (zs.foldl (addZone order nodeInput) s).numFrags = s.numFrags := by
  induction zs generalizing s with
  | nil => rfl
  | cons z zs ih =>
    rw [List.foldl_cons, addZone_node one s (here z List.mem_cons_self)]
    rw [ih _ (fun z mem => here z (List.mem_cons_of_mem _ mem)) fun z mem => empty z (List.mem_cons_of_mem _ mem)]
    exact foldl_addOrder_empty (empty z List.mem_cons_self) _

/-- All nodes: the table has to hold all zones, and the result has to be there before. -/
lemma all_counts_iff :
    ((sumsOf order (-1) numFrags shown).numFrags.toInt = fragments order (shown ++ later) ∧
      ∀ i, ((sumsOf order (-1) numFrags shown).nr i).toNat = pages (shown ++ later) i) ↔
    (∀ z ∈ later, z.Empty) ∧ (∀ i, pages shown i < 2 ^ 64) ∧ numFrags.toInt = fragments order shown := by
  obtain ⟨frags, table⟩ := foldl_addZone_all order ⟨fun _ => 0, numFrags⟩ shown
  have table : ∀ i, ((sumsOf order (-1) numFrags shown).nr i).toNat = pages shown i % 2 ^ 64 := by
    intro i
    rw [sumsOf, table i, UInt64.toNat_zero, Nat.zero_add]
  have frags : (sumsOf order (-1) numFrags shown).numFrags = numFrags := frags
  simp only [table, frags, fragments_append, pages_append]
  constructor
  · rintro ⟨ret, same⟩
    have unread : ∀ i, pages later i = 0 := fun i => by
      have e := same i
      omega
    have empty := pages_eq_zero.mp unread
    rw [fragments_empty empty, Nat.add_zero] at ret
    refine ⟨empty, fun i => ?_, ret⟩
    have e := same i
    omega
  · rintro ⟨empty, small, ret⟩
    have unread := pages_eq_zero.mpr empty
    rw [fragments_empty empty, Nat.add_zero]
    refine ⟨ret, fun i => ?_⟩
    rw [unread i, Nat.mod_eq_of_lt (small i), Nat.add_zero]

/-- The zone that is read last, after others of its node. -/
lemma last_counts_iff (one : nodeInput ≠ -1) (here : ∀ y ∈ zs ++ [z], y.node = nodeInput) :
    ((sumsOf order nodeInput numFrags (zs ++ [z])).numFrags.toInt = fragments order (zs ++ [z] ++ later) ∧
      ∀ i, ((sumsOf order nodeInput numFrags (zs ++ [z])).nr i).toNat = pages (zs ++ [z] ++ later) i) ↔
    (∀ y ∈ zs ++ later, y.Empty) ∧ numFrags = 0 ∧ fragments order (zs ++ [z]) < 2 ^ 31 := by
  have sums : sumsOf order nodeInput numFrags (zs ++ [z]) = ⟨z.free, (List.finRange maxOrder).foldl
      (addOrder order z.free) (zs.foldl (addZone order nodeInput) ⟨fun _ => 0, numFrags⟩).numFrags⟩ := by
    rw [sumsOf, List.foldl_append, List.foldl_cons, List.foldl_nil,
      addZone_node one _ (here z (List.mem_append_right _ (List.mem_singleton_self z)))]
  have own : ∀ i, pages [z] i = (z.free i).toNat := fun i => List.sum_singleton
  simp only [sums, fragments_append, pages_append, own]
  -- the others have to be empty in both directions
  have others : (∀ i, (z.free i).toNat = pages zs i + (z.free i).toNat + pages later i) ↔
      ∀ y ∈ zs ++ later, y.Empty := by
    rw [← pages_eq_zero]
    simp only [pages_append]
    constructor
    · intro same i
      have e := same i
      omega
    · intro zero i
      have e := zero i
      omega
  rw [others, and_comm]
  refine and_congr_right fun empty => ?_
  have before : ∀ y ∈ zs, y.Empty := fun y mem => empty y (List.mem_append_left _ mem)
  have after : ∀ y ∈ later, y.Empty := fun y mem => empty y (List.mem_append_right _ mem)
  rw [foldl_addZone_empty one _ (fun y mem => here y (List.mem_append_left _ mem)) before, fragments_empty before,
    fragments_empty after, Nat.zero_add, Nat.add_zero, fragments_singleton]
  dsimp only
  have high := numFrags.toInt_lt
  have zero : numFrags = 0 ↔ numFrags.toInt = 0 := Int32.toInt_inj.symm
  constructor
  · intro ret
    have small : ((List.finRange maxOrder).map (fragmentsIn order z.free)).sum < 2 ^ 31 := by
      have lt := ((List.finRange maxOrder).foldl (addOrder order z.free) numFrags).toInt_lt
      omega
    rw [foldl_addOrder small, foldl_saturate_eq_iff small high] at ret
    exact ⟨zero.mpr ret, small⟩
  · rintro ⟨nothing, small⟩
    rw [foldl_addOrder small, foldl_saturate_eq_iff small high]
    exact zero.mp nothing

/-- One node: only the last of its zones that is read may have free blocks. -/
lemma node_counts_iff (one : nodeInput ≠ -1) (here : ∀ z ∈ zs, z.node = nodeInput) :
    ((sumsOf order nodeInput numFrags zs).numFrags.toInt = fragments order (zs ++ later) ∧
      ∀ i, ((sumsOf order nodeInput numFrags zs).nr i).toNat = pages (zs ++ later) i) ↔
    (∀ z ∈ zs.dropLast ++ later, z.Empty) ∧ numFrags = 0 ∧ fragments order zs < 2 ^ 31 := by
  rcases List.eq_nil_or_concat zs with rfl | ⟨zs, z, rfl⟩
  · have zero : numFrags = 0 ↔ numFrags.toInt = 0 := Int32.toInt_inj.symm
    constructor
    · rintro ⟨ret, same⟩
      have empty : ∀ z ∈ later, z.Empty := pages_eq_zero.mp fun i => (same i).symm
      rw [List.nil_append, fragments_empty empty] at ret
      exact ⟨empty, zero.mpr ret, Nat.two_pow_pos 31⟩
    · rintro ⟨empty, nothing, _⟩
      have empty : ∀ z ∈ later, z.Empty := empty
      rw [List.nil_append, fragments_empty empty]
      exact ⟨zero.mp nothing, fun i => (pages_eq_zero.mpr empty i).symm⟩
  · rw [List.concat_eq_append] at here ⊢
    rw [List.dropLast_concat]
    exact last_counts_iff one here

/-- The rows hold the counts of all orders. -/
lemma rowsOf_eq (nr : Fin maxOrder → UInt64) : (rowsOf nr).map (fun row => (row.order, row.pages.toNat)) =
    (List.finRange maxOrder).map fun i => (i, (nr i).toNat) := by
  rfl

/-- What is printed is right if and only if the sums are. -/
lemma counts_iff_sums (sums : Sums) : Counts order nodeInput zs ⟨rowsOf sums.nr, sums.numFrags⟩ ↔
    sums.numFrags.toInt = fragments order (selected nodeInput zs) ∧
      ∀ i, (sums.nr i).toNat = pages (selected nodeInput zs) i := by
  constructor
  · rintro ⟨ret, table⟩
    rw [rowsOf_eq] at table
    refine ⟨ret, fun i => ?_⟩
    exact (Prod.mk.inj (List.map_inj_left.mp table i (List.mem_finRange i))).2
  · rintro ⟨ret, table⟩
    refine ⟨ret, ?_⟩
    rw [rowsOf_eq]
    exact List.map_congr_left fun i _ => by rw [table i]

/-- What is read of a file with so many lines is counted right if and only if the zones and what is in `num_frags`
    allow it. -/
theorem counts_iff {text : List Char} (h : IsBuddyinfo shown text) (behind : List Char) :
    (∃ r, printBuddyinfo order nodeInput numFrags (some text) behind = some r ∧
      Counts order nodeInput (shown ++ later) r) ↔ Countable order nodeInput numFrags shown later := by
  by_cases none : shown = []
  · subst none
    cases h
    constructor
    · rintro ⟨r, hr, counts⟩
      obtain rfl := Option.some.inj hr
      cases counts.pages
    · exact fun countable => absurd rfl countable.1
  · rw [printBuddyinfo_eq h none]
    simp only [Option.some.injEq, exists_eq_left', counts_iff_sums, selected_append, Countable, ne_eq, none,
      not_false_eq_true, true_and]
    split
    case isTrue all =>
      subst all
      simp only [selected_all]
      exact all_counts_iff
    case isFalse one =>
      have here : ∀ z ∈ selected nodeInput shown, z.node = nodeInput := fun z mem =>
        (of_decide_eq_true (List.mem_filter.mp mem).2).resolve_left one
      have sums : sumsOf order nodeInput numFrags shown = sumsOf order nodeInput numFrags (selected nodeInput shown) :=
        foldl_addZone_selected one _ _
      rw [sums]
      exact node_counts_iff one here

end

/-- The numbers of a line, as the kernel prints them. -/
def showCounts : (k : ℕ) → (Fin k → UInt64) → List Char
  | 0, _ => []
  | k + 1, n => ([' '] ++ Nat.toDigits 10 (n 0).toNat) ++ showCounts k (Fin.tail n)

/-- A line, as the kernel prints it. -/
def showZone (node : ℕ) (name : List Char) (free : Fin maxOrder → UInt64) : List Char :=
  "Node".toList ++ ([' '] ++ (Nat.toDigits 10 node ++ ',' :: ([' '] ++ ("zone".toList ++ ([' '] ++ (name ++
    (showCounts maxOrder free ++ [' ', '\n'])))))))

/-- A check for words that can be evaluated. -/
lemma word_of {cs : List Char} (h : cs ≠ [] ∧ cs.all (fun c => !isSpace c) = true ∧ cs.length < 64) : Word cs where
  nonempty := h.1
  chars c mem := by simpa using List.all_eq_true.mp h.2.1 c mem
  fits := h.2.2

/-- What is written for counts is read as them. -/
lemma isCounts_showCounts (k : ℕ) (n : Fin k → UInt64) : IsCounts k n (showCounts k n) := by
  induction k with
  | zero =>
    rw [Subsingleton.elim n Fin.elim0]
    exact .nil
  | succ k ih =>
    have space : Blank [' '] := blank_singleton rfl
    have counts := IsCounts.cons (.intro space isNumeral_toDigits (n 0).toNat_lt) (ih (Fin.tail n))
    rwa [UInt64.ofNat_toNat, Fin.cons_self_tail] at counts

/-- What the kernel prints is a line of the grammar. -/
lemma isZone_showZone {node : ℕ} {name : List Char} (small : node < 2 ^ 31) (word : Word name)
    (free : Fin maxOrder → UInt64) : IsZone ⟨node, free⟩ (showZone node name free) := by
  have space : Blank [' '] := blank_singleton rfl
  have eol : Blank [' ', '\n'] := blank_of (by decide)
  exact .intro (word_of (by decide)) space isNumeral_toDigits small space (word_of (by decide)) space word
    (isCounts_showCounts _ _) eol

/-- One free block of order 9. -/
def huge : Fin maxOrder → UInt64 := fun i => if (i : ℕ) = 9 then 1 else 0

/-- Two zones of node 0. -/
def node0 (dma normal : Fin maxOrder → UInt64) : List Char :=
  showZone 0 "DMA".toList dma ++ (showZone 0 "Normal".toList normal ++ [])

/-- A text with two zones of node 0. -/
lemma isBuddyinfo_node0 (dma normal : Fin maxOrder → UInt64) :
    IsBuddyinfo [⟨0, dma⟩, ⟨0, normal⟩] (node0 dma normal) := by
  have small : 0 < 2 ^ 31 := Nat.two_pow_pos 31
  have first : Word "DMA".toList := word_of (by decide)
  have second : Word "Normal".toList := word_of (by decide)
  exact .cons (isZone_showZone small first dma) (.cons (isZone_showZone small second normal) .nil)

/-- Where the first zone has nothing left, the second is counted. -/
theorem counts_iff_normal : ∃ r, printBuddyinfo 9 0 0 (some (node0 (fun _ => 0) huge)) [] = some r ∧
    Counts 9 0 ([⟨0, fun _ => 0⟩, ⟨0, huge⟩] ++ []) r := by
  refine (counts_iff (isBuddyinfo_node0 _ _) []).mpr ⟨List.cons_ne_nil _ _, ?_⟩
  rw [if_neg (by decide)]
  refine ⟨?_, rfl, by decide⟩
  intro z mem
  obtain rfl : z = ⟨0, fun _ => 0⟩ := List.mem_singleton.mp mem
  exact fun _ => rfl

/-- Where both have a block, the table has only that of the second; and for all nodes the result has none. -/
theorem twoZones_not_counts : IsBuddyinfo [⟨0, huge⟩, ⟨0, huge⟩] (node0 huge huge) ∧
    (¬ ∃ r, printBuddyinfo 9 0 0 (some (node0 huge huge)) [] = some r ∧ Counts 9 0 [⟨0, huge⟩, ⟨0, huge⟩] r) ∧
    ¬ ∃ r, printBuddyinfo 9 (-1) 0 (some (node0 huge huge)) [] = some r ∧ Counts 9 (-1) [⟨0, huge⟩, ⟨0, huge⟩] r := by
  have file := isBuddyinfo_node0 huge huge
  refine ⟨file, ?_, ?_⟩
  · rw [printBuddyinfo_eq file (List.cons_ne_nil _ _)]
    rintro ⟨r, ⟨⟩, counts⟩
    have table := ((counts_iff_sums _).mp counts).2 ⟨9, by decide⟩
    revert table
    decide
  · rw [printBuddyinfo_eq file (List.cons_ne_nil _ _)]
    rintro ⟨r, ⟨⟩, counts⟩
    have ret := ((counts_iff_sums _).mp counts).1
    revert ret
    decide

end PromotionCache.Utils.Buddyinfo
