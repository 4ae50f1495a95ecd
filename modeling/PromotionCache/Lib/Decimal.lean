import PromotionCache.Lib.Text
import Mathlib.Algebra.Order.Field.Rat

/-!
# Numbers in decimal notation

A number with a sign, digits with a point among them, and an exponent of ten: the grammar (`IsDecimal`), and the
reader of a stream, which takes as much as it can (`extractDecimal`). The reader takes what the grammar says where
white space or the end of the text comes after it (`extractDecimal_eq`).
-/

namespace PromotionCache.Lib

/-- A sign as it is written. -/
inductive Sign where
  | absent
  | plus
  | minus

namespace Sign

/-- How a sign is written. -/
def text : Sign → List Char
  | absent => []
  | plus => ['+']
  | minus => ['-']

/-- Whether it makes a number negative. -/
def negative : Sign → Bool
  | minus => true
  | _ => false

end Sign

/-- A number with its sign. -/
def applySign {α : Type*} [Neg α] (negative : Bool) (x : α) : α := if negative then -x else x

/-- The digits after a point, if there is one. -/
inductive IsFraction : List Char → List Char → Prop
  | absent : IsFraction [] []
  | present {ds} : (∀ c ∈ ds, c.isDigit = true) → IsFraction ds ('.' :: ds)

/-- An exponent of ten, if there is one. -/
inductive IsExponent : ℤ → List Char → Prop
  | absent : IsExponent 0 []
  | present {n : ℕ} {ds} (letter : Char) (s : Sign) : letter = 'e' ∨ letter = 'E' → IsNumeral n ds →
      IsExponent (applySign s.negative n) (letter :: (s.text ++ ds))

/-- A number in decimal notation. -/
inductive IsDecimal : ℚ → List Char → Prop
  | intro {n : ℕ} {e : ℤ} {fraction point exponent} (s : Sign) (whole : List Char) :
      IsNumeral n (whole ++ fraction) → IsFraction fraction point → IsExponent e exponent →
      IsDecimal (applySign s.negative (n * 10 ^ (e - fraction.length))) (s.text ++ (whole ++ (point ++ exponent)))

/-- The digits after a point, if there is one. -/
def extractFraction : List Char → List Char × List Char
  | '.' :: cs => (cs.takeWhile Char.isDigit, cs.dropWhile Char.isDigit)
  | cs => ([], cs)

/-- An exponent of ten, if its letter is there. -/
def extractExponent : List Char → Option (ℤ × List Char)
  | [] => some (0, [])
  | c :: cs =>
    if c = 'e' ∨ c = 'E' then do
      let (negative, cs) := signed cs
      let (digits, cs) ← plus Char.isDigit cs
      let n ← parseNat 10 digits
      some (applySign negative n, cs)
    else some (0, c :: cs)

/-- The number that a text says in front, after white space. -/
def extractDecimal (cs : List Char) : Option (ℚ × List Char) :=
  let (negative, cs) := signed (cs.dropWhile isSpace)
  let whole := cs.takeWhile Char.isDigit
  let (fraction, cs) := extractFraction (cs.dropWhile Char.isDigit)
  if (whole ++ fraction).isEmpty then none
  else do
    let n ← parseNat 10 (whole ++ fraction)
    let (e, cs) ← extractExponent cs
    some (applySign negative (n * 10 ^ (e - fraction.length)), cs)

/-- Here a number ends: white space comes, or nothing. -/
def Ends (cs : List Char) : Prop := ∀ c ∈ cs.head?, isSpace c = true

section
variable {cs rest ds point exponent : List Char} {q : ℚ} {e : ℤ} {s : Sign} {p : Char → Bool}

/-- A number ends at the end. -/
lemma Ends.nil : Ends [] := fun _ h => by cases h

/-- It ends at white space. -/
lemma Ends.cons {c : Char} (h : isSpace c = true) : Ends (c :: cs) := by
  intro d hd
  obtain rfl := Option.some.inj hd
  exact h

/-- A scan that does not take white space stops there. -/
lemma Ends.stops (h : Ends rest) (other : ∀ c, isSpace c = true → p c = false) : Stops p rest := fun c hc =>
  other c (h c hc)

/-- White space is no digit. -/
lemma isDigit_of_isSpace {c : Char} (h : isSpace c = true) : c.isDigit = false := by
  rw [Bool.eq_false_iff]
  intro digit
  rw [isSpace_of_isDigit digit] at h
  cases h

/-- Digits end where no digit comes. -/
lemma Ends.stops_digit (h : Ends rest) : Stops Char.isDigit rest := h.stops fun _ => isDigit_of_isSpace

/-- A text begins with no sign. -/
def NoSign (cs : List Char) : Prop := cs.head? ≠ some '+' ∧ cs.head? ≠ some '-'

/-- A sign is read as it was written. -/
lemma signed_text (plain : NoSign cs) : signed (s.text ++ cs) = (s.negative, cs) := by
  cases s with
  | plus => rfl
  | minus => rfl
  | absent =>
    rw [Sign.text, List.nil_append]
    unfold signed
    split
    · exact absurd rfl plain.2
    · exact absurd rfl plain.1
    · rfl

/-- A character that is no sign. -/
lemma noSign_cons {c : Char} (plus : c ≠ '+') (minus : c ≠ '-') : NoSign (c :: cs) :=
  ⟨fun same => plus (Option.some.inj same), fun same => minus (Option.some.inj same)⟩

/-- Digits have no sign in front. -/
lemma noSign_of_digits (ne : ds ≠ []) (digits : ∀ c ∈ ds, c.isDigit = true) : NoSign (ds ++ cs) := by
  obtain ⟨d, ds, rfl⟩ := List.exists_cons_of_ne_nil ne
  have digit := digits d List.mem_cons_self
  apply noSign_cons
  · rintro rfl
    cases digit
  · rintro rfl
    cases digit

/-- After the digits of a number its exponent comes, or white space. -/
lemma IsExponent.stops (h : IsExponent e exponent) (ends : Ends rest) (small : p 'e' = false) (capital : p 'E' = false)
    (other : ∀ c, isSpace c = true → p c = false) : Stops p (exponent ++ rest) := by
  cases h with
  | absent => exact ends.stops other
  | present _ s letter _ =>
    rcases letter with rfl | rfl
    · exact .cons small
    · exact .cons capital

/-- An exponent is read as it was written. -/
lemma extractExponent_eq (h : IsExponent e exponent) (ends : Ends rest) :
    extractExponent (exponent ++ rest) = some (e, rest) := by
  cases h with
  | absent =>
    rw [List.nil_append]
    cases rest with
    | nil => rfl
    | cons c cs =>
      have space : isSpace c = true := ends c rfl
      have other : ¬ (c = 'e' ∨ c = 'E') := by
        rintro (rfl | rfl) <;> cases space
      rw [extractExponent, if_neg other]
  | @present n ds c s letter digits =>
    have plain : NoSign (ds ++ rest) := noSign_of_digits digits.nonempty digits.digits
    rw [List.cons_append, extractExponent, if_pos letter, List.append_assoc, signed_text plain]
    simp only [plus_run digits.digits digits.nonempty ends.stops_digit, digits.value, Option.bind_eq_bind,
      Option.bind_some]

/-- So are the digits behind the point. -/
lemma extractFraction_eq (h : IsFraction ds point) (digits : Stops Char.isDigit cs) (dot : cs.head? ≠ some '.') :
    extractFraction (point ++ cs) = (ds, cs) := by
  cases h with
  | absent =>
    rw [List.nil_append]
    unfold extractFraction
    split
    · exact absurd rfl dot
    · rfl
  | present all =>
    rw [List.cons_append, extractFraction, takeWhile_run all digits, dropWhile_run all digits]

/-- In front of its exponent a number has a digit or a point. -/
lemma exists_first {whole fraction : List Char} {n : ℕ} (cs : List Char) (numeral : IsNumeral n (whole ++ fraction))
    (h : IsFraction fraction point) :
    ∃ c tail, whole ++ (point ++ cs) = c :: tail ∧ (c.isDigit = true ∨ c = '.') := by
  cases whole with
  | cons c whole => exact ⟨c, _, rfl, .inl (numeral.digits c List.mem_cons_self)⟩
  | nil =>
    cases h with
    | absent => exact absurd rfl numeral.nonempty
    | present _ => exact ⟨'.', _, rfl, .inr rfl⟩

/-- A number that the grammar says is read, with what comes after it left. -/
theorem extractDecimal_eq {text : List Char} (spaces : List Char) (h : IsDecimal q text)
    (skip : ∀ c ∈ spaces, isSpace c = true) (ends : Ends rest) :
    extractDecimal (spaces ++ (text ++ rest)) = some (q, rest) := by
  cases h with
  | @intro n e fraction point exponent s whole numeral isFraction isExponent =>
    obtain ⟨c, tail, first, digitOrPoint⟩ := exists_first (exponent ++ rest) numeral isFraction
    have plain : NoSign (whole ++ (point ++ (exponent ++ rest))) := by
      rw [first]
      apply noSign_cons
      · rintro rfl
        revert digitOrPoint
        decide
      · rintro rfl
        revert digitOrPoint
        decide
    have begins : Stops isSpace (s.text ++ (whole ++ (point ++ (exponent ++ rest)))) := by
      cases s with
      | plus => exact .cons rfl
      | minus => exact .cons rfl
      | absent =>
        rw [Sign.text, List.nil_append, first]
        rcases digitOrPoint with digit | rfl
        · exact .cons (isSpace_of_isDigit digit)
        · exact .cons rfl
    have wholeDigits : ∀ c ∈ whole, c.isDigit = true := fun c mem =>
      numeral.digits c (List.mem_append_left _ mem)
    have afterFraction : Stops Char.isDigit (exponent ++ rest) :=
      isExponent.stops ends rfl rfl fun _ => isDigit_of_isSpace
    have noPoint : (exponent ++ rest).head? ≠ some '.' := by
      have stops : Stops (· == '.') (exponent ++ rest) := isExponent.stops ends rfl rfl fun c space => by
        rw [beq_eq_false_iff_ne]
        rintro rfl
        cases space
      intro same
      exact absurd (stops '.' same) (by decide)
    have afterWhole : Stops Char.isDigit (point ++ (exponent ++ rest)) := by
      cases isFraction with
      | absent => exact afterFraction
      | present _ => exact .cons rfl
    have notEmpty : ¬ (whole ++ fraction).isEmpty = true := by
      rw [List.isEmpty_iff]
      exact numeral.nonempty
    simp only [extractDecimal, List.append_assoc, dropWhile_run skip begins, signed_text plain,
      takeWhile_run wholeDigits afterWhole, dropWhile_run wholeDigits afterWhole,
      extractFraction_eq isFraction afterFraction noPoint, if_neg notEmpty, numeral.value,
      extractExponent_eq isExponent ends, Option.bind_eq_bind, Option.bind_some]

/-- A natural number without sign, point or exponent. -/
lemma isDecimal_of_isNumeral {n : ℕ} (h : IsNumeral n cs) : IsDecimal n cs := by
  have whole : IsNumeral n (cs ++ []) := by rwa [List.append_nil]
  have decimal := IsDecimal.intro .absent cs whole .absent .absent
  simpa [applySign, Sign.negative, Sign.text] using decimal

end
end PromotionCache.Lib
