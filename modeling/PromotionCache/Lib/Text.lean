import Mathlib.Data.List.AList
import Mathlib.Tactic.IntervalCases

/-!
# Scanning text

Scanners take what they match from the beginning of a text and leave the rest: a literal (`lit`), a run
of characters of one class (`plus`), an optional part (`opt`). They take as much as they can, which is all
that a regular expression can match where no class begins as its successor does. `parseNat` reads the
digits of a number back.
-/

namespace PromotionCache.Lib

/-- The rest of a text after a literal. -/
def lit (l cs : List Char) : Option (List Char) := cs.dropPrefix? l

/-- One or more characters of a class, and the rest. -/
def plus (p : Char → Bool) (cs : List Char) : Option (List Char × List Char) :=
  if (cs.takeWhile p).isEmpty then none else some (cs.takeWhile p, cs.dropWhile p)

/-- What is left after an optional part. -/
def opt (f : List Char → Option (List Char)) (cs : List Char) : List Char := (f cs).getD cs

/-- A text does not begin with a character of a class. -/
def Stops (p : Char → Bool) (cs : List Char) : Prop := ∀ c ∈ cs.head?, p c = false

section
variable {p : Char → Bool} {l xs cs rest : List Char} {c : Char}

/-- A literal is read where it stands. -/
@[simp] lemma lit_append (l rest : List Char) : lit l (l ++ rest) = some rest :=
  List.dropPrefix?_eq_some_iff.mpr ⟨l, rfl, beq_self_eq_true l⟩

/-- It is not read where something else stands. -/
lemma lit_eq_none (h : cs.head? ≠ l.head?) (ne : l ≠ []) : lit l cs = none := by
  cases e : lit l cs with
  | none => rfl
  | some rest =>
    obtain ⟨l', rfl, same⟩ := List.dropPrefix?_eq_some_iff.mp e
    obtain rfl := eq_of_beq same
    cases l' with
    | nil => exact absurd rfl ne
    | cons c l' => exact absurd rfl h

/-- At the end, a scan stops. -/
lemma Stops.nil : Stops p [] := fun _ h => by cases h

/-- It stops at a character that does not belong. -/
lemma Stops.cons (h : p c = false) : Stops p (c :: cs) := by
  intro d hd
  obtain rfl := Option.some.inj hd
  exact h

/-- Nothing is taken where the scan stops. -/
lemma Stops.takeWhile (h : Stops p cs) : cs.takeWhile p = [] := by
  cases cs with
  | nil => rfl
  | cons c cs => rw [List.takeWhile_cons, h c rfl]; rfl

/-- Nothing is skipped there. -/
lemma Stops.dropWhile (h : Stops p cs) : cs.dropWhile p = cs := by
  cases cs with
  | nil => rfl
  | cons c cs => rw [List.dropWhile_cons, h c rfl]; rfl

/-- A run of a class is taken up to its end. -/
lemma takeWhile_run (all : ∀ c ∈ xs, p c = true) (stops : Stops p rest) :
    (xs ++ rest).takeWhile p = xs := by
  rw [List.takeWhile_append_of_pos all, stops.takeWhile, List.append_nil]

/-- A run of characters is skipped up to its end. -/
lemma dropWhile_run (all : ∀ c ∈ xs, p c = true) (stops : Stops p rest) :
    (xs ++ rest).dropWhile p = rest := by
  rw [List.dropWhile_append_of_pos all, stops.dropWhile]

/-- A run of characters is read up to its end. -/
lemma plus_run (all : ∀ c ∈ xs, p c = true) (ne : xs ≠ []) (stops : Stops p rest) :
    plus p (xs ++ rest) = some (xs, rest) := by
  rw [plus, takeWhile_run all stops, dropWhile_run all stops, if_neg]
  rwa [List.isEmpty_iff]

/-- A run of a class has a character. -/
lemma plus_length (h : plus p cs = some (xs, rest)) : rest.length < cs.length := by
  have parts := congrArg List.length (List.takeWhile_append_dropWhile (p := p) (l := cs))
  rw [List.length_append] at parts
  unfold plus at h
  split at h
  case isTrue => cases h
  case isFalse ne =>
    obtain ⟨rfl, rfl⟩ := Prod.mk.inj (Option.some.inj h)
    have pos := List.length_pos_iff.mpr (mt List.isEmpty_iff.mpr ne)
    omega

/-- Reading a literal takes nothing back. -/
lemma lit_length (h : lit l cs = some rest) : rest.length ≤ cs.length := by
  obtain ⟨l', rfl, _⟩ := List.dropPrefix?_eq_some_iff.mp h
  rw [List.length_append]
  exact Nat.le_add_left _ _

/-- Where the scan stops, there is no run to read. -/
lemma plus_eq_none (stops : Stops p cs) : plus p cs = none := by
  rw [plus, stops.takeWhile]
  rfl

end

/-- The value of a digit, in bases up to 16. -/
def digitValue (c : Char) : Option Nat :=
  if '0' ≤ c ∧ c ≤ '9' then some (c.toNat - '0'.toNat)
  else if 'a' ≤ c ∧ c ≤ 'f' then some (c.toNat - 'a'.toNat + 10)
  else if 'A' ≤ c ∧ c ≤ 'F' then some (c.toNat - 'A'.toNat + 10)
  else none

/-- The number with these digits in base `b`. -/
def parseNat (b : Nat) (cs : List Char) : Option Nat :=
  cs.foldlM (fun n c => (digitValue c).bind fun d => if d < b then some (b * n + d) else none) 0

/-- The characters of words and of numbers in bases up to 16. -/
def isWord (c : Char) : Bool := c.isAlphanum || c = '_'

section
variable {b n d : Nat} {c : Char}

/-- The value of a digit that was printed. -/
lemma digitValue_digitChar (lt : d < 16) : digitValue d.digitChar = some d := by
  interval_cases d <;> rfl

/-- Digits belong to words. -/
lemma isWord_digitChar (lt : d < 16) : isWord d.digitChar = true := by
  interval_cases d <;> rfl

/-- A printed number consists of digits. -/
lemma mem_toDigits (lt : 1 < b) (h : c ∈ Nat.toDigits b n) : ∃ d < b, c = d.digitChar := by
  induction n using Nat.strong_induction_on with
  | _ n ih =>
    rw [Nat.toDigits_eq_if lt] at h
    split at h
    case isTrue small => exact ⟨n, small, List.mem_singleton.mp h⟩
    case isFalse big =>
      cases List.mem_append.mp h with
      | inl before => exact ih (n / b) (Nat.div_lt_self (by omega) lt) before
      | inr last => exact ⟨n % b, Nat.mod_lt n (by omega), List.mem_singleton.mp last⟩

/-- A printed number is a word. -/
lemma isWord_of_mem_toDigits (lt : 1 < b) (le : b ≤ 16) (h : c ∈ Nat.toDigits b n) :
    isWord c = true := by
  obtain ⟨d, hd, rfl⟩ := mem_toDigits lt h
  exact isWord_digitChar (Nat.lt_of_lt_of_le hd le)

/-- The digits of a number say which it is. -/
theorem parseNat_toDigits (lt : 1 < b) (le : b ≤ 16) : parseNat b (Nat.toDigits b n) = some n := by
  induction n using Nat.strong_induction_on with
  | _ n ih =>
    rw [Nat.toDigits_eq_if lt]
    split
    case isTrue small =>
      simp only [parseNat, List.foldlM_cons, List.foldlM_nil, Option.bind_eq_bind,
        digitValue_digitChar (Nat.lt_of_lt_of_le small le), Option.bind_some, if_pos small]
      exact congrArg some (by omega)
    case isFalse big =>
      have last := Nat.mod_lt n (show b > 0 by omega)
      have before := ih (n / b) (Nat.div_lt_self (by omega) lt)
      rw [parseNat] at before ⊢
      rw [List.foldlM_append, before]
      simp only [List.foldlM_cons, List.foldlM_nil, Option.bind_eq_bind,
        digitValue_digitChar (Nat.lt_of_lt_of_le last le), Option.bind_some, if_pos last]
      exact congrArg some (Nat.div_add_mod n b)

end

/-- The characters that `>>` skips. -/
def isSpace (c : Char) : Bool := c = ' ' || ('\t' ≤ c && c ≤ '\r')

/-- `>>` of a number without a sign: white space is skipped, and digits are read up to the first character
    that is none. -/
def extract (cs : List Char) : Option (Nat × List Char) := do
  let (digits, rest) ← plus Char.isDigit (cs.dropWhile isSpace)
  let n ← parseNat 10 digits
  some (n, rest)

/-- `>>` into an `unsigned long`, which fails where the number is too large. -/
def extractUlong (cs : List Char) : Option (Nat × List Char) := do
  let (n, rest) ← extract cs
  if n < 2 ^ 64 then some (n, rest) else none

section
variable {n : Nat} {rest : List Char}

/-- A digit is no white space. -/
lemma isSpace_of_isDigit {c : Char} (h : c.isDigit = true) : isSpace c = false := by
  have ⟨low, _⟩ : '0' ≤ c ∧ c ≤ '9' := by simpa [Char.isDigit, Char.le_def] using h
  have notBlank : c ≠ ' ' := by
    rintro rfl
    exact absurd low (by decide)
  have above : ¬ c ≤ '\r' := fun le => absurd (Char.le_trans low le) (by decide)
  simp [isSpace, notBlank, above]

/-- A text of digits, with the number that they say. -/
structure IsNumeral (n : Nat) (cs : List Char) : Prop where
  nonempty : cs ≠ []
  digits : ∀ c ∈ cs, c.isDigit = true
  value : parseNat 10 cs = some n

/-- A printed number is a numeral. -/
lemma isNumeral_toDigits : IsNumeral n (Nat.toDigits 10 n) where
  nonempty := Nat.toDigits_ne_nil
  digits _ mem := Nat.isDigit_of_mem_toDigits (by decide) (by decide) mem
  value := parseNat_toDigits (by decide) (by decide)

/-- No white space is in front of a digit. -/
lemma stops_of_digits {cs : List Char} (ne : cs ≠ []) (digits : ∀ c ∈ cs, c.isDigit = true) :
    Stops isSpace (cs ++ rest) := by
  intro c hc
  obtain ⟨d, ds, rfl⟩ := List.exists_cons_of_ne_nil ne
  cases hc
  exact isSpace_of_isDigit (digits _ List.mem_cons_self)

/-- A number is read, with what comes after it left. -/
lemma extract_numeral (spaces : List Char) {cs : List Char} (h : IsNumeral n cs)
    (skip : ∀ c ∈ spaces, isSpace c = true) (stops : Stops Char.isDigit rest) :
    extract (spaces ++ (cs ++ rest)) = some (n, rest) := by
  rw [extract, dropWhile_run skip (stops_of_digits h.nonempty h.digits),
    plus_run h.digits h.nonempty stops]
  simp only [Option.bind_eq_bind, Option.bind_some, h.value]

/-- `>>` skips white space and reads a numeral. -/
lemma extractUlong_numeral (spaces : List Char) {cs : List Char} (h : IsNumeral n cs) (lt : n < 2 ^ 64)
    (skip : ∀ c ∈ spaces, isSpace c = true) (stops : Stops Char.isDigit rest) :
    extractUlong (spaces ++ (cs ++ rest)) = some (n, rest) := by
  rw [extractUlong, extract_numeral spaces h skip stops]
  exact if_pos lt

/-- A number that was printed is read back. -/
lemma extractUlong_toDigits (spaces : List Char) (lt : n < 2 ^ 64)
    (skip : ∀ c ∈ spaces, isSpace c = true) (stops : Stops Char.isDigit rest) :
    extractUlong (spaces ++ (Nat.toDigits 10 n ++ rest)) = some (n, rest) :=
  extractUlong_numeral spaces isNumeral_toDigits lt skip stops

end

/-- The part of a string that a pointer to its characters still says. -/
def cString (cs : List Char) : List Char := cs.takeWhile (· ≠ Char.ofNat 0)

/-- The sign that a number may have. -/
def signed : List Char → Bool × List Char
  | '-' :: cs => (true, cs)
  | '+' :: cs => (false, cs)
  | cs => (false, cs)

/-- A number that starts with a digit has no sign. -/
lemma signed_of_isDigit {c : Char} {cs : List Char} (h : c.isDigit = true) :
    signed (c :: cs) = (false, c :: cs) := by
  unfold signed
  split
  case h_1 hc => cases hc; cases h
  case h_2 hc => cases hc; cases h
  case h_3 => rfl

/-- Reading a sign takes nothing back. -/
lemma signed_length (cs : List Char) : (signed cs).2.length ≤ cs.length := by
  unfold signed
  split
  · exact Nat.le_succ _
  · exact Nat.le_succ _
  · exact Nat.le_refl _

/-- The base that the beginning of a number says. -/
def radix : List Char → Nat × List Char
  | '0' :: x :: c :: cs =>
    if (x = 'x' ∨ x = 'X') ∧ (digitValue c).isSome then (16, c :: cs) else (8, '0' :: x :: c :: cs)
  | '0' :: cs => (8, '0' :: cs)
  | cs => (10, cs)

/-- A digit of this base. -/
def isDigitOf (b : Nat) (c : Char) : Bool := (digitValue c).any (· < b)

/-- `stoul(cs, NULL, 0)`, which raises an exception where there is no number or it is too large. -/
def stoul (cs : List Char) : Option UInt64 := do
  let (minus, cs) := signed (cs.dropWhile isSpace)
  let (base, cs) := radix cs
  let (digits, _) ← plus (isDigitOf base) cs
  let n ← parseNat base digits
  if n < 2 ^ 64 then some (if minus then 0 - UInt64.ofNat n else UInt64.ofNat n) else none

section
variable {n : Nat}

/-- A printed number does not start with a zero, unless it is one. -/
lemma head?_toDigits (pos : 0 < n) : (Nat.toDigits 10 n).head? ≠ some '0' := by
  induction n using Nat.strong_induction_on with
  | _ n ih =>
    rw [Nat.toDigits_eq_if (by decide)]
    split
    case isTrue small =>
      rw [List.head?_cons]
      interval_cases n <;> decide
    case isFalse big =>
      rw [List.head?_append_of_ne_nil _ Nat.toDigits_ne_nil]
      exact ih (n / 10) (by omega) (by omega)

/-- A number that was printed has base 10, but for zero. -/
lemma radix_toDigits (pos : 0 < n) : radix (Nat.toDigits 10 n) = (10, Nat.toDigits 10 n) := by
  have first := head?_toDigits pos
  generalize Nat.toDigits 10 n = cs at first
  unfold radix
  split
  · exact absurd rfl first
  · exact absurd rfl first
  · rfl

/-- A printed number is parsed as it was. -/
lemma parse_toDigits : (do
    let (digits, _) ← plus (isDigitOf (radix (Nat.toDigits 10 n)).1) (radix (Nat.toDigits 10 n)).2
    parseNat (radix (Nat.toDigits 10 n)).1 digits) = some n := by
  rcases Nat.eq_zero_or_pos n with rfl | pos
  · decide
  · have digits : ∀ c ∈ Nat.toDigits 10 n, isDigitOf 10 c = true := by
      intro c hc
      obtain ⟨d, lt, rfl⟩ := mem_toDigits (by decide) hc
      rw [isDigitOf, digitValue_digitChar (by omega)]
      simpa using lt
    have all := plus_run digits Nat.toDigits_ne_nil Stops.nil
    rw [List.append_nil] at all
    rw [radix_toDigits pos, all]
    exact parseNat_toDigits (b := 10) (by decide) (by decide)

/-- `stoul` of a printed number, with or without a sign. -/
lemma stoul_of_signed {cs : List Char} {minus : Bool}
    (h : signed (cs.dropWhile isSpace) = (minus, Nat.toDigits 10 n)) :
    stoul cs = if n < 2 ^ 64 then
      some (if minus then 0 - UInt64.ofNat n else UInt64.ofNat n) else none := by
  have parsed := parse_toDigits (n := n)
  obtain ⟨⟨digits, rest⟩, run, value⟩ := Option.bind_eq_some_iff.mp parsed
  rw [stoul, h]
  simp only [run, Option.bind_eq_bind, Option.bind_some, value]

/-- A number that was printed is converted back if it fits. -/
lemma stoul_toDigits :
    stoul (Nat.toDigits 10 n) = if n < 2 ^ 64 then some (UInt64.ofNat n) else none := by
  obtain ⟨c, cs, e⟩ := List.exists_cons_of_ne_nil (Nat.toDigits_ne_nil (n := n) (b := 10))
  have digit : c.isDigit = true :=
    Nat.isDigit_of_mem_toDigits (by decide) (by decide) (e ▸ List.mem_cons_self)
  have plain : signed ((Nat.toDigits 10 n).dropWhile isSpace) = (false, Nat.toDigits 10 n) := by
    rw [e, List.dropWhile_cons, isSpace_of_isDigit digit, if_neg (by decide)]
    exact signed_of_isDigit digit
  exact stoul_of_signed plain

/-- So is a negative one, modulo `2 ^ 64`. -/
lemma stoul_neg_toDigits : stoul ('-' :: Nat.toDigits 10 n) =
    if n < 2 ^ 64 then some (0 - UInt64.ofNat n) else none := by
  have minus : signed (('-' :: Nat.toDigits 10 n).dropWhile isSpace) = (true, Nat.toDigits 10 n) := rfl
  exact stoul_of_signed minus

end
end PromotionCache.Lib
