import PromotionCache.Lib.Text
import Mathlib.Data.List.TakeWhile

/-!
# Numbers in C

`strtol` and `strtoul` skip white space and read a sign and digits; numbers that are too large become the nearest
limit of the type. `atol` and `atoi` give 0 where there is no number, `%d` and `%lu` of `scanf` do not match there.
-/

namespace PromotionCache.Lib

/-- The number that a text begins with in base 10, its sign first, and the rest. -/
def leadingNumber (cs : List Char) : Option (Bool × Nat × List Char) := do
  let (minus, cs) := signed (cs.dropWhile isSpace)
  let (digits, rest) ← plus Char.isDigit cs
  let n ← parseNat 10 digits
  some (minus, n, rest)

/-- The result of `strtol` for a number. -/
def toLong (minus : Bool) (n : Nat) : Int :=
  if minus then max (-n) (-2 ^ 63) else min n (2 ^ 63 - 1)

/-- The result of `strtoul` for a number, which is negated in the unsigned type. -/
def toUlong (minus : Bool) (n : Nat) : UInt64 :=
  if 2 ^ 64 ≤ n then UInt64.ofNat (2 ^ 64 - 1)
  else if minus then 0 - UInt64.ofNat n else UInt64.ofNat n

/-- A `long` as an `int` -/
def toInt32 (x : Int) : Int := Int.bmod x (2 ^ 32)

/-- `atol` -/
def atol (cs : List Char) : Int :=
  match leadingNumber cs with
  | none => 0
  | some (minus, n, _) => toLong minus n

/-- `atoi` -/
def atoi (cs : List Char) : Int := toInt32 (atol cs)

/-- `%d` -/
def scanInt (cs : List Char) : Option (Int × List Char) :=
  (leadingNumber cs).map fun (minus, n, rest) => (toInt32 (toLong minus n), rest)

/-- `%lu` -/
def scanUlong (cs : List Char) : Option (UInt64 × List Char) :=
  (leadingNumber cs).map fun (minus, n, rest) => (toUlong minus n, rest)

section
variable {cs rest : List Char} {n : Nat}

/-- `atoi` returns an `int`. -/
lemma atoi_range (cs : List Char) : -2 ^ 31 ≤ atoi cs ∧ atoi cs < 2 ^ 31 := by
  have low := Int.le_bmod (x := atol cs) (m := 2 ^ 32) (by decide)
  have high := Int.bmod_lt (x := atol cs) (m := 2 ^ 32) (by decide)
  unfold atoi toInt32
  omega

/-- The conversion to `unsigned int` is modulo `2 ^ 32`. -/
lemma toNat_ofInt32 (x : Int) : ((UInt32.ofInt x).toNat : Int) = x % 2 ^ 32 := by
  rw [UInt32.ofInt, UInt32.toNat_ofNat']
  omega

/-- The conversion to `unsigned long` is modulo `2 ^ 64`. -/
lemma toNat_ofInt64 (x : Int) : ((UInt64.ofInt x).toNat : Int) = x % 2 ^ 64 := by
  rw [UInt64.ofInt, UInt64.toNat_ofNat']
  omega

/-- Reading a number takes something from the text. -/
lemma leadingNumber_length {minus : Bool} (h : leadingNumber cs = some (minus, n, rest)) : rest.length < cs.length := by
  obtain ⟨⟨digits, rest'⟩, hplus, h⟩ := Option.bind_eq_some_iff.mp h
  obtain ⟨m, _, h⟩ := Option.bind_eq_some_iff.mp h
  obtain ⟨_, h⟩ := Prod.mk.inj (Option.some.inj h)
  obtain ⟨_, rfl⟩ := Prod.mk.inj h
  calc rest'.length < (signed (cs.dropWhile isSpace)).2.length := plus_length hplus
    _ ≤ (cs.dropWhile isSpace).length := signed_length _
    _ ≤ cs.length := List.length_dropWhile_le _ _

/-- A text of digits after white space is a number. -/
lemma leadingNumber_numeral (spaces : List Char) (h : IsNumeral n cs) (skip : ∀ c ∈ spaces, isSpace c = true)
    (stops : Stops Char.isDigit rest) : leadingNumber (spaces ++ (cs ++ rest)) = some (false, n, rest) := by
  have unsigned : signed (cs ++ rest) = (false, cs ++ rest) := by
    obtain ⟨d, ds, rfl⟩ := List.exists_cons_of_ne_nil h.nonempty
    exact signed_of_isDigit (h.digits d List.mem_cons_self)
  rw [leadingNumber, dropWhile_run skip (stops_of_digits h.nonempty h.digits), unsigned]
  simp only [plus_run h.digits h.nonempty stops, Option.bind_eq_bind, Option.bind_some, h.value]

/-- `%d` skips white space and reads a numeral. -/
lemma scanInt_numeral (spaces : List Char) (h : IsNumeral n cs) (lt : n < 2 ^ 31)
    (skip : ∀ c ∈ spaces, isSpace c = true) (stops : Stops Char.isDigit rest) :
    scanInt (spaces ++ (cs ++ rest)) = some ((n : Int), rest) := by
  have fits : toLong false n = n := by
    show min (n : Int) (2 ^ 63 - 1) = n
    omega
  have same : toInt32 n = n := Int.bmod_eq_of_le (by omega) (by omega)
  rw [scanInt, leadingNumber_numeral spaces h skip stops]
  show some (toInt32 (toLong false n), rest) = _
  rw [fits, same]

/-- So does `%lu`. -/
lemma scanUlong_numeral (spaces : List Char) (h : IsNumeral n cs) (lt : n < 2 ^ 64)
    (skip : ∀ c ∈ spaces, isSpace c = true) (stops : Stops Char.isDigit rest) :
    scanUlong (spaces ++ (cs ++ rest)) = some (UInt64.ofNat n, rest) := by
  have fits : toUlong false n = UInt64.ofNat n := if_neg (Nat.not_le.mpr lt)
  rw [scanUlong, leadingNumber_numeral spaces h skip stops]
  show some (toUlong false n, rest) = _
  rw [fits]

/-- `%d` takes something from the text. -/
lemma scanInt_length {x : Int} (h : scanInt cs = some (x, rest)) : rest.length < cs.length := by
  obtain ⟨⟨minus, n, rest'⟩, found, e⟩ := Option.map_eq_some_iff.mp h
  obtain ⟨_, rfl⟩ := Prod.mk.inj e
  exact leadingNumber_length found

/-- So does `%lu`. -/
lemma scanUlong_length {x : UInt64} (h : scanUlong cs = some (x, rest)) : rest.length < cs.length := by
  obtain ⟨⟨minus, n, rest'⟩, found, e⟩ := Option.map_eq_some_iff.mp h
  obtain ⟨_, rfl⟩ := Prod.mk.inj e
  exact leadingNumber_length found

end
end PromotionCache.Lib
