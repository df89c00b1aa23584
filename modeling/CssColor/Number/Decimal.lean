import CssColor.Number.Basic

/-!
# Decimals

A decimal is a sign, digits and a power of ten. This module rounds magnitudes to decimals, writes
decimals in positional notation and reads the numerals of style sheets. `scan` takes the longest
numeral in front of a text, and `ofText?` reads a whole text, where the point may also stand at an
end.
-/

namespace CssColor

/-- The decimal `± digits * 10 ^ exponent`. -/
structure Decimal where
  negative : Bool
  digits : Nat
  exponent : Int
deriving DecidableEq, Repr

namespace Decimal

/-! ## Rounding -/

/-- The integer nearest to `num / den`; of two nearest ones the even one. -/
def roundHalfEven (num den : Nat) : Nat :=
  let quotient := num / den
  let twice := 2 * (num % den)
  if twice < den then quotient
  else if den < twice then quotient + 1
  else quotient + quotient % 2

/-- The largest `n` with `10 ^ n ≤ m`, for positive `m`. -/
def log10 (m : Nat) : Nat :=
  if m < 10 then 0 else log10 (m / 10) + 1
termination_by m
decreasing_by omega

/-- The largest `n` with `10 ^ n ≤ magnitude`, for a positive magnitude. -/
def decade (magnitude : Rat) : Int :=
  let num := magnitude.num.natAbs
  if magnitude.den ≤ num then log10 (num / magnitude.den)
  else -(log10 ((magnitude.den - 1) / num) + 1 : Nat)

/-- The magnitude divided by a power of ten, rounded to an integer. -/
def roundAt (exponent : Int) (magnitude : Rat) : Nat :=
  match exponent with
  | .ofNat n => roundHalfEven magnitude.num.natAbs (magnitude.den * Nat.pow 10 n)
  | .negSucc n => roundHalfEven (magnitude.num.natAbs * Nat.pow 10 (n + 1)) magnitude.den

/-- The nearest decimal with the given number of places. -/
def withPlaces (places : Nat) (negative : Bool) (magnitude : Rat) : Decimal :=
  ⟨negative, roundAt (-places) magnitude, -places⟩

/-- The nearest decimal with the given number of digits, the first of them not zero. -/
def withDigits (count : Nat) (negative : Bool) (magnitude : Rat) : Decimal :=
  let exponent := decade magnitude - (count - 1 : Nat)
  let digits := roundAt exponent magnitude
  if digits < Nat.pow 10 count then ⟨negative, digits, exponent⟩
  else ⟨negative, digits / 10, exponent + 1⟩

/-! ## Writing -/

/-- Drops zeros at the end of the digits, `places` of them at most. -/
def dropZeros : Nat → Nat → Nat × Nat
  | digits, 0 => (digits, 0)
  | digits, places + 1 =>
    if digits % 10 = 0 then dropZeros (digits / 10) places else (digits, places + 1)

/-- The decimal of the same value without zeros at the end of its places. -/
def trim (d : Decimal) : Decimal :=
  match d.exponent with
  | .ofNat _ => d
  | .negSucc n =>
    let (digits, places) := dropZeros d.digits (n + 1)
    ⟨d.negative, digits, -places⟩

/-- Digits on the right of the point, with zeros in front to fill the places. -/
def placesText (places digits : Nat) : String :=
  String.ofList ((Nat.toDigits 10 digits).leftpad places '0')

/-- The magnitude in positional notation. -/
def magnitudeText (d : Decimal) : String :=
  match d.exponent with
  | .ofNat n => Nat.repr (d.digits * Nat.pow 10 n)
  | .negSucc n =>
    let unit := Nat.pow 10 (n + 1)
    Nat.repr (d.digits / unit) ++ "." ++ placesText (n + 1) (d.digits % unit)

/-- The decimal in positional notation, with its sign if it is negative. -/
def text (d : Decimal) : String :=
  if d.negative then "-" ++ d.magnitudeText else d.magnitudeText

/-! ## Reading -/

/-- The number that is nearest to the decimal. -/
def toNumber {K : Type} [Number K] (d : Decimal) : K :=
  let magnitude : K :=
    OfScientific.ofScientific d.digits (decide (d.exponent < 0)) d.exponent.natAbs
  if d.negative then -magnitude else magnitude

/-- The number written by decimal digits. -/
def ofDigits (digits : List Char) : Nat :=
  digits.foldl (fun n c => n * 10 + (c.toNat - '0'.toNat)) 0

/-- An optional sign: whether it is a minus, and the text after it. -/
def takeSign : List Char → Bool × List Char
  | '+' :: rest => (false, rest)
  | '-' :: rest => (true, rest)
  | text => (false, text)

/-- The run of digits in front, and the text after it. -/
def takeDigits (text : List Char) : List Char × List Char :=
  (text.takeWhile Char.isDigit, text.dropWhile Char.isDigit)

/-- Whether a text starts with a digit. -/
def startsWithDigit : List Char → Bool
  | c :: _ => c.isDigit
  | [] => false

/-- An optional fraction: a point and the digits after it. A point without digits is left alone. -/
def takeFraction : List Char → List Char × List Char
  | '.' :: rest => if startsWithDigit rest then takeDigits rest else ([], '.' :: rest)
  | text => ([], text)

/-- An optional exponent: a letter `e`, an optional sign and digits. The letter is left alone where
no digits follow. -/
def takeExponent : List Char → Int × List Char
  | c :: rest =>
    let (negative, afterSign) := takeSign rest
    if (c == 'e' || c == 'E') && startsWithDigit afterSign then
      let (digits, after) := takeDigits afterSign
      (if negative then -(ofDigits digits : Int) else ofDigits digits, after)
    else (0, c :: rest)
  | [] => (0, [])

/-- Whether a numeral starts the text: after an optional sign, a digit or a point and a digit. -/
def startsNumeral (text : List Char) : Bool :=
  match (takeSign text).2 with
  | '.' :: rest => startsWithDigit rest
  | rest => startsWithDigit rest

/-- The longest numeral in front of a text, and the text after it. -/
def scan (text : List Char) : Decimal × List Char :=
  let (negative, afterSign) := takeSign text
  let (whole, afterWhole) := takeDigits afterSign
  let (fraction, afterFraction) := takeFraction afterWhole
  let (exponent, rest) := takeExponent afterFraction
  (⟨negative, ofDigits (whole ++ fraction), exponent - fraction.length⟩, rest)

/-- No characters are added when a sign is taken. -/
theorem takeSign_length_le (text : List Char) : (takeSign text).2.length ≤ text.length := by
  unfold takeSign
  split <;> simp

/-- No characters are added when digits are taken. -/
theorem takeDigits_length_le (text : List Char) : (takeDigits text).2.length ≤ text.length :=
  (List.dropWhile_sublist _).length_le

/-- Where a digit stands in front, at least one is taken. -/
theorem takeDigits_length_lt {text : List Char} (h : startsWithDigit text) :
    (takeDigits text).2.length < text.length := by
  cases text with
  | nil => simp [startsWithDigit] at h
  | cons c rest =>
    have hc : c.isDigit = true := h
    simp only [takeDigits, List.dropWhile_cons_of_pos hc, List.length_cons]
    exact Nat.lt_succ_of_le (takeDigits_length_le rest)

/-- No characters are added when a fraction is taken. -/
theorem takeFraction_length_le (text : List Char) :
    (takeFraction text).2.length ≤ text.length := by
  unfold takeFraction
  split
  · split
    · exact Nat.le_succ_of_le (takeDigits_length_le _)
    · exact Nat.le_refl _
  · exact Nat.le_refl _

/-- No characters are added when an exponent is taken. -/
theorem takeExponent_length_le (text : List Char) :
    (takeExponent text).2.length ≤ text.length := by
  unfold takeExponent
  split
  · next c rest =>
    simp only
    split
    · exact Nat.le_succ_of_le
        (Nat.le_trans (takeDigits_length_le _) (takeSign_length_le rest))
    · exact Nat.le_refl _
  · exact Nat.le_refl _

/-- A numeral has one character at least. -/
theorem scan_length_lt {text : List Char} (h : startsNumeral text) :
    (scan text).2.length < text.length := by
  have hsign := takeSign_length_le text
  simp only [scan]
  refine Nat.lt_of_le_of_lt (takeExponent_length_le _) ?_
  -- A numeral has a digit in front, or one behind the point.
  simp only [startsNumeral] at h
  split at h
  · next rest heq =>
    have hpoint : takeDigits ('.' :: rest) = ([], '.' :: rest) := rfl
    rw [heq, hpoint]
    have := takeDigits_length_lt h
    simp only [takeFraction, h, ↓reduceIte]
    simp only [heq, List.length_cons] at hsign
    omega
  · have := takeDigits_length_lt h
    have := takeFraction_length_le (takeDigits (takeSign text).2).2
    omega

/-- Reads a whole text as a decimal. Beside the numerals of `scan` the point may stand before or
after all digits. -/
def ofText? (text : List Char) : Option Decimal :=
  let (negative, afterSign) := takeSign text
  let (whole, afterWhole) := takeDigits afterSign
  let (fraction, afterFraction) :=
    match afterWhole with
    | '.' :: rest => takeDigits rest
    | rest => ([], rest)
  let (exponent, rest) := takeExponent afterFraction
  if rest.isEmpty && !(whole.isEmpty && fraction.isEmpty) then
    some ⟨negative, ofDigits (whole ++ fraction), exponent - fraction.length⟩
  else none

end Decimal

end CssColor
