import CssColor.Number.Decimal

/-!
# Text of numbers

Numbers are written with up to six significant digits (`Scalar.text`), or with the fewest digits
that read back as the same number (`Scalar.shortestText`). `Scalar.ofText` reads a number.
-/

namespace CssColor

/-- Why a text is no number. -/
inductive NumeralError where
  | empty
  | malformed
deriving DecidableEq, Repr

/-- The wording of a failure. -/
def NumeralError.message : NumeralError → String
  | empty => "cannot parse float from empty string"
  | malformed => "invalid float literal"

namespace Scalar

variable {K : Type} [Scalar K]

/-- How many places are written of a number in the given decade: six significant digits, and six
places at most. -/
def placesOf (decade : Int) : Nat := (Min.min (5 - decade) 6).toNat

/-- A finite number with up to six significant digits and no zeros at its end. Zero has no sign. -/
def finiteText (negative : Bool) (magnitude : Rat) : String :=
  let d := (Decimal.withPlaces (placesOf (Decimal.decade magnitude)) negative magnitude).trim
  if d.digits = 0 then "0" else d.text

/-- A number as style sheets write it. -/
def text (x : K) : String :=
  match exact x with
  | .nan _ => "NaN"
  | .infinite negative => if negative then "-Infinity" else "Infinity"
  | .finite negative magnitude =>
    if magnitude = 0 then "0" else finiteText negative magnitude

/-- Of the two decimals with the given number of digits around a magnitude, the nearer one that
reads back as the number. If both do and are equally near, the greater magnitude is taken. -/
def readingBack? (x : K) (negative : Bool) (magnitude : Rat) (count : Nat) : Option Decimal :=
  let exponent := Decimal.decade magnitude - (count - 1 : Nat)
  let scaled := magnitude / (10 : Rat) ^ exponent
  let below := scaled.floor.toNat
  let isHit := fun digits => (Decimal.toNumber ⟨negative, digits, exponent⟩ : K) == x
  let belowIsNearer := decide (scaled - below < below + 1 - scaled)
  let digits? :=
    if isHit below && (belowIsNearer || !isHit (below + 1)) then some below
    else if isHit (below + 1) then some (below + 1)
    else none
  digits?.map fun digits => ⟨negative, digits, exponent⟩

/-- The decimal with the fewest digits that reads back as the number, the nearest of these.
Seventeen digits are enough for any number of 64 bits. -/
def shortest (x : K) (negative : Bool) (magnitude : Rat) : Decimal :=
  ((List.range 17).findSome? fun n => readingBack? x negative magnitude (n + 1)).getD
    (Decimal.withDigits 17 negative magnitude)

/-- A number with the fewest digits that read back, never with an exponent. -/
def shortestText (x : K) : String :=
  match exact x with
  | .nan _ => "NaN"
  | .infinite negative => if negative then "-inf" else "inf"
  | .finite negative magnitude =>
    if magnitude = 0 then (if negative then "-0" else "0")
    else (shortest x negative magnitude).trim.text

/-- Reads a number: a decimal, or the name of a non-finite value in any case, after an optional
sign. -/
def ofText (text : String) : Except NumeralError K :=
  let (negative, rest) := Decimal.takeSign text.toList
  let signed := fun x : K => if negative then -x else x
  match String.ofList (rest.map Char.toLower) with
  | "inf" | "infinity" => .ok (signed infinity)
  | "nan" => .ok (signed nan)
  | _ =>
    match Decimal.ofText? text.toList with
    | some d => .ok d.toNumber
    | none => .error (if text.isEmpty then .empty else .malformed)

end Scalar

end CssColor
