import CssColor.Number.Basic

/-!
# Double precision numbers

The numbers of 64 bits as `Scalar`s. A finite one is a mantissa times a power of two, so its value
is a rational, and the nearest number to a rational is a quotient rounded once. `Float` has a single
value that is not a number; `Double` gives it a sign, which the total order shows: an operation
without an answer has the negative one, and arithmetic hands on the sign of its operand.
-/

namespace CssColor

/-- A number of 64 bits, or the sign of what is not a number. -/
inductive Double where
  | number (value : Float)
  | nan (negative : Bool)
deriving DecidableEq

namespace Double

open Float.Model

/-- The value of `mantissa * 2 ^ exponent`. -/
def scaled (mantissa : Nat) : Int → Rat
  | .ofNat n => (mantissa * Nat.pow 2 n : Nat)
  | .negSucc n => mkRat mantissa (Nat.pow 2 (n + 1))

/-- Whether a sign is the negative one. -/
def isNegativeSign : UnpackedFloat.Sign → Bool
  | .negative => true
  | .positive => false

/-- The sign that a flag stands for. -/
def signOf (negative : Bool) : UnpackedFloat.Sign := if negative then .negative else .positive

/-- The result of an operation. One without an answer gives the negative sign. -/
def ofFloat (x : Float) : Double := if x.isNaN then .nan true else .number x

/-- The number without the sign of what is not a number. -/
def toFloat : Double → Float
  | .number x => x
  | .nan _ => 0.0 / 0.0

/-- The opposite sign. -/
def opposite : Double → Double
  | .number x => .number (-x)
  | .nan negative => .nan !negative

/-- An operation on two numbers. An operand that is not a number is the result, the first one if
both are. -/
def combine (operation : Float → Float → Float) : Double → Double → Double
  | .nan negative, _ => .nan negative
  | .number _, .nan negative => .nan negative
  | .number x, .number y => ofFloat (operation x y)

/-- The value of a number of 64 bits. -/
def exact : Double → Exact
  | .nan negative => .nan negative
  | .number x =>
    match x.toModel.unpack with
    | .notANumber => .nan true
    | .infinity sign => .infinite (isNegativeSign sign)
    | .zero sign => .finite (isNegativeSign sign) 0
    | .finite sign mantissa exponent _ => .finite (isNegativeSign sign) (scaled mantissa exponent)

/-- The number of 64 bits nearest to a magnitude, an even mantissa on a tie. -/
def nearest (negative : Bool) (magnitude : Rat) : Double :=
  .number (.ofModel (.pack (
    if h : 0 < magnitude.num.natAbs then
      .div .binary64 (.finite (signOf negative) magnitude.num.natAbs 0 h)
        (.finite .positive magnitude.den 0 magnitude.den_pos)
    else .zero (signOf negative))))

/-- The length of the hypotenuse. The longer leg is taken out, so that no square overflows. -/
def hypot (a b : Float) : Float :=
  if a.isInf || b.isInf then 1.0 / 0.0
  else if a.isNaN || b.isNaN then a + b
  else
    let longer := max a.abs b.abs
    let shorter := min a.abs b.abs
    if longer == 0.0 then 0.0
    else
      let ratio := shorter / longer
      longer * (1.0 + ratio * ratio).sqrt

end Double

instance Double.instNumber : Number Double where
  add := Double.combine (· + ·)
  sub := Double.combine (· - ·)
  mul := Double.combine (· * ·)
  div := Double.combine (· / ·)
  neg := Double.opposite
  lt x y := x.toFloat < y.toFloat
  le x y := x.toFloat ≤ y.toFloat
  beq x y := x.toFloat == y.toFloat
  ofScientific digits isFraction exponent := .number (.ofScientific digits isFraction exponent)
  decLT x y := Float.decLt x.toFloat y.toFloat
  decLE x y := Float.decLe x.toFloat y.toFloat

instance Double.instScalar : Scalar Double where
  exact := Double.exact
  nearest := Double.nearest
  infinity := .number (1.0 / 0.0)
  nan := .nan false
  largest := .number 1.7976931348623157e308

instance Double.instElementary : Elementary Double where
  pow x y := .ofFloat (x.toFloat.pow y.toFloat)
  cbrt x := .ofFloat x.toFloat.cbrt
  hypot x y := .ofFloat (Double.hypot x.toFloat y.toFloat)
  atan2 y x := .ofFloat (y.toFloat.atan2 x.toFloat)
  sin x := .ofFloat x.toFloat.sin
  cos x := .ofFloat x.toFloat.cos

end CssColor
