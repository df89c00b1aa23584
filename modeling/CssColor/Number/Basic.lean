/-!
# Numbers

What the colour model asks of its numbers. `Number` holds the field operations, comparisons and
decimal literals; it is all that the conversion formulas need. `Scalar` adds the view `exact`, which
reads a number as a signed rational or as one of the non-finite values, and the way back `nearest`;
printing, rounding and remainders are defined through these two. `Elementary` holds the powers,
roots and angles.

Comparisons follow the rules of floating point: a number that differs from itself is not a number,
and every order comparison with it fails.
-/

namespace CssColor

/-- Field operations, comparisons and decimal literals. -/
class Number (K : Type) extends Add K, Sub K, Mul K, Div K, Neg K, LT K, LE K, BEq K,
    OfScientific K where
  /-- The strict order can be tested. -/
  decLT : DecidableLT K
  /-- The order can be tested. -/
  decLE : DecidableLE K

instance Number.instDecidableLT {K : Type} [Number K] : DecidableLT K := Number.decLT

instance Number.instDecidableLE {K : Type} [Number K] : DecidableLE K := Number.decLE

/-- The value of a number: not a number, an infinity, or a magnitude, each with a sign. The sign
counts for a zero and for what is not a number, too. -/
inductive Exact where
  | nan (negative : Bool)
  | infinite (negative : Bool)
  | finite (negative : Bool) (magnitude : Rat)
deriving DecidableEq

/-- Numbers whose value can be read exactly, with the values that lie outside the rationals. -/
class Scalar (K : Type) extends Number K where
  /-- The value of a number. -/
  exact : K → Exact
  /-- The number nearest to a magnitude, with the given sign. -/
  nearest : Bool → Rat → K
  /-- Positive infinity. -/
  infinity : K
  /-- The value that is not a number, with the positive sign. -/
  nan : K
  /-- The largest finite number. -/
  largest : K

/-- Powers, roots and angles. Angles are in radians. -/
class Elementary (K : Type) where
  /-- The power of a base to an exponent. -/
  pow : K → K → K
  /-- The cube root. -/
  cbrt : K → K
  /-- The length of the hypotenuse. -/
  hypot : K → K → K
  /-- The angle of the point with the given ordinate and abscissa. -/
  atan2 : K → K → K
  /-- The sine. -/
  sin : K → K
  /-- The cosine. -/
  cos : K → K

namespace Number

variable {K : Type} [Number K]

/-- A number that differs from itself is not a number. -/
def isNaN (x : K) : Bool := !(x == x)

/-- The smaller of two numbers; where one is not a number, the other. -/
def min (a b : K) : K :=
  if isNaN a then b else if isNaN b then a else if b < a then b else a

/-- The larger of two numbers; where one is not a number, the other. -/
def max (a b : K) : K :=
  if isNaN a then b else if isNaN b then a else if a < b then b else a

/-- The nearest number between two bounds. What is not a number stays so. -/
def clamp (lo hi x : K) : K :=
  if x < lo then lo else if hi < x then hi else x

/-- Whether a number lies between two bounds, ends included. -/
def isBetween (lo hi x : K) : Bool := decide (lo ≤ x) && decide (x ≤ hi)

/-- The third power. -/
def cube (x : K) : K := x * x * x

/-- The sum from left to right. The empty sum is the negative zero, which adding leaves alone. -/
def sum (xs : List K) : K := xs.foldl (· + ·) (-0.0)

/-- The product from left to right. -/
def product (xs : List K) : K := xs.foldl (· * ·) 1.0

/-- The ratio of a circle's circumference to its diameter. -/
def pi : K := 3.141592653589793

/-- The base of the natural logarithm. -/
def e : K := 2.718281828459045

/-- An angle in radians as degrees. -/
def toDegrees (x : K) : K := x * 57.29577951308232

/-- An angle in degrees as radians. -/
def toRadians (x : K) : K := x * (pi / 180.0)

end Number

namespace Exact

/-- Whether the sign is negative, also that of a zero. -/
def isNegative : Exact → Bool
  | nan negative => negative
  | infinite negative => negative
  | finite negative _ => negative

/-- Whether the value is a rational. -/
def isFinite : Exact → Bool
  | finite .. => true
  | _ => false

/-- The total order of values: by size, the negative zero before the positive one. What is not a
number comes before all of them if its sign is negative, and after all of them otherwise. -/
def le : Exact → Exact → Bool
  | nan true, _ => true
  | _, nan false => true
  | nan false, _ => false
  | _, nan true => false
  | infinite true, _ => true
  | _, infinite false => true
  | infinite false, _ => false
  | _, infinite true => false
  | finite true a, finite true b => b ≤ a
  | finite true _, finite false _ => true
  | finite false _, finite true _ => false
  | finite false a, finite false b => a ≤ b

end Exact

/-- The nearest integer to a magnitude; a half goes up. -/
def roundHalfUp (magnitude : Rat) : Rat := ((magnitude + 1 / 2).floor : Int)

namespace Scalar

variable {K : Type} [Scalar K]

/-- Whether the sign is negative, also that of a zero. -/
def isNegative (x : K) : Bool := (exact x).isNegative

/-- Whether the number is neither infinite nor not a number. -/
def isFinite (x : K) : Bool := (exact x).isFinite

/-- The number without its sign. -/
def abs (x : K) : K := if isNegative x then -x else x

/-- The magnitude of `x` under the sign of `y`. -/
def withSign (x y : K) : K := if isNegative x == isNegative y then x else -x

/-- The nearest integer; a half goes away from zero. -/
def round (x : K) : K :=
  match exact x with
  | .finite negative magnitude => nearest negative (roundHalfUp magnitude)
  | _ => x

/-- The remainder of a division that truncates; it takes the sign of the dividend. -/
def remainder (x y : K) : K :=
  match exact x, exact y with
  | .finite negative a, .finite _ b =>
    if b = 0 then nan else nearest negative (a - b * ((a / b).floor : Int))
  | .finite .., .infinite _ => x
  | _, _ => nan

/-- The remainder between zero and the divisor's magnitude. -/
def modulo (x y : K) : K :=
  let r := remainder x y
  if r < 0.0 then r + abs y else r

/-- What is not a number becomes zero, and an infinity the largest number of its sign. -/
def toFinite (x : K) : K :=
  if Number.isNaN x then 0.0 else Number.clamp (-largest) largest x

/-- The integer part as a byte. What lies outside its range goes to the nearer end, and what is not
a number to zero. -/
def toByte (x : K) : UInt8 :=
  match exact x with
  | .nan _ => 0
  | .infinite negative => if negative then 0 else 255
  | .finite negative magnitude =>
    if negative then 0 else UInt8.ofNat (Nat.min 255 magnitude.floor.toNat)

/-- The number that a byte stands for. -/
def ofByte (b : UInt8) : K := nearest false b.toNat

/-- The total order of numbers, see `Exact.le`. -/
def totalLE (x y : K) : Bool := (exact x).le (exact y)

end Scalar

end CssColor
