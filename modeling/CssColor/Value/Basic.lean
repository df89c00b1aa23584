import CssColor.Calc.Expression
import CssColor.Color.HueArc
import CssColor.Color.Space

/-!
# Colour values

The tree of a colour value as it is written: keywords, hexadecimal digits, colour functions, colours
relative to an origin, and mixes of two colours.
-/

namespace CssColor

/-- A single argument of a colour function as written. -/
inductive Argument (K : Type) where
  /-- The keyword `none`. -/
  | missing
  | number (value : K)
  | percentage (value : K)
  | dimension (value : K) (unit : String)
  /-- The name of a component of the origin, in lower case. -/
  | keyword (name : String)
  | expression (tree : Expression K)
deriving DecidableEq

/-- The arguments of a colour function. -/
structure Arguments (K : Type) where
  components : Triple (Argument K)
  alpha : Option (Argument K)
deriving DecidableEq

/-- Three bytes of red, green and blue and one of alpha. -/
structure Rgba where
  red : UInt8
  green : UInt8
  blue : UInt8
  alpha : UInt8
deriving DecidableEq, Repr

/-- A colour value as written. -/
inductive ColorValue (K : Type) where
  /-- A named colour, in lower case. -/
  | named (name : String)
  | transparent
  | currentColor
  | hex (digits : Rgba)
  /-- A colour function on its own. -/
  | function (space : Space) (arguments : Arguments K)
  /-- A colour function whose arguments may name the components of an origin. -/
  | relative (origin : ColorValue K) (space : Space) (arguments : Arguments K)
  /-- A mix of two colours, each with an optional percentage. -/
  | mix (space : Space) (arc : Option HueArc) (first : ColorValue K) (firstShare : Option K)
      (second : ColorValue K) (secondShare : Option K)
deriving DecidableEq

namespace ColorValue

variable {K : Type}

/-- Whether the value is the keyword `currentcolor`. -/
def isCurrentColor : ColorValue K → Bool
  | currentColor => true
  | _ => false

end ColorValue

end CssColor
