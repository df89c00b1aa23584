import CssColor.Number.Basic

/-!
# Units

Angles are measured in degrees and absolute lengths in pixels. Units are given in lower case.
-/

namespace CssColor.Unit

variable {K : Type} [Number K]

/-- An angle in degrees; none if the unit is no angle. -/
def degrees? (value : K) (unit : String) : Option K :=
  match unit with
  | "deg" => some value
  | "grad" => some (value * 0.9)
  | "rad" => some (Number.toDegrees value)
  | "turn" => some (value * 360.0)
  | _ => none

/-- An absolute length in pixels; none if the unit is no absolute length. -/
def pixels? (value : K) (unit : String) : Option K :=
  match unit with
  | "px" => some value
  | "in" => some (value * 96.0)
  | "cm" => some (value * 96.0 / 2.54)
  | "mm" => some (value * 96.0 / 25.4)
  | "q" => some (value * 96.0 / 101.6)
  | "pt" => some (value * 4.0 / 3.0)
  | "pc" => some (value * 16.0)
  | _ => none

end CssColor.Unit
