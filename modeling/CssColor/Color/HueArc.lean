import CssColor.Conversion.Cylinder

/-!
# Arcs between hues

Between two hues there are two arcs of the hue circle. A `HueArc` names the one that an
interpolation follows, and `HueArc.adjust` turns one of the hues by a full circle where that is
needed to follow it.
-/

namespace CssColor

/-- Which arc an interpolation between two hues follows. -/
inductive HueArc where
  | shorter
  | longer
  | increasing
  | decreasing
deriving DecidableEq, Repr

namespace HueArc

/-- The name of an arc. -/
def name : HueArc → String
  | shorter => "shorter"
  | longer => "longer"
  | increasing => "increasing"
  | decreasing => "decreasing"

/-- The arc of a name in any case. -/
def ofName? (name : String) : Option HueArc :=
  match name.toLower with
  | "shorter" => some shorter
  | "longer" => some longer
  | "increasing" => some increasing
  | "decreasing" => some decreasing
  | _ => none

/-- Two hues between 0 and 360, one of them raised by a full circle if the way from the first to the
second follows the arc only then. -/
def adjust {K : Type} [Number K] (arc : HueArc) (first second : K) : K × K :=
  let delta := second - first
  match arc with
  | shorter =>
    if 180.0 < delta then (first + 360.0, second)
    else if delta < -180.0 then (first, second + 360.0)
    else (first, second)
  | longer =>
    if 0.0 < delta ∧ delta < 180.0 then (first + 360.0, second)
    else if -180.0 < delta ∧ delta ≤ 0.0 then (first, second + 360.0)
    else (first, second)
  | increasing => if second < first then (first, second + 360.0) else (first, second)
  | decreasing => if first < second then (first + 360.0, second) else (first, second)

end HueArc

end CssColor
