import CssColor.Color.Basic
import CssColor.Error
import CssColor.Number.Text
import CssColor.Text.Blank

/-!
# Text of colours

Colours are written in the notation of their space (`Color.text`) or as hexadecimal digits
(`Color.hex`), and read from the texts of their components (`Color.ofComponents`). Legacy colours
are written with whole numbers and an alpha that survives a round trip through one byte.
-/

namespace CssColor

variable {K : Type} [Scalar K]

/-- The alpha of a legacy colour, rounded to a byte and written with two places, or with three where
two do not give back the same byte. -/
def legacyAlphaText (alpha : K) : String :=
  let byte := Scalar.round (Number.clamp 0.0 1.0 alpha * 255.0)
  let hundredths := Scalar.round (byte / 255.0 * 100.0) / 100.0
  if Scalar.round (hundredths * 255.0) == byte then Scalar.text hundredths
  else Scalar.text (Scalar.round (byte / 255.0 * 1000.0) / 1000.0)

/-- A component as written. -/
def componentText : Option K → String
  | some value => Scalar.text value
  | none => "none"

/-- The alpha as a suffix; an opaque colour has none. -/
def alphaSuffix : Option K → String
  | some alpha => if 1.0 ≤ alpha then "" else " / " ++ Scalar.text (Number.max alpha 0.0)
  | none => " / none"

/-- Two hexadecimal digits of a byte. -/
def hexByte (b : UInt8) : String := String.ofList ((Nat.toDigits 16 b.toNat).leftpad 2 '0')

namespace Color

variable [Elementary K]

/-- The colour as finite numbers of legacy RGB. -/
def legacyValues (color : Color K) : Color K := (color.toSpace .rgb).concrete.toFinite

/-- The colour in the legacy notation with commas. -/
def legacyText (color : Color K) : String :=
  let color := color.legacyValues
  let values := color.values.map fun value =>
    Scalar.text (Scalar.round (Number.clamp 0.0 255.0 value))
  let list := values.first ++ ", " ++ values.second ++ ", " ++ values.third
  let alpha := legacyAlphaText (color.alpha.getD 0.0)
  if alpha = "1" then "rgb(" ++ list ++ ")" else "rgba(" ++ list ++ ", " ++ alpha ++ ")"

/-- The colour in the notation of its space. -/
def text (color : Color K) : String :=
  let color := color.toFinite
  let texts := color.components.map componentText
  let list := texts.first ++ " " ++ texts.second ++ " " ++ texts.third
    ++ alphaSuffix color.alpha
  match color.space with
  | .rgb | .hsl | .hwb => color.legacyText
  | .lab | .lch | .oklab | .oklch => color.space.name ++ "(" ++ list ++ ")"
  | space => "color(" ++ space.name ++ " " ++ list ++ ")"

/-- The colour as hexadecimal digits. The alpha is written if it is asked for or not opaque. -/
def hex (withAlpha : Bool) (color : Color K) : String :=
  let color := color.legacyValues
  let bytes := color.values.map fun value =>
    hexByte (Scalar.toByte (Scalar.round (Number.clamp 0.0 255.0 value)))
  let alpha := Number.clamp 0.0 1.0 (color.alpha.getD 0.0)
  let digits := "#" ++ bytes.first ++ bytes.second ++ bytes.third
  if withAlpha || alpha != 1.0 then
    digits ++ hexByte (Scalar.toByte (Scalar.round (alpha * 255.0)))
  else digits

omit [Elementary K] in
/-- A component of a colour from its text: a finite number, or `none` in any case. -/
def componentOfText (text : String) : Except Error (Option K) :=
  let text := Text.trim text
  if Text.sameIgnoringCase text "none" then .ok none
  else
    match Scalar.ofText text with
    | .ok value => if Scalar.isFinite value then .ok (some value) else .error (.notANumber text)
    | .error _ => .error (.notANumber text)

omit [Elementary K] in
/-- The alpha of a colour from its text: between zero and one, or `none`. -/
def alphaOfText (text : String) : Except Error (Option K) := do
  match ← componentOfText text with
  | some alpha =>
    if Number.isBetween 0.0 1.0 alpha then return some alpha
    else throw (.outOfRange (Text.trim text) 0 1)
  | none => return none

omit [Elementary K] in
/-- The components of a colour from their texts. -/
def componentsOfTexts (first second third : String) : Except Error (Triple (Option K)) :=
  return ⟨← componentOfText first, ← componentOfText second, ← componentOfText third⟩

omit [Elementary K] in
/-- A colour from the texts of three components and an optional alpha. -/
def ofComponents (space : Space) : List String → Except Error (Color K)
  | [first, second, third] =>
    return ⟨space, ← componentsOfTexts first second third, some 1.0⟩
  | [first, second, third, alpha] =>
    return ⟨space, ← componentsOfTexts first second third, ← alphaOfText alpha⟩
  | texts => throw (.unexpectedLength texts.length)

end Color

/-- A component between 0 and 255 as two hexadecimal digits. -/
def hexOfNumber (value : K) : Except Error String :=
  if Scalar.isFinite value then
    let rounded := Scalar.round value
    if Number.isBetween 0.0 255.0 rounded then .ok (hexByte (Scalar.toByte rounded))
    else .error (.outOfRange (Scalar.shortestText value) 0 255)
  else .error (.notANumber (Scalar.shortestText value))

end CssColor
