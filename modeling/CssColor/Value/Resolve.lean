import CssColor.Color.Mixing
import CssColor.Property
import CssColor.Value.Grammar

/-!
# Resolving colour values

`ColorValue.resolve` turns the tree of a colour value into a colour. Origins, the colours of a mix
and the value of `currentcolor` may be nested in one another to the depth `maxNestingDepth`, and the
value of `currentcolor` may not refer to itself. All components of the result are finite or missing,
and those with a range stay within it.
-/

namespace CssColor

/-- How deeply origins, the colours of a mix and the value of `currentcolor` may be nested. -/
def maxNestingDepth : Nat := 32

/-- A colour, and whether it was written in a legacy notation only. -/
structure Resolved (K : Type) where
  color : Color K
  isLegacy : Bool
deriving DecidableEq

variable {K : Type} [Scalar K]

/-! ## Arguments -/

namespace Argument

/-- The finite number that an argument stands for in a scope, or `some none` if it is missing.
Percentages need a basis, units an angle, and names and expressions have to give a number. -/
def resolve (scope : Scope K) : Argument K → Option (Option K)
  | missing => some none
  | number value => some (some (Scalar.toFinite value))
  | percentage value =>
    scope.percentageBasis.map fun basis => some (Scalar.toFinite (value / 100.0 * basis))
  | dimension value unit =>
    if scope.anglesAsDegrees then
      (Unit.degrees? value unit).map fun degrees => some (Scalar.toFinite degrees)
    else none
  | keyword name => (scope.bindings.lookup name).map (·.map Scalar.toFinite)
  | expression tree =>
    match tree.evaluate scope with
    | none => some none
    | some (.number value) => some (some (Scalar.toFinite value))
    | some _ => none

end Argument

/-- A component of a space within its range: lightness between its ends, chroma and the saturation
of HSL not negative, and hues within one turn. -/
def Space.clampComponent (space : Space) (index : Index) (value : K) : K :=
  match space, index with
  | .lab, .first | .lch, .first => Number.clamp 0.0 100.0 value
  | .oklab, .first | .oklch, .first => Number.clamp 0.0 1.0 value
  | .lch, .second | .oklch, .second | .hsl, .second => Number.max value 0.0
  | .hsl, .first | .hwb, .first | .lch, .third | .oklch, .third =>
    -- An infinite hue has no remainder.
    let hue := Cylinder.normalizeHue value
    if Number.isNaN hue then 0.0 else hue
  | _, _ => value

/-- A colour with its components within the ranges of its space. -/
def Color.clamp (color : Color K) : Color K :=
  { color with
    components := .ofFn fun index =>
      (color.components.get index).map (color.space.clampComponent index) }

/-- A component of a clamped colour is the clamped component. -/
@[simp] theorem Color.get_clamp (color : Color K) (index : Index) :
    color.clamp.components.get index =
      (color.components.get index).map (color.space.clampComponent index) :=
  Triple.get_ofFn _ index

namespace Arguments

/-- What the argument for the component at an index may refer to: a hue takes angles, the other
components percentages. -/
def componentScope (space : Space) (bindings : List (String × Option K)) (dimensions : Lookup K)
    (index : Index) : Scope K :=
  let isHue := space.hueIndex? == some index
  { bindings
    percentageBasis := if isHue then none else some (space.percentageBasis.get index)
    anglesAsDegrees := isHue
    dimensions := dimensions.get? }

/-- What the argument for the alpha may refer to. -/
def alphaScope (bindings : List (String × Option K)) (dimensions : Lookup K) : Scope K :=
  { bindings, percentageBasis := some 1.0, anglesAsDegrees := false, dimensions := dimensions.get? }

/-- The colour that arguments give in a space, where names stand for `bindings`. An alpha that is
left out is `defaultAlpha`. -/
def resolve (space : Space) (bindings : List (String × Option K)) (defaultAlpha : Option K)
    (dimensions : Lookup K) (arguments : Arguments K) : Option (Color K) := do
  let scope := componentScope space bindings dimensions
  let first ← arguments.components.first.resolve (scope .first)
  let second ← arguments.components.second.resolve (scope .second)
  let third ← arguments.components.third.resolve (scope .third)
  let alpha ←
    match arguments.alpha with
    | some alpha =>
      let alpha ← alpha.resolve (alphaScope bindings dimensions)
      pure (alpha.map (Number.clamp 0.0 1.0))
    | none => pure defaultAlpha
  return Color.clamp ⟨space, ⟨first, second, third⟩, alpha⟩

end Arguments

/-! ## Colours -/

namespace Resolved

/-- The legacy colour of four bytes. -/
def ofRgba (digits : Rgba) : Resolved K :=
  { color := .ofValues .rgb
      ⟨Scalar.ofByte digits.red, Scalar.ofByte digits.green, Scalar.ofByte digits.blue⟩
      (Scalar.ofByte digits.alpha / 255.0)
    isLegacy := true }

/-- The legacy colour of a name. -/
def ofName? (name : String) : Option (Resolved K) :=
  (namedColor? name).map fun bytes => ofRgba ⟨bytes.first, bytes.second, bytes.third, 255⟩

/-- The colour that arguments give in a space without an origin. -/
def ofFunction? (space : Space) (arguments : Arguments K) (dimensions : Lookup K) :
    Option (Resolved K) :=
  (arguments.resolve space [] (some 1.0) dimensions).map fun color => ⟨color, space.isLegacy⟩

end Resolved

variable [Elementary K]

/-- The names of the components and the alpha that a colour has in a space, with their values. -/
def Color.bindings (origin : Color K) (space : Space) : List (String × Option K) :=
  let converted := (origin.toSpace space).toFinite
  let names := space.componentNames
  [(names.first, converted.components.first), (names.second, converted.components.second),
    (names.third, converted.components.third), ("alpha", converted.alpha)]

namespace Resolved

/-- The colour that arguments give in a space where they may name the components of an origin. It is
never a legacy colour. -/
def ofOrigin? (origin : Color K) (space : Space) (arguments : Arguments K) (dimensions : Lookup K) :
    Option (Resolved K) :=
  (arguments.resolve space (origin.bindings space) (origin.alpha.map Scalar.toFinite)
    dimensions).map fun color => ⟨color.toSpace space.relativeOutput, false⟩

/-- The mix of two colours in a space, with percentages for the shares. The mix of legacy colours in
sRGB or one of its cylinders is a legacy colour. -/
def ofMix? (space : Space) (arc : Option HueArc) (first : Resolved K) (firstShare : Option K)
    (second : Resolved K) (secondShare : Option K) : Option (Resolved K) := do
  let (weights, alphaFactor) ← Weights.ofPercentages? firstShare secondShare
  let mixed := Color.interpolate (first.color.toSpaceForMixing space)
    (second.color.toSpaceForMixing space) weights (arc.getD .shorter)
  let mixed := { mixed with alpha := mixed.alpha.map (· * alphaFactor) }
  let isLegacy := first.isLegacy && second.isLegacy && [.srgb, .hsl, .hwb].contains space
  let color :=
    if isLegacy then mixed.toSpace .rgb
    else if space.isLegacy then mixed.toSpace .srgb
    else mixed.toFinite
  return ⟨color, isLegacy⟩

end Resolved

namespace ColorValue

/-- The colour of a value with `levels` levels of nesting allowed, where `current` gives the colour
of `currentcolor` for the levels that are left there. -/
def resolveWith (current : Nat → Option (Resolved K)) (dimensions : Lookup K) :
    Nat → ColorValue K → Option (Resolved K)
  | _, named name => Resolved.ofName? name
  | _, transparent => some ⟨.transparent .rgb, true⟩
  | levels, currentColor => current levels
  | _, hex digits => some (.ofRgba digits)
  | _, function space arguments => Resolved.ofFunction? space arguments dimensions
  | 0, relative .. => none
  | levels + 1, relative origin space arguments => do
    let origin ← resolveWith current dimensions levels origin
    Resolved.ofOrigin? origin.color space arguments dimensions
  | 0, mix .. => none
  | levels + 1, mix space arc first firstShare second secondShare => do
    let first ← resolveWith current dimensions levels first
    let second ← resolveWith current dimensions levels second
    Resolved.ofMix? space arc first firstShare second secondShare

/-- The colour value of a text after its references to properties are replaced. -/
def ofValue? (properties : Lookup String) (value : String) : Option (ColorValue K) := do
  ofTokens? (← Property.substitute properties value)

/-- The colour of `currentcolor` with `levels` levels of nesting left. Its value may not hold
`currentcolor`, and is nested by one level itself. -/
def resolveCurrentColor (options : Options K) (levels : Nat) : Option (Resolved K) := do
  let value ← ofValue? options.properties (← options.currentColor)
  match levels with
  | 0 => none
  | levels + 1 => resolveWith (fun _ => none) options.dimensions levels value

/-- The colour of a value. -/
def resolve (options : Options K) (value : ColorValue K) : Option (Resolved K) :=
  resolveWith (resolveCurrentColor options) options.dimensions maxNestingDepth value

end ColorValue

end CssColor
