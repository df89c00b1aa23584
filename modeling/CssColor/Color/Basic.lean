import CssColor.Conversion.Basic

/-!
# Colours

A colour is a space, three components and an alpha. A component may be missing; then it counts as
zero wherever a number is needed.
-/

namespace CssColor

/-- A colour in a space. A component that is missing is `none`. -/
structure Color (K : Type) where
  space : Space
  components : Triple (Option K)
  alpha : Option K
deriving DecidableEq

namespace Color

variable {K : Type}

/-- A colour without missing components. -/
def ofValues (space : Space) (values : Triple K) (alpha : K) : Color K :=
  ⟨space, values.map some, some alpha⟩

/-- Whether one of the three components is missing. -/
def hasMissing (color : Color K) : Bool := color.components.toList.any Option.isNone

/-- The components, with zeros for the missing ones. -/
def values [Number K] (color : Color K) : Triple K := color.components.map (·.getD 0.0)

/-- Transparent black. -/
def transparent [Number K] (space : Space) : Color K := ofValues space (.replicate 0.0) 0.0

/-- The colour with zeros for all that is missing. -/
def concrete [Number K] (color : Color K) : Color K :=
  ofValues color.space color.values (color.alpha.getD 0.0)

variable [Scalar K]

/-- The colour with finite numbers in place of all others. -/
def toFinite (color : Color K) : Color K :=
  ⟨color.space, color.components.map (·.map Scalar.toFinite), color.alpha.map Scalar.toFinite⟩

/-- A component of a colour whose numbers are made finite. -/
@[simp] theorem get_toFinite (color : Color K) (index : Index) :
    color.toFinite.components.get index = (color.components.get index).map Scalar.toFinite :=
  Triple.get_map _ _ index

/-! ## Gray -/

/-- Below this chroma a colour of Lab has no hue. -/
def lchThreshold : K := 0.0015

/-- Below this chroma a colour of OKLab has no hue. -/
def oklchThreshold : K := 0.000004

/-- The distance from gray, white and black within which a percentage counts as there. -/
def percentThreshold : K := 0.00001

/-- Whether the hue of a colour says nothing. -/
def isAchromatic (color : Color K) : Bool :=
  let second := color.values.second
  let third := color.values.third
  match color.space with
  | .hsl =>
    Scalar.abs second < percentThreshold || Scalar.abs third < percentThreshold
      || Scalar.abs (third - 100.0) < percentThreshold
  | .hwb => decide (100.0 - percentThreshold ≤ second + third)
  | .lch => decide (second < lchThreshold)
  | .oklch => decide (second < oklchThreshold)
  | _ => false

/-! ## Other spaces -/

variable [Elementary K]

/-- The components of a colour in another space. Missing components stay missing between the two
scales of sRGB, and otherwise count as zero. -/
def componentsIn (color : Color K) (space : Space) : Triple (Option K) :=
  match color.space, space with
  | .rgb, .srgb => color.components.map (·.map (· / 255.0))
  | .srgb, .rgb => color.components.map (·.map (· * 255.0))
  | source, target => (Conversion.convert source target color.values).map some

/-- The colour in another space. Its alpha stays, and components that overflow become finite. -/
def toSpace (color : Color K) (space : Space) : Color K :=
  if color.space = space then color
  else ⟨space, (color.componentsIn space).map (·.map Scalar.toFinite), color.alpha⟩

/-- The index of the first component of the given kind. -/
def indexOfKind? (kinds : Triple ComponentKind) (kind : ComponentKind) : Option Index :=
  if kinds.first = kind then some .first
  else if kinds.second = kind then some .second
  else if kinds.third = kind then some .third
  else none

/-- Whether a missing component of the colour carries over to the component of `target` at an
index. -/
def carriesMissing (color : Color K) (target : Space) (index : Index) : Bool :=
  let kinds := color.space.componentKinds
  [Index.first, .second, .third].any fun source =>
    (color.components.get source).isNone && kinds.get source != .other
      && indexOfKind? target.componentKinds (kinds.get source) == some index

/-- The colour in a space to be mixed in. Missing components carry over to analogous ones, and a hue
that says nothing after the conversion is missing. -/
def toSpaceForMixing (color : Color K) (space : Space) : Color K :=
  if color.space = space then color
  else
    let converted := color.toSpace space
    let carried : Color K :=
      { converted with
        components := .ofFn fun index =>
          if color.carriesMissing space index then none else converted.components.get index }
    let hasNoHue := carried.isAchromatic
    { carried with
      components := .ofFn fun index =>
        if hasNoHue && space.hueIndex? == some index then none
        else carried.components.get index }

end Color

end CssColor
