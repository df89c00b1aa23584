import CssColor.Number.Basic

/-!
# Colour spaces

The spaces that a colour can be given in, with the names, kinds and units of their three components.

| space | components | units |
|-------|------------|-------|
| `rgb` | r, g, b | 0 to 255 |
| `srgb`, `srgbLinear`, `displayP3`, `a98Rgb`, `prophotoRgb`, `rec2020` | r, g, b | 0 to 1 |
| `xyzD65`, `xyzD50` | x, y, z | 0 to 1 |
| `hsl` | h, s, l | degrees, 0 to 100, 0 to 100 |
| `hwb` | h, w, b | degrees, 0 to 100, 0 to 100 |
| `lab` | l, a, b | 0 to 100, ±125, ±125 |
| `lch` | l, c, h | 0 to 100, 0 to 150, degrees |
| `oklab` | l, a, b | 0 to 1, ±0.4, ±0.4 |
| `oklch` | l, c, h | 0 to 1, 0 to 0.4, degrees |
-/

namespace CssColor

/-- The place of a component among three. -/
inductive Index where
  | first
  | second
  | third
deriving DecidableEq, Repr

/-- Three components in the order of their space. -/
structure Triple (α : Type) where
  first : α
  second : α
  third : α
deriving DecidableEq, Repr

namespace Triple

variable {α β : Type}

/-- The same value three times. -/
def replicate (a : α) : Triple α := ⟨a, a, a⟩

/-- The component at an index. -/
def get (t : Triple α) : Index → α
  | .first => t.first
  | .second => t.second
  | .third => t.third

/-- The triple whose components are given by index. -/
def ofFn (f : Index → α) : Triple α := ⟨f .first, f .second, f .third⟩

/-- A function applied to every component. -/
def map (f : α → β) (t : Triple α) : Triple β := ⟨f t.first, f t.second, f t.third⟩

/-- The components in order. -/
def toList (t : Triple α) : List α := [t.first, t.second, t.third]

/-- A component of a triple with a function applied to all of them. -/
@[simp] theorem get_map (f : α → β) (t : Triple α) (index : Index) :
    (t.map f).get index = f (t.get index) := by
  cases index <;> rfl

/-- A component of a triple that is given by its components. -/
@[simp] theorem get_ofFn (f : Index → α) (index : Index) : (ofFn f).get index = f index := by
  cases index <;> rfl

end Triple

/-- A colour space. -/
inductive Space where
  | rgb
  | srgb
  | srgbLinear
  | displayP3
  | a98Rgb
  | prophotoRgb
  | rec2020
  | xyzD65
  | xyzD50
  | hsl
  | hwb
  | lab
  | lch
  | oklab
  | oklch
deriving DecidableEq, Repr

/-- Components of the same kind are analogous: a missing one stays missing in another space. Those
of the kind `other` are analogous to none. -/
inductive ComponentKind where
  | red
  | green
  | blue
  | lightness
  | colorfulness
  | hue
  | opponentA
  | opponentB
  | other
deriving DecidableEq, Repr

namespace Space

/-- All spaces. -/
def all : List Space :=
  [rgb, srgb, srgbLinear, displayP3, a98Rgb, prophotoRgb, rec2020, xyzD65, xyzD50, hsl, hwb, lab,
    lch, oklab, oklch]

/-- The name of a space. -/
def name : Space → String
  | rgb => "rgb"
  | srgb => "srgb"
  | srgbLinear => "srgb-linear"
  | displayP3 => "display-p3"
  | a98Rgb => "a98-rgb"
  | prophotoRgb => "prophoto-rgb"
  | rec2020 => "rec2020"
  | xyzD65 => "xyz-d65"
  | xyzD50 => "xyz-d50"
  | hsl => "hsl"
  | hwb => "hwb"
  | lab => "lab"
  | lch => "lch"
  | oklab => "oklab"
  | oklch => "oklch"

/-- The space of exactly the given name. -/
def ofName? (name : String) : Option Space := all.find? (·.name == name)

/-- The space that the function `color()` takes under a name in any case. -/
def ofPredefinedName? (name : String) : Option Space :=
  match name.toLower with
  | "srgb" => some srgb
  | "srgb-linear" => some srgbLinear
  | "display-p3" => some displayP3
  | "a98-rgb" => some a98Rgb
  | "prophoto-rgb" => some prophotoRgb
  | "rec2020" => some rec2020
  | "xyz" => some xyzD65
  | "xyz-d65" => some xyzD65
  | "xyz-d50" => some xyzD50
  | _ => none

/-- The space that colours can be mixed in under a name in any case. -/
def ofInterpolationName? (name : String) : Option Space :=
  match name.toLower with
  | "hsl" => some hsl
  | "hwb" => some hwb
  | "lab" => some lab
  | "lch" => some lch
  | "oklab" => some oklab
  | "oklch" => some oklch
  | other => ofPredefinedName? other

/-- The names of the components. -/
def componentNames : Space → Triple String
  | xyzD65 | xyzD50 => ⟨"x", "y", "z"⟩
  | hsl => ⟨"h", "s", "l"⟩
  | hwb => ⟨"h", "w", "b"⟩
  | lab | oklab => ⟨"l", "a", "b"⟩
  | lch | oklch => ⟨"l", "c", "h"⟩
  | _ => ⟨"r", "g", "b"⟩

/-- The kinds of the components. -/
def componentKinds : Space → Triple ComponentKind
  | hsl => ⟨.hue, .colorfulness, .lightness⟩
  | hwb => ⟨.hue, .other, .other⟩
  | lab | oklab => ⟨.lightness, .opponentA, .opponentB⟩
  | lch | oklch => ⟨.lightness, .colorfulness, .hue⟩
  | _ => ⟨.red, .green, .blue⟩

/-- The index of the hue, where there is one. -/
def hueIndex? : Space → Option Index
  | hsl | hwb => some .first
  | lch | oklch => some .third
  | _ => none

/-- Whether the space has a hue. -/
def isPolar (space : Space) : Bool := space.hueIndex?.isSome

/-- The number that 100% stands for in each component. That of a hue is not used. -/
def percentageBasis {K : Type} [Number K] : Space → Triple K
  | rgb => .replicate 255.0
  | hsl | hwb => ⟨0.0, 100.0, 100.0⟩
  | lab => ⟨100.0, 125.0, 125.0⟩
  | lch => ⟨100.0, 150.0, 0.0⟩
  | oklab => ⟨1.0, 0.4, 0.4⟩
  | oklch => ⟨1.0, 0.4, 0.0⟩
  | _ => .replicate 1.0

/-- Whether the space is written with the function `color()`. -/
def isPredefined : Space → Bool
  | srgb | srgbLinear | displayP3 | a98Rgb | prophotoRgb | rec2020 | xyzD65 | xyzD50 => true
  | _ => false

/-- Whether the space belongs to the legacy notations. -/
def isLegacy : Space → Bool
  | rgb | hsl | hwb => true
  | _ => false

/-- The space that a relative colour of this space is given in. It is never a legacy colour. -/
def relativeOutput (space : Space) : Space := if space.isLegacy then srgb else space

end Space

end CssColor
