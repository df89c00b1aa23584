import CssColor.Color.Text
import CssColor.Value.Resolve

/-!
# Colour values as specified

`ColorValue.specifiedText` writes a colour value as it was specified: keywords, relative colours and
mixes keep their structure, expressions are simplified as far as they can be without knowing the
origin, and all else is written as the colour that it resolves to.
-/

namespace CssColor

variable {K : Type} [Scalar K]

namespace Argument

/-- The text of an argument. An expression that has no value has no text. -/
def specifiedText (dimensions : Lookup K) : Argument K → Option String
  | missing => some "none"
  | number value => some (Scalar.text value)
  | percentage value => some (Scalar.text value ++ "%")
  | dimension value unit => some (Scalar.text value ++ unit)
  | keyword name => some name
  | expression tree =>
    (tree.evaluate { Scope.empty with dimensions := dimensions.get? }).map Term.standaloneText

omit [Scalar K] in
/-- Whether all names in an argument are among the given ones. -/
def usesOnly (names : List String) : Argument K → Bool
  | keyword name => names.contains name
  | expression tree => tree.names.all names.contains
  | _ => true

end Argument

namespace Arguments

/-- The text of arguments, with an alpha after a slash. -/
def specifiedText (dimensions : Lookup K) (arguments : Arguments K) : Option String := do
  let first ← arguments.components.first.specifiedText dimensions
  let second ← arguments.components.second.specifiedText dimensions
  let third ← arguments.components.third.specifiedText dimensions
  let list := first ++ " " ++ second ++ " " ++ third
  match arguments.alpha with
  | some alpha => return list ++ " / " ++ (← alpha.specifiedText dimensions)
  | none => return list

omit [Scalar K] in
/-- Whether all names in arguments are among the given ones. -/
def usesOnly (names : List String) (arguments : Arguments K) : Bool :=
  (arguments.components.toList ++ arguments.alpha.toList).all (Argument.usesOnly names)

end Arguments

/-- The names that the arguments of a colour relative to an origin may use. -/
def Space.bindingNames (space : Space) : List String := space.componentNames.toList ++ ["alpha"]

namespace ColorValue

/-- A relative colour around the texts of its origin and its arguments. -/
def relativeText (space : Space) (origin arguments : String) : String :=
  if space.isPredefined then
    "color(from " ++ origin ++ " " ++ space.name ++ " " ++ arguments ++ ")"
  else space.name ++ "(from " ++ origin ++ " " ++ arguments ++ ")"

/-- The arc that a mix names, after its space. -/
def arcText : Option HueArc → String
  | some arc => " " ++ arc.name ++ " hue"
  | none => ""

/-- The share of a colour in a mix, after the colour. -/
def shareText : Option K → String
  | some share => " " ++ Scalar.text share ++ "%"
  | none => ""

variable [Elementary K]

/-- The text of a value as specified, with `levels` levels of nesting allowed. A relative colour
that names what its origin does not have has no text. -/
def specifiedTextWith (dimensions : Lookup K) : Nat → ColorValue K → Option String
  | _, named name => some name
  | _, transparent => some "transparent"
  | _, currentColor => some "currentcolor"
  | _, hex digits => some (Resolved.ofRgba digits : Resolved K).color.text
  | _, function space arguments =>
    (Resolved.ofFunction? space arguments dimensions).map (·.color.text)
  | 0, relative .. => none
  | levels + 1, relative origin space arguments => do
    guard (arguments.usesOnly space.bindingNames)
    let origin ← specifiedTextWith dimensions levels origin
    return relativeText space origin (← arguments.specifiedText dimensions)
  | 0, mix .. => none
  | levels + 1, mix space arc first firstShare second secondShare => do
    let first ← specifiedTextWith dimensions levels first
    let second ← specifiedTextWith dimensions levels second
    return "color-mix(in " ++ space.name ++ arcText arc ++ ", " ++ first ++ shareText firstShare
      ++ ", " ++ second ++ shareText secondShare ++ ")"

/-- The text of a value as specified. -/
def specifiedText (options : Options K) (value : ColorValue K) : Option String :=
  specifiedTextWith options.dimensions maxNestingDepth value

end ColorValue

end CssColor
