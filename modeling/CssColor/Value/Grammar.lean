import CssColor.Calc.Grammar
import CssColor.Text.Blank
import CssColor.Value.Basic
import CssColor.Value.Named

/-!
# The grammar of colour values

`ColorValue.rule` reads a colour value, and `ColorValue.ofText?` a text that holds nothing else. The
functions of the legacy spaces take their arguments with commas or with blanks between them; the
notation with commas is tried first. Rules for the content of a function take the rules `expression`
for the calls of `calc()` and `color` for the colours in it, and `ColorValue.rule` takes the number
of levels that may be nested in one another.
-/

namespace CssColor

variable {K : Type}

/-! ## Arguments -/

namespace Argument

/-- An argument that is a single token. -/
def tokenRule : Rule K (Argument K) := do
  match ← Rule.nextSolid with
  | .number value => return .number value
  | .percentage value => return .percentage value
  | .dimension value unit => return .dimension value unit
  | .ident name =>
    return if Text.sameIgnoringCase name "none" then .missing else .keyword name.toLower
  | _ => Rule.fail

/-- An argument of a function with blanks between its arguments. -/
def rule (expression : Rule K (Expression K)) : Rule K (Argument K) := do
  if ← Rule.isCalling "calc" then
    return .expression (← expression)
  else
    tokenRule

/-- Whether the argument is a name or missing. -/
def isWord : Argument K → Bool
  | missing => true
  | keyword _ => true
  | _ => false

/-- An argument of a function with commas between its arguments, which may not be a name. -/
def legacyRule (expression : Rule K (Expression K)) : Rule K (Argument K) := do
  let argument ← rule expression
  if argument.isWord then Rule.fail else return argument

/-- Whether the argument is a number. -/
def isNumber : Argument K → Bool
  | number _ => true
  | _ => false

/-- Whether the argument is a percentage. -/
def isPercentage : Argument K → Bool
  | percentage _ => true
  | _ => false

/-- Whether the argument is a value with a unit. -/
def isDimension : Argument K → Bool
  | dimension .. => true
  | _ => false

/-- Whether the argument is an expression. -/
def isExpression : Argument K → Bool
  | expression _ => true
  | _ => false

end Argument

namespace Arguments

/-- Whether the components may stand between commas: in RGB numbers or percentages, but not both,
and otherwise percentages after the hue. Expressions may stand for either. -/
def areLegacy (space : Space) (components : Triple (Argument K)) : Bool :=
  if space = .rgb then
    let components := components.toList
    !(components.any Argument.isNumber && components.any Argument.isPercentage)
      && !components.any Argument.isDimension
  else
    [components.second, components.third].all fun argument =>
      argument.isPercentage || argument.isExpression

/-- Arguments with commas between them and the closing parenthesis. -/
def legacyRule (expression : Rule K (Expression K)) (space : Space) : Rule K (Arguments K) := do
  let first ← Argument.legacyRule expression
  Rule.comma
  let second ← Argument.legacyRule expression
  Rule.comma
  let third ← Argument.legacyRule expression
  let alpha ← Rule.optional do
    Rule.comma
    Argument.legacyRule expression
  Rule.closeParen
  let components := ⟨first, second, third⟩
  if areLegacy space components then return ⟨components, alpha⟩ else Rule.fail

/-- Arguments with blanks between them, an alpha after a slash and the closing parenthesis. -/
def modernRule (expression : Rule K (Expression K)) : Rule K (Arguments K) := do
  let first ← Argument.rule expression
  let second ← Argument.rule expression
  let third ← Argument.rule expression
  let alpha ← Rule.optional do
    Rule.nextWith (Token.isDelim '/')
    Argument.rule expression
  Rule.closeParen
  return ⟨⟨first, second, third⟩, alpha⟩

end Arguments

/-! ## Colours -/

namespace ColorValue

/-- The byte that two hexadecimal digits write. -/
def byteOfDigits (high low : Char) : UInt8 := UInt8.ofNat (Token.hexNumber [high, low])

/-- The colour of three, four, six or eight hexadecimal digits. In the short forms each digit stands
for two. -/
def ofHexDigits? (digits : List Char) : Option Rgba :=
  if digits.all Token.isHexDigit then
    match digits with
    | [r, g, b] => some ⟨byteOfDigits r r, byteOfDigits g g, byteOfDigits b b, 255⟩
    | [r, g, b, a] =>
      some ⟨byteOfDigits r r, byteOfDigits g g, byteOfDigits b b, byteOfDigits a a⟩
    | [r, r', g, g', b, b'] =>
      some ⟨byteOfDigits r r', byteOfDigits g g', byteOfDigits b b', 255⟩
    | [r, r', g, g', b, b', a, a'] =>
      some ⟨byteOfDigits r r', byteOfDigits g g', byteOfDigits b b', byteOfDigits a a'⟩
    | _ => none
  else none

/-- The colour of a keyword in any case. -/
def ofKeyword? (keyword : String) : Option (ColorValue K) :=
  match keyword.toLower with
  | "transparent" => some transparent
  | "currentcolor" => some currentColor
  | name => if (namedColor? name).isSome then some (named name) else none

/-- What the name of a colour function says about its space: which one it is, or that the arguments
tell. -/
inductive FunctionName where
  | ofSpace (space : Space)
  | predefined

/-- The meaning of the name of a colour function in any case. -/
def FunctionName.ofText? (name : String) : Option FunctionName :=
  match name.toLower with
  | "rgb" => some (ofSpace .rgb)
  | "rgba" => some (ofSpace .rgb)
  | "hsl" => some (ofSpace .hsl)
  | "hsla" => some (ofSpace .hsl)
  | "hwb" => some (ofSpace .hwb)
  | "lab" => some (ofSpace .lab)
  | "lch" => some (ofSpace .lch)
  | "oklab" => some (ofSpace .oklab)
  | "oklch" => some (ofSpace .oklch)
  | "color" => some predefined
  | _ => none

/-- The space of a colour function, read from its arguments where its name does not tell. -/
def spaceRule : FunctionName → Rule K Space
  | .ofSpace space => return space
  | .predefined => do Rule.ofOption (Space.ofPredefinedName? (← Rule.identifier))

/-- The content of a colour function with blanks between its arguments, after an origin if there is
one. -/
def modernRule (expression : Rule K (Expression K)) (color : Rule K (ColorValue K))
    (name : FunctionName) : Rule K (ColorValue K) := do
  if ← Rule.isNaming "from" then
    Rule.keyword "from"
    let origin ← color
    let space ← spaceRule name
    return relative origin space (← Arguments.modernRule expression)
  else
    let space ← spaceRule name
    return function space (← Arguments.modernRule expression)

/-- The content of a colour function of a legacy space with commas between its arguments. -/
def legacyRule (expression : Rule K (Expression K)) : FunctionName → Rule K (ColorValue K)
  | .ofSpace space => do
    if space.isLegacy then
      return function space (← Arguments.legacyRule expression space)
    else Rule.fail
  | .predefined => Rule.fail

/-- The content of a colour function, by its name. -/
def functionRule (expression : Rule K (Expression K)) (color : Rule K (ColorValue K))
    (name : String) : Rule K (ColorValue K) := do
  let name ← Rule.ofOption (FunctionName.ofText? name)
  match ← Rule.optional (legacyRule expression name) with
  | some value => return value
  | none => modernRule expression color name

variable [Scalar K]

/-- A percentage between 0% and 100%, or an expression that reduces to one. -/
def shareRule (expression : Rule K (Expression K)) : Rule K K := do
  let share ←
    if ← Rule.isCalling "calc" then
      match (← expression).evaluate Scope.empty with
      | some (.percentage value) => pure value
      | _ => Rule.fail
    else
      match ← Rule.nextSolid with
      | .percentage value => pure value
      | _ => Rule.fail
  if Number.isBetween 0.0 100.0 share then return share else Rule.fail

/-- A colour to be mixed, with a percentage before or after it. -/
def ingredientRule (expression : Rule K (Expression K)) (color : Rule K (ColorValue K)) :
    Rule K (ColorValue K × Option K) := do
  let leading ← Rule.optional (shareRule expression)
  let value ← color
  match leading with
  | some share => return (value, some share)
  | none => return (value, ← Rule.optional (shareRule expression))

/-- The arc of a hue in a mix. -/
def arcRule : Rule K HueArc := do
  let arc ← Rule.ofOption (HueArc.ofName? (← Rule.identifier))
  Rule.keyword "hue"
  return arc

/-- The content of a mix. Only in a space with a hue may it name an arc. -/
def mixRule (expression : Rule K (Expression K)) (color : Rule K (ColorValue K)) :
    Rule K (ColorValue K) := do
  Rule.keyword "in"
  let space ← Rule.ofOption (Space.ofInterpolationName? (← Rule.identifier))
  let arc ← Rule.optional arcRule
  if arc.isSome && !space.isPolar then
    Rule.fail
  else
    Rule.comma
    let (first, firstShare) ← ingredientRule expression color
    Rule.comma
    let (second, secondShare) ← ingredientRule expression color
    Rule.closeParen
    return mix space arc first firstShare second secondShare

/-- The content of a function that gives a colour, by its name. -/
def callRule (expression : Rule K (Expression K)) (color : Rule K (ColorValue K))
    (name : String) : Rule K (ColorValue K) :=
  if Text.sameIgnoringCase name "color-mix" then mixRule expression color
  else functionRule expression color name

/-- A colour value, where `call` reads the content of a function by its name. -/
def ruleWith (call : String → Rule K (ColorValue K)) : Rule K (ColorValue K) := do
  match ← Rule.nextSolid with
  | .ident name => Rule.ofOption (ofKeyword? name)
  | .hash digits _ => return hex (← Rule.ofOption (ofHexDigits? digits.toList))
  | .function name => call name
  | _ => Rule.fail

/-- A colour value with `levels` levels of functions allowed. -/
def rule (levels : Nat) : Rule K (ColorValue K) :=
  ruleWith (match levels with
    | 0 => fun _ => Rule.fail
    | levels + 1 => callRule (Expression.rule levels) (rule levels))

/-- The colour value that tokens write. -/
def ofTokens? (tokens : List (Token K)) : Option (ColorValue K) :=
  (rule maxBlockDepth).parse tokens

/-- The colour value that a text writes. -/
def ofText? (text : String) : Option (ColorValue K) := ofTokens? (Token.scan text.toList)

end ColorValue

end CssColor
