import CssColor.Output
import CssColor.Value.Specified

/-!
# Resolving values

The entry points of the library. `resolve` gives the output of a value in the requested format,
`colorIn` and its companions the colour in a fixed space, and `calculate` the value of an
expression. A value that is not valid is no error, it gives a placeholder.
-/

namespace CssColor

variable {K : Type} [Scalar K]

/-- What stands for a value that is not valid. -/
def Format.placeholder : Format → Output K
  | computed => .text "rgba(0, 0, 0, 0)"
  | specified => .text ""
  | mix | hex | hexAlpha => .null

/-- What stands for `currentcolor` where it has no value. -/
def Format.keywordOutput : Format → Output K
  | computed | specified => .text "currentcolor"
  | mix | hex | hexAlpha => .null

variable [Elementary K]

/-- A colour as hexadecimal digits, which cannot write missing components. -/
def Color.hex? (withAlpha : Bool) (color : Color K) : Option String :=
  if color.hasMissing then none else some (color.hex withAlpha)

/-- The output of a valid value in a format, if it resolves. -/
def Format.output? (options : Options K) (value : ColorValue K) : Format → Option (Output K)
  | computed => (value.resolve options).map fun resolved => .text resolved.color.text
  | specified => (value.specifiedText options).map .text
  | mix => (value.resolve options).map fun resolved => .color resolved.color
  | hex => (value.resolve options).map fun resolved => .ofText? (resolved.color.hex? false)
  | hexAlpha => (value.resolve options).map fun resolved => .ofText? (resolved.color.hex? true)

/-- The output of a value, without a key. -/
def resolveUnkeyed (value : String) (options : Options K) : Output K :=
  match ColorValue.ofValue? options.properties value with
  | none => options.format.placeholder
  | some value =>
    if value.isCurrentColor && options.currentColor.isNone then options.format.keywordOutput
    else (options.format.output? options value).getD options.format.placeholder

/-- The output of a value. -/
def resolve (value : String) (options : Options K) : Output K :=
  (resolveUnkeyed value options).withKey options.key

/-- The colour of a value; none if it is not valid, or `currentcolor` without a value. -/
def color? (value : String) (options : Options K) : Option (Color K) := do
  let resolved ← (← ColorValue.ofValue? options.properties value).resolve options
  return resolved.color

/-- The colour of a value in a space, without missing components. A value that is not valid gives
transparent black. -/
def colorIn (space : Space) (value : String) (options : Options K) : Color K :=
  match color? value options with
  | some color => (color.toSpace space).concrete
  | none => .transparent space

/-- The colour of a value as XYZ, relative to the white that the options ask for. -/
def colorInXyz (value : String) (options : Options K) : Color K :=
  colorIn (if options.d50 then .xyzD50 else .xyzD65) value options

/-- The hexadecimal digits of a value. They hold an alpha if the format asks for it or the colour is
not opaque. -/
def hexDigits? (value : String) (options : Options K) : Option String :=
  (color? value options).bind (Color.hex? (options.format == .hexAlpha))

omit [Elementary K]

/-- Whether a value is a colour as it stands. References are not replaced, so a value with
references is no colour. -/
def isColor (K : Type) [Scalar K] (value : String) : Bool :=
  (ColorValue.ofText? value : Option (ColorValue K)).isSome

/-- The value of an expression: a number, percentage or value with a unit, or the text of a
simplified expression. What is not valid gives an empty text, and what is no expression stays as it
is, with its references replaced. -/
def calculate (value : String) (options : Options K) : String :=
  match (Property.substitute options.properties value : Option (List (Token K))) with
  | none => ""
  | some tokens =>
    if (tokens.find? fun token => !token.isWhitespace).any (Token.isFunction "calc") then
      let term := do
        let expression ← (Expression.rule maxBlockDepth).parse tokens
        expression.evaluate { Scope.empty with dimensions := options.dimensions.get? }
      (term.map Term.standaloneText).getD ""
    else Text.trim (Token.textOf tokens)

end CssColor
