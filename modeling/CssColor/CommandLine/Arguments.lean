import CssColor.Options
import CssColor.Color.Space
import CssColor.Number.Text
import CssColor.Text.Blank
import CssColor.Text.Quoted

/-!
# Arguments of the command line

A command line holds one value and options. An option takes the next argument, or what follows `=`
in its own argument; one that takes the next argument is settled when something else follows, so
that a wrong value is reported after an unknown option behind it. All that follows `--` is no
option.
-/

namespace CssColor.CommandLine

/-- What a command line asks for. -/
structure Settings (K : Type) where
  /-- The value to resolve. -/
  value : String
  options : Options K
  /-- The space to convert to, in place of a text. -/
  space : Option Space

/-! ## Errors -/

/-- Why the value of an option is refused. -/
inductive ValueError where
  | unknownFormat (text : String)
  | unknownSpace (text : String)
  | notAnAssignment (text : String)
  | notAPropertyName (name : String)
  | notANumeral (reason : NumeralError)
deriving DecidableEq, Repr

/-- The wording of the refusal of a value. -/
def ValueError.message : ValueError → String
  | unknownFormat text => "unknown format " ++ Text.quoted text
  | unknownSpace text => "unknown color space " ++ Text.quoted text
  | notAnAssignment text => "expected NAME=VALUE, found " ++ Text.quoted text
  | notAPropertyName name =>
    "custom property names start with \"--\", found " ++ Text.quoted name
  | notANumeral reason => reason.message

/-- Why a command line is refused. -/
inductive ArgumentsError where
  /-- There is no value to resolve. -/
  | valueMissing
  /-- An unknown option, or a second value to resolve. -/
  | unexpected (argument : String)
  /-- An option without the value that it takes. -/
  | optionValueMissing
  /-- An option given twice that may be given once. -/
  | repeated
  /-- A value for an option that takes none. -/
  | unexpectedOptionValue
  | invalidOptionValue (reason : ValueError)
deriving DecidableEq, Repr

/-- The wording of the refusal of a command line. -/
def ArgumentsError.message : ArgumentsError → String
  | valueMissing => "a value to resolve is missing"
  | unexpected argument => "unexpected argument " ++ Text.quoted argument
  | optionValueMissing => "an option is given without its value"
  | repeated => "an option is given twice"
  | unexpectedOptionValue => "an option is given a value that it does not take"
  | invalidOptionValue reason => reason.message

/-! ## Values of options -/

/-- An option that takes a value. -/
inductive Parameter where
  | format
  | space
  | currentColor
  | property
  | dimension
deriving DecidableEq, Repr

/-- An option. -/
inductive Switch where
  | parameter (parameter : Parameter)
  | d50
deriving DecidableEq, Repr

/-- The option of a name. -/
def Switch.ofName? (name : String) : Option Switch :=
  match name with
  | "format" => some (parameter .format)
  | "to" => some (parameter .space)
  | "current-color" => some (parameter .currentColor)
  | "custom-property" => some (parameter .property)
  | "dimension" => some (parameter .dimension)
  | "d50" => some d50
  | _ => none

/-- Whether an option takes the next argument whatever it looks like. -/
def Parameter.takesAnything : Parameter → Bool
  | property => true
  | _ => false

/-- The format of a name in any case. -/
def formatOfText (text : String) : Except ValueError Format :=
  match text.toLower with
  | "computed" | "computed-value" => .ok .computed
  | "specified" | "specified-value" => .ok .specified
  | "mix" | "mix-value" => .ok .mix
  | "hex" => .ok .hex
  | "hex-alpha" => .ok .hexAlpha
  | _ => .error (.unknownFormat text)

/-- The space of a name in any case. -/
def spaceOfText (text : String) : Except ValueError Space :=
  match Space.all.find? (Text.sameIgnoringCase text ·.name) with
  | some space => .ok space
  | none =>
    match Space.ofPredefinedName? text with
    | some space => .ok space
    | none => .error (.unknownSpace text)

/-- The name and the value around the first `=`. -/
def assignmentOfText (text : String) : Except ValueError (String × String) :=
  match text.toList.span (· != '=') with
  | (name, _ :: value) => .ok (Text.trim (String.ofList name), String.ofList value)
  | (_, []) => .error (.notAnAssignment text)

/-- The name and the value of a custom property. -/
def propertyOfText (text : String) : Except ValueError (String × String) := do
  let (name, value) ← assignmentOfText text
  if name.startsWith "--" then return (name, value) else throw (.notAPropertyName name)

variable {K : Type} [Scalar K]

/-- The unit and the pixels of a relative length. -/
def dimensionOfText (text : String) : Except ValueError (String × K) := do
  let (name, value) ← assignmentOfText text
  match Scalar.ofText (Text.trim value) with
  | .ok pixels => return (name.toLower, pixels)
  | .error reason => throw (.notANumeral reason)

/-! ## Reading the arguments -/

/-- The options and values that have been read. -/
structure Given (K : Type) where
  value : Option String := none
  format : Option Format := none
  space : Option Space := none
  currentColor : Option String := none
  properties : List (String × String) := []
  dimensions : List (String × K) := []
  d50 : Bool := false

/-- An option whose value has not been taken up: it is missing, or it has not been looked at. -/
structure Pending where
  parameter : Parameter
  value : Option String

namespace Given

/-- A value read from the text of an option. -/
def reading {α : Type} (result : Except ValueError α) : Except ArgumentsError α :=
  result.mapError .invalidOptionValue

/-- Fails for an option that has been given before. -/
def once {α : Type} (known : Option α) : Except ArgumentsError Unit :=
  if known.isSome then throw .repeated else return ()

/-- Takes up the value of an option. -/
def assign (given : Given K) (parameter : Parameter) (text : String) :
    Except ArgumentsError (Given K) := do
  match parameter with
  | .format =>
    once given.format
    return { given with format := some (← reading (formatOfText text)) }
  | .space =>
    once given.space
    return { given with space := some (← reading (spaceOfText text)) }
  | .currentColor =>
    once given.currentColor
    return { given with currentColor := some text }
  | .property =>
    return { given with properties := given.properties ++ [← reading (propertyOfText text)] }
  | .dimension =>
    return { given with dimensions := given.dimensions ++ [← reading (dimensionOfText text)] }

/-- Takes up the value of an option that is pending. -/
def settle (given : Given K) : Option Pending → Except ArgumentsError (Given K)
  | none => return given
  | some ⟨_, none⟩ => throw .optionValueMissing
  | some ⟨parameter, some text⟩ => given.assign parameter text

/-- Takes up an option without a value. -/
def setD50 (given : Given K) : Except ArgumentsError (Given K) :=
  if given.d50 then throw .repeated else return { given with d50 := true }

/-- Takes up the value to resolve, after an option that is pending. -/
def setValue (given : Given K) (pending : Option Pending) (text : String) :
    Except ArgumentsError (Given K) := do
  if given.value.isSome then throw (.unexpected text)
  else return { ← given.settle pending with value := some text }

/-- What has been read as settings. -/
def toSettings (given : Given K) : Except ArgumentsError (Settings K) :=
  match given.value with
  | none => throw .valueMissing
  | some value =>
    return {
      value
      space := given.space
      options := {
        format := given.format.getD .computed
        d50 := given.d50
        currentColor := given.currentColor
        properties := .table (.ofList given.properties)
        dimensions := .table (.ofList given.dimensions) } }

end Given

/-- What an argument looks like. -/
inductive Word where
  /-- Two dashes and nothing else. -/
  | separator
  /-- Two dashes and a name, with a value after `=`. -/
  | long (name : String) (value : Option String)
  /-- One dash and more. -/
  | short
  | plain
deriving DecidableEq, Repr

/-- Reads what an argument looks like. -/
def Word.ofText (argument : String) : Word :=
  match argument.toList with
  | ['-', '-'] => separator
  | '-' :: '-' :: rest =>
    match rest.span (· != '=') with
    | (name, _ :: value) => long (String.ofList name) (some (String.ofList value))
    | (name, []) => long (String.ofList name) none
  | '-' :: _ :: _ => short
  | _ => plain

/-- Whether an argument is the value of the option before it. -/
def isValueOf (pending : Option Pending) (argument : String) : Bool :=
  match pending with
  | some ⟨parameter, none⟩ => parameter.takesAnything || Word.ofText argument == .plain
  | _ => false

/-- Reads arguments none of which is an option. -/
def readPlain (given : Given K) (pending : Option Pending) :
    List String → Except ArgumentsError (Given K)
  | [] => given.settle pending
  | argument :: rest => do readPlain (← given.setValue pending argument) none rest

/-- Reads arguments, where the value of an option may be pending. -/
def read (given : Given K) (pending : Option Pending) :
    List String → Except ArgumentsError (Given K)
  | [] => given.settle pending
  | argument :: rest =>
    if isValueOf pending argument then
      -- The value is not looked at yet, so that an unknown option behind it is reported first.
      read given (pending.map fun pending => { pending with value := some argument }) rest
    else
      match Word.ofText argument with
      | .separator => readPlain given pending rest
      | .short => throw (.unexpected argument)
      | .plain => do read (← given.setValue pending argument) none rest
      | .long name value =>
        match Switch.ofName? name, value with
        | none, _ => throw (.unexpected argument)
        | some .d50, some _ => throw .unexpectedOptionValue
        | some .d50, none => do read (← (← given.settle pending).setD50) none rest
        | some (.parameter parameter), some text => do
          read (← (← given.settle pending).assign parameter text) none rest
        | some (.parameter parameter), none => do
          read (← given.settle pending) (some ⟨parameter, none⟩) rest

/-- The settings that arguments ask for. -/
def Settings.ofArguments (arguments : List String) : Except ArgumentsError (Settings K) := do
  (← read {} none arguments).toSettings

end CssColor.CommandLine
