import CssColor.Color.Text

/-!
# Outputs

What the resolution of a value gives: a text, a colour, or nothing where the value cannot be
represented in the requested format; and any of these under a key.
-/

namespace CssColor

/-- The result of resolving a value. -/
inductive Output (K : Type) where
  | text (value : String)
  | color (value : Color K)
  /-- The value cannot be represented in the requested format. -/
  | null
  | keyed (key : String) (output : Output K)
deriving DecidableEq

namespace Output

variable {K : Type}

/-- The output of a text that may not exist. -/
def ofText? : Option String → Output K
  | some value => text value
  | none => null

/-- The text of an output, under keys too. -/
def asText? : Output K → Option String
  | text value => some value
  | keyed _ output => output.asText?
  | _ => none

/-- The colour of an output, under keys too. -/
def asColor? : Output K → Option (Color K)
  | color value => some value
  | keyed _ output => output.asColor?
  | _ => none

/-- The output under a key, if there is one. -/
def withKey (key : Option String) (output : Output K) : Output K :=
  match key with
  | some key => keyed key output
  | none => output

/-- Outputs that are stored under one key are the same if they were before. -/
@[simp] theorem withKey_inj {key : Option String} {output other : Output K} :
    output.withKey key = other.withKey key ↔ output = other := by
  cases key with
  | some key => exact ⟨fun h => (keyed.inj h).2, congrArg (keyed key)⟩
  | none => exact Iff.rfl

/-- Whether there is nothing to show. -/
def isBlank : Output K → Bool
  | null => true
  | text value => value.isEmpty
  | _ => false

/-- A colour as a list of its space, its components and its alpha. -/
def listText [Scalar K] (color : Color K) : String :=
  "[" ++ String.intercalate ", "
    (color.space.name :: (color.components.toList ++ [color.alpha]).map componentText) ++ "]"

/-- An output as it is displayed. -/
def display [Scalar K] : Output K → String
  | text value => value
  | color value => listText value
  | null => "null"
  | keyed key output => key ++ ": " ++ output.display

end Output

end CssColor
