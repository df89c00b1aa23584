import CssColor.Options
import CssColor.Text.Blank
import CssColor.Token.Rule

/-!
# References to custom properties

A value may refer to custom properties by the function `var()`. `Property.substitute` replaces every
reference by the value of its property, or by the fallback after the name where the property has no
value. References are followed to the depth `maxBlockDepth`, a property may not refer to itself, and
tokens and references together may not be more than `maxSize`.
-/

namespace CssColor.Property

variable {K : Type}

/-- How many tokens and references a value may hold after the substitution. -/
def maxSize : Nat := 65536

/-- A reference: the name of a property and the tokens that stand in for it. -/
structure Reference (K : Type) where
  name : String
  fallback : Option (List (Token K))

/-- The reference that the arguments of `var()` make: a name that starts with two dashes, and after
a comma a fallback. -/
def Reference.rule : Rule K (Reference K) := do
  let name ← Rule.identifier
  if name.startsWith "--" then
    if ← Rule.isExhausted then
      return ⟨name, none⟩
    else
      Rule.comma
      return ⟨name, some (← Rule.remaining)⟩
  else Rule.fail

/-- The value of a property. One that is blank or the keyword `initial` counts as none. -/
def value? (properties : Lookup String) (name : String) : Option String :=
  (properties.get? name).filter fun value =>
    let value := Text.trim value
    value != "" && !Text.sameIgnoringCase value "initial"

/-- A step of the substitution: the tokens it gives, and how many tokens and references it has
counted so far. -/
abbrev Counted (α : Type) := StateT Nat Option α

/-- Counts a token or a reference. -/
def count : Counted Unit := fun size =>
  if size < maxSize then some ((), size + 1) else none

/-- The part of a token list after a block that is open in front of it is shorter. -/
theorem blockFrom_length_le (depth : Nat) (tokens : List (Token K)) :
    (Rule.blockFrom depth tokens).2.length ≤ tokens.length := by
  induction tokens generalizing depth with
  | nil => simp [Rule.blockFrom]
  | cons token rest ih =>
    rw [Rule.blockFrom.eq_def]
    simp only [List.length_cons]
    split
    · exact Nat.le_succ_of_le (ih _)
    · split
      · split
        · exact Nat.le_succ _
        · exact Nat.le_succ_of_le (ih _)
      · exact Nat.le_succ_of_le (ih _)

/-- Replaces the references in a list of tokens by what `expand` gives for their arguments. -/
def substituteWith (expand : List (Token K) → Counted (List (Token K))) :
    List (Token K) → Counted (List (Token K))
  | [] => return []
  | token :: rest => do
    count
    if token.isFunction "var" then
      match _h : Rule.block rest with
      | (some arguments, after) =>
        let expanded ← expand arguments
        return expanded ++ (← substituteWith expand after)
      | (none, _) => failure
    else
      return token :: (← substituteWith expand rest)
termination_by tokens => tokens.length
decreasing_by
  · have hle := blockFrom_length_le 0 rest
    have : Rule.blockFrom 0 rest = (some arguments, after) := by assumption
    rw [this] at hle
    exact Nat.lt_succ_of_le hle
  · exact Nat.lt_succ_self _

variable [Number K]

/-- The tokens of a list with the references in it replaced, `levels` deep at most. The properties
`active` are being expanded. -/
def substituteTokens (properties : Lookup String) (levels : Nat) (active : List String)
    (tokens : List (Token K)) : Counted (List (Token K)) :=
  substituteWith
    (fun arguments => do
      let reference ← liftM (Reference.rule (Token.collapse arguments)).1
      if active.contains reference.name then failure
      else
        match levels with
        | 0 => failure
        | levels + 1 =>
          match value? properties reference.name, reference.fallback with
          | some value, _ =>
            substituteTokens properties levels (reference.name :: active)
              (Token.scan value.toList)
          | none, some fallback => substituteTokens properties levels active fallback
          | none, none => failure)
    (Token.collapse tokens)

/-- The tokens of a value with all references replaced, blanks collapsed; none if that fails. -/
def substitute (properties : Lookup String) (value : String) : Option (List (Token K)) :=
  let tokens : List (Token K) := Token.scan value.toList
  if tokens.any (Token.isFunction "var") then
    (substituteTokens properties maxBlockDepth [] tokens 0).map fun (tokens, _) =>
      Token.collapse tokens
  else some (Token.collapse tokens)

end CssColor.Property
