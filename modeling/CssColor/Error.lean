/-!
# Errors

What is wrong with arguments of the library. Malformed values are no errors, they resolve to the
placeholder of the requested format.
-/

namespace CssColor

/-- Why an argument is refused. Texts stand for themselves, bounds are included. -/
inductive Error where
  | notANumber (text : String)
  | outOfRange (text : String) (least greatest : Nat)
  | unexpectedLength (length : Nat)
deriving DecidableEq, Repr

/-- The wording of an error. -/
def Error.message : Error → String
  | notANumber text => text ++ " is not a number."
  | outOfRange text least greatest =>
    text ++ " is not between " ++ Nat.repr least ++ " and " ++ Nat.repr greatest ++ "."
  | unexpectedLength length => "Unexpected array length " ++ Nat.repr length ++ "."

end CssColor
