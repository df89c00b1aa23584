import CssColor.Number.Text

/-!
# Terms

The values that expressions are made of and that they reduce to. What cannot be folded into one
value is kept as the text of a simplified expression.
-/

namespace CssColor

/-- Whether the text of an expression is a sum or a product. -/
inductive ExpressionKind where
  | sum
  | product
deriving DecidableEq, Repr

/-- A number, a percentage, a value with a unit, a name, or a simplified expression. -/
inductive Term (K : Type) where
  | number (value : K)
  | percentage (value : K)
  | dimension (value : K) (unit : String)
  | symbol (name : String)
  | expression (text : String) (kind : ExpressionKind)
deriving DecidableEq

namespace Term

variable {K : Type}

/-- The text of a term inside an expression. -/
def text [Scalar K] : Term K → String
  | number value => Scalar.text value
  | percentage value => Scalar.text value ++ "%"
  | dimension value unit => Scalar.text value ++ unit
  | symbol name => name
  | expression text _ => text

/-- The text of a term on its own: what is no plain value is wrapped in a function. -/
def standaloneText [Scalar K] : Term K → String
  | expression text _ => "calc(" ++ text ++ ")"
  | symbol name => "calc(" ++ name ++ ")"
  | term => term.text

/-- The text of a term as a factor: sums need parentheses. -/
def factorText [Scalar K] : Term K → String
  | expression text .sum => "(" ++ text ++ ")"
  | term => term.text

/-- The text of a term that is added: products are put in parentheses. -/
def addendText [Scalar K] : Term K → String
  | expression text .product => "(" ++ text ++ ")"
  | term => term.text

/-- The text of a term that is subtracted: every expression is put in parentheses. -/
def subtrahendText [Scalar K] : Term K → String
  | expression text _ => "(" ++ text ++ ")"
  | term => term.text

end Term

end CssColor
