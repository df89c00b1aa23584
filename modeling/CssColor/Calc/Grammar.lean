import CssColor.Calc.Expression
import CssColor.Token.Rule

/-!
# The grammar of expressions

A sum is made of products, a product of values, and a value may be a sum in parentheses. The signs
of a sum stand between blanks. The parts of a block take the rule `nested` for the blocks in it, and
`blockRule` the number of levels that may be nested in one another.
-/

namespace CssColor.Expression

variable {K : Type}

/-- A list of operands as an expression: a single operand stands for itself. -/
def ofOperands (group : List (Operator × Expression K) → Expression K) (operator : Operator)
    (first : Expression K) (rest : List (Operator × Expression K)) : Expression K :=
  if rest.isEmpty then first else group ((operator, first) :: rest)

/-- A value: a term, or a block in parentheses, which `nested` reads. -/
def valueRule (nested : Rule K (Expression K)) : Rule K (Expression K) := do
  match ← Rule.nextSolid with
  | .number value => return .leaf (.number value)
  | .percentage value => return .leaf (.percentage value)
  | .dimension value unit => return .leaf (.dimension value unit)
  | .ident name => return .leaf (.symbol name.toLower)
  | .openParen => nested
  | .function name => if name.toLower = "calc" then nested else Rule.fail
  | _ => Rule.fail

/-- A further operand of a product. -/
def factorRule (nested : Rule K (Expression K)) : Rule K (Operator × Expression K) := do
  match ← Rule.nextSolid with
  | .delim '*' => return (.multiply, ← valueRule nested)
  | .delim '/' => return (.divide, ← valueRule nested)
  | _ => Rule.fail

/-- Values with `*` and `/` between them. -/
def productRule (nested : Rule K (Expression K)) : Rule K (Expression K) := do
  let first ← valueRule nested
  let rest ← (factorRule nested).many
  return ofOperands .product .multiply first rest

/-- A sign between blanks. -/
def signRule : Rule K Operator := do
  Rule.blank
  match ← Rule.next with
  | .delim '+' =>
    Rule.blank
    return .add
  | .delim '-' =>
    Rule.blank
    return .subtract
  | _ => Rule.fail

/-- A further operand of a sum. -/
def addendRule (nested : Rule K (Expression K)) : Rule K (Operator × Expression K) := do
  let operator ← signRule
  return (operator, ← productRule nested)

/-- Products with `+` and `-` between them. -/
def sumRule (nested : Rule K (Expression K)) : Rule K (Expression K) := do
  let first ← productRule nested
  let rest ← (addendRule nested).many
  return ofOperands .sum .add first rest

/-- The content of a block and the parenthesis that closes it. -/
def contentRule (nested : Rule K (Expression K)) : Rule K (Expression K) := do
  let expression ← sumRule nested
  Rule.closeParen
  return expression

/-- The content of a block and the parenthesis that closes it, with `levels` levels of further
blocks allowed. -/
def blockRule (levels : Nat) : Rule K (Expression K) :=
  contentRule (match levels with
    | 0 => Rule.fail
    | levels + 1 => blockRule levels)

/-- A call of `calc()`, whose content `block` reads. -/
def callRule (block : Rule K (Expression K)) : Rule K (Expression K) := do
  Rule.nextWith (Token.isFunction "calc")
  block

/-- A call of `calc()` with `levels` levels of blocks allowed. -/
def rule (levels : Nat) : Rule K (Expression K) := callRule (Rule.nested levels blockRule)

end CssColor.Expression
