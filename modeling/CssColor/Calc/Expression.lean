import CssColor.Calc.Reduce
import CssColor.Calc.Unit

/-!
# Expressions

The tree of a `calc()` expression and its evaluation in a `Scope`. A sum or product is a list of
operators and operands; the operator of the first operand is `add` or `multiply`. An expression is
parsed once and can be evaluated in several scopes.
-/

namespace CssColor

/-- A tree of sums and products over terms. -/
inductive Expression (K : Type) where
  | leaf (term : Term K)
  | sum (operands : List (Operator × Expression K))
  | product (operands : List (Operator × Expression K))

/-- What an expression may refer to. -/
structure Scope (K : Type) where
  /-- Names and the components that they stand for; a component may be missing. -/
  bindings : List (String × Option K)
  /-- The number that 100% stands for. Without it percentages stay percentages. -/
  percentageBasis : Option K
  /-- Whether angles become numbers of degrees. -/
  anglesAsDegrees : Bool
  /-- The pixels of one of a relative length unit. -/
  dimensions : String → Option K

/-- The scope that knows nothing. -/
def Scope.empty {K : Type} : Scope K := ⟨[], none, false, fun _ => none⟩

namespace Expression

variable {K : Type}

section Equality

variable [DecidableEq K]

mutual

/-- Whether two expressions are the same tree. -/
def decideEq : (a b : Expression K) → Decidable (a = b)
  | leaf term, leaf term' => decidable_of_iff (term = term') (by rw [leaf.injEq])
  | sum operands, sum operands' =>
    have := decideOperandsEq operands operands'
    decidable_of_iff (operands = operands') (by rw [sum.injEq])
  | product operands, product operands' =>
    have := decideOperandsEq operands operands'
    decidable_of_iff (operands = operands') (by rw [product.injEq])
  | leaf _, sum _ | leaf _, product _ | sum _, leaf _ | sum _, product _ | product _, leaf _
  | product _, sum _ => isFalse nofun

/-- Whether two lists of operands are the same. -/
def decideOperandsEq : (a b : List (Operator × Expression K)) → Decidable (a = b)
  | [], [] => isTrue rfl
  | (operator, operand) :: rest, (operator', operand') :: rest' =>
    have := decideEq operand operand'
    have := decideOperandsEq rest rest'
    decidable_of_iff (operator = operator' ∧ operand = operand' ∧ rest = rest')
      (by rw [List.cons.injEq, Prod.mk.injEq, and_assoc])
  | [], _ :: _ | _ :: _, [] => isFalse nofun

end

instance : DecidableEq (Expression K) := decideEq

end Equality

/-- The value of a mathematical constant. -/
def constant? [Scalar K] (name : String) : Option K :=
  match name with
  | "e" => some Number.e
  | "pi" => some Number.pi
  | "infinity" => some Scalar.infinity
  | "-infinity" => some (-Scalar.infinity)
  | "nan" => some Scalar.nan
  | _ => none

/-- Whether a name is one of the mathematical constants. -/
def isConstant (name : String) : Bool :=
  name == "e" || name == "pi" || name == "infinity" || name == "-infinity" || name == "nan"

mutual

/-- The names in an expression that are no constants, from left to right. -/
def names : Expression K → List String
  | leaf (.symbol name) => if isConstant name then [] else [name]
  | leaf _ => []
  | sum operands => operandNames operands
  | product operands => operandNames operands

/-- The names in operands that are no constants. -/
def operandNames : List (Operator × Expression K) → List String
  | [] => []
  | (_, operand) :: rest => operand.names ++ operandNames rest

end

variable [Scalar K]

/-- The value of a term in a scope; none if it names a missing component. -/
def evaluateTerm (scope : Scope K) : Term K → Option (Term K)
  | .percentage value =>
    match scope.percentageBasis with
    | some basis => some (.number (value / 100.0 * basis))
    | none => some (.percentage value)
  | .dimension value unit =>
    match if scope.anglesAsDegrees then Unit.degrees? value unit else none with
    | some degrees => some (.number degrees)
    | none =>
      match Unit.pixels? value unit, scope.dimensions unit with
      | some pixels, _ => some (.dimension pixels "px")
      | none, some factor => some (.dimension (value * factor) "px")
      | none, none => some (.dimension value unit)
  | .symbol name =>
    match scope.bindings.lookup name with
    | some component => component.map .number
    | none =>
      match constant? name with
      | some value => some (.number value)
      | none => some (.symbol name)
  | term => some term

mutual

/-- The value of an expression in a scope; none if it names a missing component. -/
def evaluate (scope : Scope K) : Expression K → Option (Term K)
  | leaf term => evaluateTerm scope term
  | sum operands => do reduceSum (← evaluateOperands scope operands)
  | product operands => do reduceProduct (← evaluateOperands scope operands)

/-- The values of operands in a scope. -/
def evaluateOperands (scope : Scope K) :
    List (Operator × Expression K) → Option (List (Operand K))
  | [] => some []
  | (operator, operand) :: rest => do
    let term ← operand.evaluate scope
    let operands ← evaluateOperands scope rest
    return ⟨operator, term⟩ :: operands

end

end Expression

end CssColor
