import CssColor.Calc.Term

/-!
# Reducing sums and products

The operands of one sum or product are collected as `Operand`s, and `reduceSum` and `reduceProduct`
fold them. Numbers, percentages and values of one unit are folded where that gives a single value;
otherwise the result is the text of an expression, whose parts are sorted.
-/

namespace CssColor

/-- How a term enters a sum or a product. -/
inductive Operator where
  | add
  | subtract
  | multiply
  | divide
deriving DecidableEq, Repr

/-- A term and how it enters. -/
structure Operand (K : Type) where
  operator : Operator
  term : Term K

namespace Reduce

variable {K : Type}

/-! ## The operands by kind -/

/-- The terms under an operator. -/
def under (operator : Operator) (operands : List (Operand K)) : List (Term K) :=
  operands.filterMap fun operand =>
    if operand.operator = operator then some operand.term else none

/-- The numbers among terms. -/
def numbers (terms : List (Term K)) : List K :=
  terms.filterMap fun
    | .number value => some value
    | _ => none

/-- The percentages among terms. -/
def percentages (terms : List (Term K)) : List K :=
  terms.filterMap fun
    | .percentage value => some value
    | _ => none

/-- The values with a unit among terms. -/
def dimensions (terms : List (Term K)) : List (K × String) :=
  terms.filterMap fun
    | .dimension value unit => some (value, unit)
    | _ => none

/-- The names and expressions among terms. -/
def others (terms : List (Term K)) : List (Term K) :=
  terms.filter fun
    | .symbol _ => true
    | .expression .. => true
    | _ => false

/-- The terms that a product cannot fold when it divides by them: names, expressions and
percentages. -/
def divisors (terms : List (Term K)) : List (Term K) :=
  terms.filter fun
    | .number _ => false
    | .dimension .. => false
    | _ => true

variable [Scalar K]

/-- The numbers of a sum in order, those that are subtracted with their sign turned. -/
def signedNumbers (operands : List (Operand K)) : List K :=
  operands.filterMap fun
    | ⟨.add, .number value⟩ => some value
    | ⟨.subtract, .number value⟩ => some (-value)
    | _ => none

/-- The percentages of a sum in order, those that are subtracted with their sign turned. -/
def signedPercentages (operands : List (Operand K)) : List K :=
  operands.filterMap fun
    | ⟨.add, .percentage value⟩ => some value
    | ⟨.subtract, .percentage value⟩ => some (-value)
    | _ => none

/-- The numbers of a product in order, those that divide inverted. -/
def scaleFactors (operands : List (Operand K)) : List K :=
  operands.filterMap fun
    | ⟨.multiply, .number value⟩ => some value
    | ⟨.divide, .number value⟩ => some (1.0 / value)
    | _ => none

/-! ## Order -/

/-- Values with a unit are ordered by unit, then by value. -/
def dimensionLE (a b : K × String) : Bool :=
  if a.2 < b.2 then true else if a.2 = b.2 then Scalar.totalLE a.1 b.1 else false

/-- Terms are ordered by their text. -/
def textLE (a b : Term K) : Bool := decide (a.text ≤ b.text)

/-- Terms sorted by their text. -/
def sorted (terms : List (Term K)) : List (Term K) := terms.mergeSort textLE

/-- The texts of values with a unit, sorted. -/
def dimensionTexts (values : List (K × String)) : List String :=
  (values.mergeSort dimensionLE).map fun (value, unit) => (Term.dimension value unit).text

/-! ## Products -/

/-- A quotient of factors: several divisors are put in parentheses. -/
def quotientText (factors divisors : List String) : String :=
  let product := String.intercalate " * " factors
  match divisors with
  | [] => product
  | [divisor] => product ++ " / " ++ divisor
  | divisors => product ++ " / (" ++ String.intercalate " * " divisors ++ ")"

/-- The text of a product that cannot be folded. A factor of one is left out. -/
def productText (scale : K) (percentages : List K) (multiplied divided : List (K × String))
    (factors divisors : List (Term K)) : String :=
  let hasFactors := !(percentages.isEmpty && multiplied.isEmpty && factors.isEmpty)
  let scaleText := if scale == 1.0 && hasFactors then [] else [Scalar.text scale]
  quotientText
    (scaleText
      ++ (percentages.mergeSort Scalar.totalLE).map (fun value => (Term.percentage value).text)
      ++ dimensionTexts multiplied ++ (sorted factors).map Term.factorText)
    (dimensionTexts divided ++ (sorted divisors).map Term.factorText)

end Reduce

open Reduce

variable {K : Type} [Scalar K]

/-- The product of the factors among operands, divided by the divisors; none without operands. -/
def reduceProduct (operands : List (Operand K)) : Option (Term K) :=
  if operands.isEmpty then none
  else
    let scale := Number.product (scaleFactors operands)
    let percentages := percentages (under .multiply operands)
    let multiplied := dimensions (under .multiply operands)
    let divided := dimensions (under .divide operands)
    let factors := others (under .multiply operands)
    let divisors := divisors (under .divide operands)
    let expression :=
      .expression (productText scale percentages multiplied divided factors divisors) .product
    if Number.isNaN scale then some (.number Scalar.nan)
    else if scale == 0.0 && multiplied.isEmpty && divided.isEmpty then
      some (if percentages.isEmpty then .number 0.0 else .percentage 0.0)
    else if !(factors.isEmpty && divisors.isEmpty) then some expression
    else
      match percentages, multiplied, divided with
      | [], [], [] => some (.number scale)
      | [percentage], [], [] => some (.percentage (percentage * scale))
      | [], [(value, unit)], [] => some (.dimension (value * scale) unit)
      | [], [(value, unit)], [(divisor, other)] =>
        if unit = other && divisor != 0.0 then some (.number (scale * value / divisor))
        else some expression
      | _, _, _ => some expression

namespace Reduce

/-! ## Sums -/

/-- Adds a value to the total of its unit; a new unit goes to the end. -/
def addDimension (value : K) (unit : String) : List (K × String) → List (K × String)
  | [] => [(value, unit)]
  | (total, known) :: rest =>
    if known = unit then (total + value, known) :: rest
    else (total, known) :: addDimension value unit rest

/-- The totals of values by unit, sorted. -/
def totals (added subtracted : List (K × String)) : List (K × String) :=
  let signed := added ++ subtracted.map fun (value, unit) => (-value, unit)
  (signed.foldl (fun totals (value, unit) => addDimension value unit totals) []).mergeSort
    dimensionLE

/-- The sum of numbers; none if there are none. -/
def total? (values : List K) : Option K :=
  if values.isEmpty then none else some (Number.sum values)

/-- The parts of a folded value in a sum: the text that is added and the text that is subtracted. -/
def signedText (write : K → Term K) (value : K) : List String × List String :=
  if value < 0.0 then ([], [(write (-value)).text]) else ([(write value).text], [])

/-- A sum of texts, where what is subtracted comes last. -/
def differenceText (positive negative : List String) : String :=
  let plus := String.intercalate " + "
  match positive, negative with
  | positive, [] => plus positive
  | [], [text] => "-1 * " ++ text
  | [], texts => "-1 * (" ++ plus texts ++ ")"
  | positive, [text] => plus positive ++ " - " ++ text
  | positive, texts => plus positive ++ " - (" ++ plus texts ++ ")"

/-- The text of a sum that cannot be folded. A zero number is left out. -/
def sumText (number percentage : Option K) (dimensions : List (K × String))
    (addends subtrahends : List (Term K)) : String :=
  let folded :=
    ((number.filter (· != 0.0)).map (signedText .number)).toList
      ++ (percentage.map (signedText .percentage)).toList
      ++ dimensions.map fun (value, unit) => signedText (.dimension · unit) value
  differenceText
    (folded.flatMap (·.1) ++ (sorted addends).map Term.addendText)
    (folded.flatMap (·.2) ++ (sorted subtrahends).map Term.subtrahendText)

end Reduce

/-- The sum of the addends among operands, less the subtrahends; none without any. -/
def reduceSum (operands : List (Operand K)) : Option (Term K) :=
  let number := total? (signedNumbers operands)
  let percentage := total? (signedPercentages operands)
  let dimensions :=
    totals (dimensions (under .add operands)) (dimensions (under .subtract operands))
  let addends := others (under .add operands)
  let subtrahends := others (under .subtract operands)
  let expression :=
    .expression (sumText number percentage dimensions addends subtrahends) .sum
  match number, percentage, dimensions, addends, subtrahends with
  | some value, none, [], [], [] => some (.number value)
  | none, some value, [], [], [] => some (.percentage value)
  | none, none, [(value, unit)], [], [] => some (.dimension value unit)
  | none, none, [], [], [] => none
  | none, none, [], [addend], [] => some addend
  | some value, _, _, _, _ =>
    if Number.isNaN value then some (.number Scalar.nan) else some expression
  | _, _, _, _, _ => some expression

end CssColor
