import CssColor.Proofs.Calc.Evaluation
import CssColor.Proofs.Calc.Folding
import CssColor.Proofs.Calc.ProductValue
import Mathlib.Algebra.BigOperators.Group.List.Basic
import Mathlib.Algebra.Group.Pi.Basic
import Mathlib.Tactic.Abel

/-!
# Unit types

The type of an expression without names (`Expression.HasType`) counts the percentages and the units
that it is a product of. Those of divisors count negatively, and the operands of a sum have one
type. If an expression evaluates to a number where nothing is known, its type counts nothing
(`Expression.evaluate_hasType`). There is one exception: a product that is folded to zero drops the
units in an expression that it could not fold before, and the percentages that it is divided by
(`Reduce.DropsUnits`).
-/

namespace CssColor

open Extended

/-! ## Types -/

/-- What types are made of: percentages and each unit. -/
inductive BaseUnit where
  | percent
  | unit (name : String)
deriving DecidableEq

/-- The exponents of percentages and of units. Without any, a value is a number. -/
abbrev UnitType := BaseUnit → ℤ

/-- The type of values with a unit. -/
def UnitType.ofUnit (unit : String) : UnitType := Pi.single (.unit unit) 1

/-- How an operand of a product counts. -/
def Operator.exponent : Operator → ℤ
  | divide => -1
  | _ => 1

namespace Unit

/-- The units that are multiples of each other. -/
def absoluteLengths : List String := ["px", "in", "cm", "mm", "q", "pt", "pc"]

/-- The unit that a unit is turned into. -/
def canonical (unit : String) : String := if unit ∈ absoluteLengths then "px" else unit

end Unit

namespace Expression

/-- The types of expressions. A name has none. -/
inductive HasType {K : Type} : Expression K → UnitType → Prop
  | number (x : K) : HasType (leaf (.number x)) 0
  | percentage (x : K) : HasType (leaf (.percentage x)) (Pi.single .percent 1)
  | dimension (x : K) (unit : String) :
      HasType (leaf (.dimension x unit)) (.ofUnit (Unit.canonical unit))
  | sum {operands : List (Operator × Expression K)} {type : UnitType} (hne : operands ≠ [])
      (hoperands : ∀ operand ∈ operands, HasType operand.2 type) : HasType (sum operands) type
  | product {operands : List (Operator × Expression K)}
      (type : Operator × Expression K → UnitType)
      (hoperands : ∀ operand ∈ operands, HasType operand.2 (type operand)) :
      HasType (product operands)
        (operands.map fun operand => operand.1.exponent • type operand).sum

/-- An expression has no more than one type. -/
theorem HasType.unique {K : Type} {tree : Expression K} {type type' : UnitType}
    (h : tree.HasType type) (h' : tree.HasType type') : type = type' := by
  induction h generalizing type' with
  | number x =>
    cases h'
    rfl
  | percentage x =>
    cases h'
    rfl
  | dimension x unit =>
    cases h'
    rfl
  -- All operands of a sum have its type, and it has at least one.
  | sum hne _ ih =>
    obtain ⟨first, rest, rfl⟩ := List.exists_cons_of_ne_nil hne
    cases h' with
    | sum _ hoperands' =>
      exact ih first List.mem_cons_self (hoperands' first List.mem_cons_self)
  | product type _ ih =>
    cases h' with
    | product type' hoperands' =>
      refine congrArg List.sum (List.map_congr_left fun operand hmem => ?_)
      rw [ih operand hmem (hoperands' operand hmem)]

/-- The type of a product is put together from those of its operands. -/
theorem HasType.exists_of_product {K : Type} {operands : List (Operator × Expression K)}
    {type : UnitType} (h : (Expression.product operands).HasType type) :
    ∃ operandType : Operator × Expression K → UnitType,
      (∀ operand ∈ operands, operand.2.HasType (operandType operand)) ∧
        type = (operands.map fun operand => operand.1.exponent • operandType operand).sum := by
  cases h with
  | product operandType hoperands => exact ⟨operandType, hoperands, rfl⟩

end Expression

/-! ## Rationals -/

namespace Extended

variable {x y : Extended}

/-- The product of rationals is a rational. -/
theorem IsRational.mul (hx : x.IsRational) (hy : y.IsRational) : (x * y).IsRational := by
  rw [hx, hy]
  rfl

/-- The quotient of rationals is a rational, unless the divisor is zero. -/
theorem IsRational.div (hx : x.IsRational) (hy : y.IsRational) (hzero : y ≠ rational 0) :
    (x / y).IsRational := by
  have hdivisor : y.toRat ≠ 0 := by
    intro heq
    rw [hy, heq] at hzero
    exact hzero rfl
  rw [hx, hy, rational_div hdivisor]
  rfl

/-- A rational is a number. -/
theorem IsRational.isNaN (hx : x.IsRational) : Number.isNaN x = false := by
  rw [hx]
  exact isNaN_rational

end Extended

/-- Lengths in absolute units are turned into pixels, and the other units stay as they are. -/
theorem Unit.pixels?_cases {x : Extended} (hx : x.IsRational) (unit : String) :
    (∃ pixels, Unit.pixels? x unit = some pixels ∧ pixels.IsRational ∧
      Unit.canonical unit = "px") ∨
    (Unit.pixels? x unit = none ∧ Unit.canonical unit = unit) := by
  have hinch : (x * 96.0).IsRational := hx.mul rfl
  have hpoint : (x * 4.0).IsRational := hx.mul rfl
  unfold Unit.pixels?
  -- One case for each absolute length; the canonical unit of any other unit is itself.
  split
  · exact .inl ⟨_, rfl, hx, by decide⟩
  · exact .inl ⟨_, rfl, hinch, by decide⟩
  · exact .inl ⟨_, rfl, hinch.div rfl (by decide +kernel), by decide⟩
  · exact .inl ⟨_, rfl, hinch.div rfl (by decide +kernel), by decide⟩
  · exact .inl ⟨_, rfl, hinch.div rfl (by decide +kernel), by decide⟩
  · exact .inl ⟨_, rfl, hpoint.div rfl (by decide +kernel), by decide⟩
  · exact .inl ⟨_, rfl, hx.mul rfl, by decide⟩
  · next hpx hin hcm hmm hq hpt hpc =>
    refine .inr ⟨rfl, if_neg fun hmem => ?_⟩
    simp only [Unit.absoluteLengths, List.mem_cons, List.not_mem_nil, or_false] at hmem
    rcases hmem with h | h | h | h | h | h | h
    · exact hpx h
    · exact hin h
    · exact hcm h
    · exact hmm h
    · exact hq h
    · exact hpt h
    · exact hpc h

/-! ## Values -/

namespace Term

/-- The term is a number, a percentage or a value with a unit, and a rational. -/
def IsQuantity : Term Extended → Prop
  | number x => x.IsRational
  | percentage x => x.IsRational
  | dimension x _ => x.IsRational
  | _ => False

/-- The type of a number or of a value with a unit. -/
def unitType : Term Extended → UnitType
  | dimension _ unit => .ofUnit unit
  | _ => 0

end Term

/-- If the value is a number or has a unit, it is a rational and the expression has its type. No
more is known of the others: a product of percentages may be folded to 0%. -/
def Expression.Measures (tree : Expression Extended) : Term Extended → Prop
  | .number x => x.IsRational ∧ tree.HasType 0
  | .dimension x unit => x.IsRational ∧ tree.HasType (.ofUnit unit)
  | _ => True

/-- The scope has no basis for percentages and turns no unit into another, but for lengths. -/
structure Scope.IsPlain (scope : Scope Extended) : Prop where
  percentageBasis : scope.percentageBasis = none
  anglesAsDegrees : scope.anglesAsDegrees = false
  dimensions : ∀ unit, scope.dimensions unit = none

namespace Expression

variable {scope : Scope Extended} {operands : List (Operator × Expression Extended)}
  {values : List (Operand Extended)} {term value : Term Extended}

/-- A quantity has the type of what it evaluates to. -/
theorem measures_leaf (hscope : scope.IsPlain) (hterm : term.IsQuantity)
    (h : evaluateTerm scope term = some value) : (leaf term).Measures value := by
  cases term with
  | symbol | expression => cases hterm
  | number x =>
    cases h
    exact ⟨hterm, .number x⟩
  -- A percentage has no reference in a plain scope, and so no type either.
  | percentage x =>
    rw [evaluateTerm, hscope.percentageBasis] at h
    cases h
    trivial
  | dimension x unit =>
    have hx : x.IsRational := hterm
    have htype := HasType.dimension x unit
    rw [evaluateTerm, hscope.anglesAsDegrees, hscope.dimensions] at h
    rcases Unit.pixels?_cases hx unit with ⟨pixels, hpixels, hrational, hunit⟩ | ⟨hpixels, hunit⟩
    · rw [hpixels] at h
      rw [hunit] at htype
      cases h
      exact ⟨hrational, htype⟩
    · rw [hpixels] at h
      rw [hunit] at htype
      cases h
      exact ⟨hx, htype⟩

end Expression

/-! ## Operands -/

namespace Reduce

open Expression

/-- A product is folded to zero, and all that is left of a unit or a percentage is in an expression
or in a percentage that is divided by. -/
structure DropsUnits (operands : List (Operand Extended)) : Prop where
  scale : (scale operands == 0.0) = true
  percentages : percentages (under .multiply operands) = []
  multiplied : dimensions (under .multiply operands) = []
  divided : dimensions (under .divide operands) = []
  others : ¬ (others (under .multiply operands) = [] ∧ divisors (under .divide operands) = [])

variable {operands : List (Operand Extended)}

/-- The numbers and the values with a unit among operands are rationals. -/
structure AreRational (operands : List (Operand Extended)) : Prop where
  numbers : ∀ operator x, ⟨operator, .number x⟩ ∈ operands → x.IsRational
  dimensions : ∀ operator x unit, ⟨operator, .dimension x unit⟩ ∈ operands → x.IsRational

/-- The sum of the numbers is a rational if each of them is. -/
theorem AreRational.total? (h : AreRational operands) :
    ∀ x ∈ total? (signedNumbers operands), x.IsRational := by
  have hsigned : ∀ x ∈ signedNumbers operands, x.IsRational := by
    intro x hx
    obtain ⟨⟨operator, term⟩, hmem, hx⟩ := List.mem_filterMap.1 hx
    -- Only numbers are taken, and only those that are added or subtracted.
    cases term with
    | number y =>
      cases operator with
      | add =>
        cases hx
        exact h.numbers _ _ hmem
      | subtract =>
        cases hx
        exact (h.numbers _ _ hmem).neg
      | multiply | divide => cases hx
    | percentage | dimension | symbol | expression => cases operator <;> cases hx
  exact (numberTotal_total? hsigned).2

/-- The values with units are rationals. -/
theorem AreRational.mem_dimensions (h : AreRational operands) {operator : Operator}
    {value : Extended × String} (hvalue : value ∈ Reduce.dimensions (under operator operands)) :
    value.1.IsRational := by
  obtain ⟨⟨operator, term⟩, hmem, rfl⟩ := exists_of_mem_under (mem_of_mem_dimensions hvalue)
  exact h.dimensions _ _ _ hmem

/-- The totals of the values with units are rationals. -/
theorem AreRational.operandTotals (h : AreRational operands) :
    ∀ total ∈ operandTotals operands, total.1.IsRational := by
  -- What the units stand for has no part in it.
  let σ : Assignment := ⟨fun _ => 0, fun _ => 0, 0⟩
  exact (unitTotal_totals (σ := σ) (fun _ => h.mem_dimensions) fun _ => h.mem_dimensions).2

/-- The scale of a product is a rational if no number in it is divided by zero. -/
theorem AreRational.scale (h : AreRational operands)
    (hdivisors : ∀ x, ⟨.divide, .number x⟩ ∈ operands → x ≠ rational 0) :
    (scale operands).IsRational := by
  have hfactors : ∀ x ∈ scaleFactors operands, x.IsRational := by
    intro x hx
    obtain ⟨⟨operator, term⟩, hmem, hx⟩ := List.mem_filterMap.1 hx
    cases term with
    -- Dividing by a number is multiplying by its inverse.
    | number y =>
      have hy : y.IsRational := h.numbers _ _ hmem
      cases operator with
      | multiply =>
        cases hx
        exact hy
      | divide =>
        cases hx
        exact IsRational.div rfl hy (hdivisors y hmem)
      | add | subtract => cases hx
    | percentage | dimension | symbol | expression => cases operator <;> cases hx
  rw [Reduce.scale, product_rational hfactors]
  rfl

/-- The types of values with a unit, one after the other. -/
def unitTypes (values : List (Extended × String)) : UnitType :=
  (values.map fun value => UnitType.ofUnit value.2).sum

/-- The types of the operands of a product count those that are multiplied with and, negatively,
those that are divided by. -/
theorem sum_unitType
    (h : ∀ operand ∈ operands, operand.operator = .multiply ∨ operand.operator = .divide) :
    (operands.map fun operand => operand.operator.exponent • operand.term.unitType).sum =
      unitTypes (dimensions (under .multiply operands)) -
        unitTypes (dimensions (under .divide operands)) := by
  -- Only a dimension has a type other than that of a number.
  have hcons : ∀ (term : Term Extended) (terms : List (Term Extended)),
      unitTypes (dimensions (term :: terms)) = term.unitType + unitTypes (dimensions terms) := by
    intro term terms
    cases term with
    | dimension => exact List.sum_cons
    | number | percentage | symbol | expression => exact (zero_add _).symm
  induction operands with
  | nil => exact (sub_self _).symm
  | cons operand rest ih =>
    obtain ⟨operator, term⟩ := operand
    obtain ⟨hoperator, hrest⟩ := List.forall_mem_cons.1 h
    rw [List.map_cons, List.sum_cons, ih hrest, under_cons, under_cons]
    rcases hoperator with hmultiply | hdivide
    · obtain rfl : operator = .multiply := hmultiply
      rw [if_pos rfl, if_neg (by decide), List.singleton_append, List.nil_append, hcons]
      show (1 : ℤ) • term.unitType + _ = _
      rw [one_zsmul]
      abel
    · obtain rfl : operator = .divide := hdivide
      rw [if_neg (by decide), if_pos rfl, List.singleton_append, List.nil_append, hcons]
      show (-1 : ℤ) • term.unitType + _ = _
      rw [neg_one_zsmul]
      abel

end Reduce

open Reduce

namespace Expression

/-! ## Sums and products -/

variable {scope : Scope Extended} {operands : List (Operator × Expression Extended)}
  {values : List (Operand Extended)} {value : Term Extended}

/-- Each value is what an operand evaluates to, and measures it. -/
def AreMeasured (scope : Scope Extended) (operands : List (Operator × Expression Extended))
    (values : List (Operand Extended)) : Prop :=
  List.Forall₂ (fun operand value => EvaluatesTo scope operand value ∧
    operand.2.Measures value.term) operands values

/-- Values of operands measure them if whatever an operand evaluates to does. -/
theorem areMeasured_of_evaluateOperands (hvalues : evaluateOperands scope operands = some values)
    (h : ∀ operand ∈ operands, ∀ value, operand.2.evaluate scope = some value →
      operand.2.Measures value) : AreMeasured scope operands values := by
  have hall := evaluateOperands_eq_some_iff.1 hvalues
  have hmem : List.Forall₂ (fun operand value => operand ∈ operands ∧
      EvaluatesTo scope operand value) operands values :=
    (List.forall₂_and_left _ _).2 ⟨fun _ h => h, hall⟩
  refine hmem.imp ?_
  rintro operand value ⟨hmem, hevaluates⟩
  exact ⟨hevaluates, h operand hmem value.term hevaluates.2⟩

/-- The values of measured operands are rationals. -/
theorem AreMeasured.areRational (h : AreMeasured scope operands values) : AreRational values where
  numbers operator x hmem := by
    obtain ⟨operand, -, -, hmeasures⟩ := (exists_of_mem_forall₂ h).2 _ hmem
    exact hmeasures.1
  dimensions operator x unit hmem := by
    obtain ⟨operand, -, -, hmeasures⟩ := (exists_of_mem_forall₂ h).2 _ hmem
    exact hmeasures.1

/-- The values come with the signs of their operands. -/
theorem AreMeasured.operator {P : Operator → Prop} (h : AreMeasured scope operands values)
    (hoperators : ∀ operand ∈ operands, P operand.1) : ∀ value ∈ values, P value.operator := by
  intro value hmem
  obtain ⟨operand, hoperand, ⟨hoperator, -⟩, -⟩ := (exists_of_mem_forall₂ h).2 value hmem
  rw [← hoperator]
  exact hoperators operand hoperand

/-- A sum has the type of the value that it is folded to. -/
theorem AreMeasured.sum (h : AreMeasured scope operands values) (hne : operands ≠ [])
    (hoperators : ∀ operand ∈ operands, operand.1 = .add ∨ operand.1 = .subtract)
    (hvalue : reduceSum values = some value) : (sum operands).Measures value := by
  have hsigns := h.operator (P := fun operator => operator = .add ∨ operator = .subtract) hoperators
  cases sumFold_of_reduceSum hvalue with
  | percentage | expression => trivial
  | addend addend haddend =>
    cases value with
    | symbol | expression => trivial
    | number | percentage | dimension => cases haddend
  | notANumber total htotal hnan =>
    rw [(h.areRational.total? total htotal).isNaN] at hnan
    cases hnan
  -- If a number is left, each operand is a number.
  | number total hparts hothers =>
    refine ⟨h.areRational.total? total hparts.number, .sum hne fun operand hmem => ?_⟩
    obtain ⟨⟨operator, term⟩, hvalue, -, hmeasures⟩ := (exists_of_mem_forall₂ h).1 operand hmem
    have hoperator := hsigns _ hvalue
    -- An operand of another kind would be left in a part that has no members.
    cases term with
    | number x => exact hmeasures.2
    | percentage x =>
      exact absurd hparts.percentage (total?_signedPercentages_ne_none hoperator hvalue)
    | dimension x unit =>
      obtain ⟨total, htotal, -⟩ := exists_mem_operandTotals hoperator hvalue
      rw [hparts.dimensions] at htotal
      cases htotal
    | symbol | expression => cases hothers.isSymbolic_eq_false hoperator hvalue
  -- If a unit is left, each operand has this unit.
  | dimension total unit hparts hothers =>
    have hmem : (total, unit) ∈ operandTotals values := by
      rw [hparts.dimensions]
      exact List.mem_cons_self
    refine ⟨h.areRational.operandTotals _ hmem, .sum hne fun operand hmem => ?_⟩
    obtain ⟨⟨operator, term⟩, hvalue, -, hmeasures⟩ := (exists_of_mem_forall₂ h).1 operand hmem
    have hoperator := hsigns _ hvalue
    cases term with
    | number x => exact absurd hparts.number (total?_signedNumbers_ne_none hoperator hvalue)
    | percentage x =>
      exact absurd hparts.percentage (total?_signedPercentages_ne_none hoperator hvalue)
    | dimension x other =>
      -- The unit of the operand is that of the only total.
      obtain ⟨⟨y, known⟩, htotal, rfl⟩ := exists_mem_operandTotals hoperator hvalue
      rw [hparts.dimensions, List.mem_singleton] at htotal
      cases htotal
      exact hmeasures.2
    | symbol | expression => cases hothers.isSymbolic_eq_false hoperator hvalue

/-- The type of a product of numbers and values with a unit. -/
theorem AreMeasured.hasType_product (h : AreMeasured scope operands values)
    (hoperators : ∀ operand ∈ operands, operand.1 = .multiply ∨ operand.1 = .divide)
    (hmeasured : IsMeasured values) : (product operands).HasType
      (unitTypes (dimensions (under .multiply values)) -
        unitTypes (dimensions (under .divide values))) := by
  have hfactors :=
    h.operator (P := fun operator => operator = .multiply ∨ operator = .divide) hoperators
  -- The type of an operand is that of the value that it evaluates to.
  let type (operand : Operator × Expression Extended) : UnitType :=
    ((operand.2.evaluate scope).map Term.unitType).getD 0
  have htype : ∀ operand value, EvaluatesTo scope operand value →
      type operand = value.term.unitType := by
    intro operand value hevaluates
    show ((operand.2.evaluate scope).map Term.unitType).getD 0 = _
    rw [hevaluates.2]
    rfl
  have hsum : (operands.map fun operand => operand.1.exponent • type operand).sum =
      (values.map fun value => value.operator.exponent • value.term.unitType).sum := by
    refine congrArg List.sum (List.forall₂_eq_eq_eq ▸ ?_)
    rw [List.forall₂_map_left_iff, List.forall₂_map_right_iff]
    refine h.imp ?_
    rintro operand value ⟨hevaluates, -⟩
    rw [hevaluates.1, htype operand value hevaluates]
  rw [← sum_unitType hfactors, ← hsum]
  -- Each operand has the type of its value, which is a number or has a unit.
  refine .product type fun operand hmem => ?_
  obtain ⟨⟨operator, term⟩, hvalue, hevaluates, hmeasures⟩ :=
    (exists_of_mem_forall₂ h).1 operand hmem
  rw [htype operand _ hevaluates]
  rcases hmeasured.eq_number_or_dimension hvalue (hfactors _ hvalue) with
    ⟨x, rfl⟩ | ⟨x, unit, rfl⟩
  · exact hmeasures.2
  · exact hmeasures.2

/-- A product has the type of the value that it is folded to, unless the folding drops units. -/
theorem AreMeasured.product (h : AreMeasured scope operands values)
    (hoperators : ∀ operand ∈ operands, operand.1 = .multiply ∨ operand.1 = .divide)
    (hdivisors : ∀ x, ⟨.divide, .number x⟩ ∈ values → x ≠ rational 0)
    (hkept : ¬ DropsUnits values) (hvalue : reduceProduct values = some value) :
    (product operands).Measures value := by
  have hscale := h.areRational.scale hdivisors
  cases productFold_of_reduceProduct hvalue with
  | zeroPercentage | percentage | expression => trivial
  | notANumber hnan =>
    rw [hscale.isNaN] at hnan
    cases hnan
  -- The scale is zero: an operand of another kind would drop its units here.
  | zero hzero hmultiplied hdivided hpercentages =>
    have hothers : others (under .multiply values) = [] ∧
        Reduce.divisors (under .divide values) = [] := by
      by_contra hothers
      exact hkept ⟨hzero, hpercentages, hmultiplied, hdivided, hothers⟩
    have htype := h.hasType_product hoperators ⟨hpercentages, hothers.1, hothers.2⟩
    rw [hmultiplied, hdivided, sub_self] at htype
    exact ⟨rfl, htype⟩
  | number hmeasured hmultiplied hdivided =>
    have htype := h.hasType_product hoperators hmeasured
    rw [hmultiplied, hdivided, sub_self] at htype
    exact ⟨hscale, htype⟩
  | dimension x unit hmeasured hmultiplied hdivided =>
    have hmem : (x, unit) ∈ dimensions (under .multiply values) := by
      rw [hmultiplied]
      exact List.mem_cons_self
    have hx : x.IsRational := h.areRational.mem_dimensions hmem
    have htype := h.hasType_product hoperators hmeasured
    have hunit : unitTypes [(x, unit)] - unitTypes [] = .ofUnit unit := by
      simp [unitTypes]
    rw [hmultiplied, hdivided, hunit] at htype
    exact ⟨hx.mul hscale, htype⟩
  -- The same unit is multiplied and divided by, so that none is left.
  | ratio x divisor unit hmeasured hmultiplied hdivided hdivisor =>
    have hmem : (x, unit) ∈ dimensions (under .multiply values) := by
      rw [hmultiplied]
      exact List.mem_cons_self
    have hmem' : (divisor, unit) ∈ dimensions (under .divide values) := by
      rw [hdivided]
      exact List.mem_cons_self
    have hx : x.IsRational := h.areRational.mem_dimensions hmem
    have hy : divisor.IsRational := h.areRational.mem_dimensions hmem'
    have hzero : divisor ≠ rational 0 := by
      rintro rfl
      rw [zero_eq, rational_beq_iff.2 rfl] at hdivisor
      cases hdivisor
    have htype := h.hasType_product hoperators hmeasured
    have hunit : unitTypes [(x, unit)] - unitTypes [(divisor, unit)] = 0 := sub_self _
    rw [hmultiplied, hdivided, hunit] at htype
    exact ⟨(hscale.mul hx).div hy hzero, htype⟩

/-! ## Expressions -/

/-- The leaves of the expression are quantities, no number in it is divided by zero, and no product
in it drops units. -/
structure KeepsUnits (scope : Scope Extended) (tree : Expression Extended) : Prop where
  leaves : ∀ term ∈ tree.leaves, term.IsQuantity
  divisors : ∀ divisor ∈ tree.divisors, divisor.evaluate scope ≠ some (.number (rational 0))
  products : ∀ operands, Expression.product operands ∈ tree.parts → ∀ values,
    evaluateOperands scope operands = some values → ¬ DropsUnits values

variable {tree : Expression Extended}

/-- The operands of an expression keep their units if it does. -/
theorem KeepsUnits.operand {operand : Operator × Expression Extended}
    (h : tree.KeepsUnits scope) (hoperands : tree.HasOperands operands)
    (hmem : operand ∈ operands) : operand.2.KeepsUnits scope where
  leaves term hterm := h.leaves term (hoperands.mem_leaves hmem hterm)
  divisors divisor hdivisor := h.divisors divisor (hoperands.mem_divisors hmem hdivisor)
  products _ hpart := h.products _ (hoperands.mem_parts hmem hpart)

/-- What a tree in normal form evaluates to has the type of the tree. -/
theorem IsNormal.measures (hscope : scope.IsPlain) (h : tree.IsNormal)
    (hunits : tree.KeepsUnits scope) {value : Term Extended}
    (hvalue : tree.evaluate scope = some value) : tree.Measures value := by
  induction h generalizing value with
  | @leaf term hterm =>
    rw [evaluate] at hvalue
    refine measures_leaf hscope (hunits.leaves term ?_) hvalue
    rw [leaves]
    exact List.mem_cons_self
  | @sum first rest hrest hoperators hoperands ih =>
    rw [evaluate] at hvalue
    obtain ⟨values, hvalues, hvalue⟩ := Option.bind_eq_some_iff.1 hvalue
    have hall := areMeasured_of_evaluateOperands hvalues fun operand hmem _ =>
      ih operand hmem (hunits.operand (.inl rfl) hmem)
    exact hall.sum (List.cons_ne_nil _ _) (List.forall_mem_cons.2 ⟨.inl rfl, hoperators⟩) hvalue
  | @product first rest hrest hoperators hoperands ih =>
    rw [evaluate] at hvalue
    obtain ⟨values, hvalues, hvalue⟩ := Option.bind_eq_some_iff.1 hvalue
    have hall := areMeasured_of_evaluateOperands hvalues fun operand hmem _ =>
      ih operand hmem (hunits.operand (.inr rfl) hmem)
    refine hall.product (List.forall_mem_cons.2 ⟨.inl rfl, hoperators⟩) (fun x hx => ?_)
      (hunits.products _ (mem_parts_self _) values hvalues) hvalue
    -- A number that is divided by is what an operand evaluates to.
    rintro rfl
    obtain ⟨⟨operator, divisor⟩, hmem, ⟨hoperator, hzero⟩, -⟩ := (exists_of_mem_forall₂ hall).2 _ hx
    obtain rfl : operator = .divide := hoperator
    exact hunits.divisors divisor (mem_divisors_of_divide hmem) hzero

/-- Let the leaves of an expression that the grammar reads be rational quantities, let no divisor in
it be zero, and let no product in it drop units. If it evaluates to a number where percentages have
no basis and no unit a value, its type counts neither percentages nor units. -/
theorem evaluate_hasType {levels : ℕ} {tokens rest : List (Token Extended)}
    (h : (rule levels).run tokens = (some tree, rest)) (hscope : scope.IsPlain)
    (hleaves : ∀ term ∈ tree.leaves, term.IsQuantity)
    (hdivisors : ∀ divisor ∈ tree.divisors, divisor.evaluate scope ≠ some (.number (rational 0)))
    (hproducts : ∀ operands, Expression.product operands ∈ tree.parts → ∀ values,
      evaluateOperands scope operands = some values → ¬ DropsUnits values)
    {x : Extended} (hvalue : tree.evaluate scope = some (.number x)) : tree.HasType 0 := by
  have hnormal : tree.IsNormal := rule_isNormal levels tokens tree rest h
  exact (hnormal.measures hscope ⟨hleaves, hdivisors, hproducts⟩ hvalue).2

/-- In `calc(2in / 48px * 3)` the inches are turned into pixels, and what is left is a number. -/
theorem evaluate_hasType_ratio :
    let tree : Expression Extended := product [(.multiply, leaf (.dimension (rational 2) "in")),
      (.divide, leaf (.dimension (rational 48) "px")), (.multiply, leaf (.number (rational 3)))]
    (rule 1).run [.function "calc", .dimension (rational 2) "in", .whitespace, .delim '/',
      .whitespace, .dimension (rational 48) "px", .whitespace, .delim '*', .whitespace,
      .number (rational 3), .closeParen] = (some tree, []) ∧
      tree.evaluate .empty = some (.number (rational 12)) ∧ tree.HasType 0 := by
  intro tree
  have hnormal : tree.IsNormal := by
    refine .product (by simp) (by simp) (List.forall_mem_cons.2 ⟨.leaf trivial, ?_⟩)
    exact List.forall_mem_cons.2 ⟨.leaf trivial, List.forall_mem_singleton.2 (.leaf trivial)⟩
  have hread : (rule 1).run tree.callTokens = (some tree, []) := hnormal.run_callTokens (by decide)
  have hscope : Scope.empty.IsPlain := ⟨rfl, rfl, fun _ => rfl⟩
  have hleaves : ∀ term ∈ tree.leaves, term.IsQuantity := by
    have hall : tree.leaves = [.dimension (rational 2) "in", .dimension (rational 48) "px",
      .number (rational 3)] := rfl
    rw [hall]
    simp only [List.forall_mem_cons, List.not_mem_nil, false_imp_iff, implies_true, and_true]
    exact ⟨rfl, rfl, rfl⟩
  have hdivisors : ∀ divisor ∈ tree.divisors,
      divisor.evaluate .empty ≠ some (.number (rational 0)) := by
    have hall : tree.divisors = [leaf (.dimension (rational 48) "px")] := rfl
    rw [hall, List.forall_mem_singleton]
    decide +kernel
  -- The product has three operands, and its buckets are not empty.
  have hproducts : ∀ operands, Expression.product operands ∈ tree.parts → ∀ values,
      evaluateOperands .empty operands = some values → ¬ DropsUnits values := by
    intro operands hpart values hvalues hdrops
    have hoperands : operands = [(.multiply, leaf (.dimension (rational 2) "in")),
        (.divide, leaf (.dimension (rational 48) "px")),
        (.multiply, leaf (.number (rational 3)))] := by
      simpa [tree, parts, operandParts] using hpart
    subst hoperands
    have hall : evaluateOperands .empty [(.multiply, leaf (.dimension (rational 2) "in")),
        (.divide, leaf (.dimension (rational 48) "px")),
        (.multiply, leaf (.number (rational 3)))] =
        some [⟨.multiply, .dimension (rational 2 * 96.0) "px"⟩,
          ⟨.divide, .dimension (rational 48) "px"⟩, ⟨.multiply, .number (rational 3)⟩] := rfl
    rw [hall] at hvalues
    cases hvalues
    cases hdrops.multiplied
  have hvalue : tree.evaluate .empty = some (.number (rational 12)) := by decide +kernel
  exact ⟨hread, hvalue, evaluate_hasType hread hscope hleaves hdivisors hproducts hvalue⟩

/-- In `calc(0 * (1px * 1em))` the product in parentheses becomes an expression, and the units in it
are dropped for a zero. -/
theorem evaluate_droppedUnits :
    let tree : Expression Extended := product [(.multiply, leaf (.number (rational 0))),
      (.multiply, product [(.multiply, leaf (.dimension (rational 1) "px")),
        (.multiply, leaf (.dimension (rational 1) "em"))])]
    (rule 2).run [.function "calc", .number (rational 0), .whitespace, .delim '*', .whitespace,
      .openParen, .dimension (rational 1) "px", .whitespace, .delim '*', .whitespace,
      .dimension (rational 1) "em", .closeParen, .closeParen] = (some tree, []) ∧
      (∀ term ∈ tree.leaves, term.IsQuantity) ∧ tree.divisors = [] ∧
      tree.evaluate .empty = some (.number (rational 0)) ∧ ¬ tree.HasType 0 := by
  intro tree
  have hinner : IsNormal (product [(.multiply, leaf (.dimension (rational 1) "px")),
      (.multiply, leaf (.dimension (rational 1) "em"))]) := .product (by simp) (by simp)
    (List.forall_mem_cons.2 ⟨.leaf trivial, List.forall_mem_singleton.2 (.leaf trivial)⟩)
  have hnormal : tree.IsNormal := .product (by simp) (by simp)
    (List.forall_mem_cons.2 ⟨.leaf trivial, List.forall_mem_singleton.2 hinner⟩)
  have hread : (rule 2).run tree.callTokens = (some tree, []) := hnormal.run_callTokens (by decide)
  have hleaves : ∀ term ∈ tree.leaves, term.IsQuantity := by
    have hall : tree.leaves = [.number (rational 0), .dimension (rational 1) "px",
      .dimension (rational 1) "em"] := rfl
    rw [hall]
    simp only [List.forall_mem_cons, List.not_mem_nil, false_imp_iff, implies_true, and_true]
    exact ⟨rfl, rfl, rfl⟩
  -- A type of the product would count each unit of its operands.
  refine ⟨hread, hleaves, rfl, by decide +kernel, fun hzero => ?_⟩
  obtain ⟨type, htypes, hsum⟩ := hzero.exists_of_product
  obtain ⟨hnumber, hproduct⟩ := List.forall_mem_cons.1 htypes
  obtain ⟨type', htypes', hsum'⟩ := (List.forall_mem_singleton.1 hproduct).exists_of_product
  obtain ⟨hpx, hem⟩ := List.forall_mem_cons.1 htypes'
  -- The unit `em` counts once.
  have hcount := congrFun hsum (.unit "em")
  simp only [List.map_cons, List.map_nil, List.sum_cons, List.sum_nil, Operator.exponent, one_zsmul,
    hsum', hnumber.unique (.number _), hpx.unique (.dimension _ _),
    (List.forall_mem_singleton.1 hem).unique (.dimension _ _)] at hcount
  revert hcount
  decide

end Expression

end CssColor
