import CssColor.Proofs.Calc.Closure
import CssColor.Proofs.Calc.Evaluation
import CssColor.Proofs.Number.Extended
import CssColor.Value.Resolve
import Mathlib.Algebra.Order.Group.MinMax

/-!
# Expressions as arithmetic

Where every leaf of an expression stands for a rational, the expression is plain arithmetic
(`Expression.arithmetic`): sums and products are worked out from left to right, and a quotient is a
quotient. Evaluation gets there in another way. It collects the numbers of a sum or a product,
multiplies with a reciprocal where it has to divide, and looks for a factor of zero first. The two
agree as long as nothing is divided by zero (`Expression.evaluate_eq_arithmetic`).
-/

namespace CssColor

open Extended

namespace Operator

/-- The result of an operator on the number to its left and the one to its right. -/
def apply : Operator → ℚ → ℚ → ℚ
  | add, a, b => a + b
  | subtract, a, b => a - b
  | multiply, a, b => a * b
  | divide, a, b => a / b

end Operator

/-! ## Operands that are numbers -/

namespace Reduce

/-- Rationals under operators as operands. -/
def numeric (values : List (Operator × ℚ)) : List (Operand Extended) :=
  values.map fun value => ⟨value.1, .number (rational value.2)⟩

/-- The values joined from left to right. -/
def chain (start : ℚ) (values : List (Operator × ℚ)) : ℚ :=
  values.foldl (fun total value => value.1.apply total value.2) start

section Numeric

variable {values : List (Operator × ℚ)}

/-- Among numbers there are neither percentages nor values with a unit nor symbols. -/
theorem under_numeric (values : List (Operator × ℚ)) (operator : Operator) :
    percentages (under operator (numeric values)) = [] ∧
      dimensions (under operator (numeric values)) = [] ∧
      others (under operator (numeric values)) = [] ∧
      divisors (under operator (numeric values)) = [] := by
  have hnumber : ∀ term ∈ under operator (numeric values), ∃ a, term = .number (rational a) := by
    intro term hterm
    obtain ⟨operand, hoperand, rfl⟩ := exists_of_mem_under hterm
    obtain ⟨value, -, rfl⟩ := List.mem_map.1 hoperand
    exact ⟨value.2, rfl⟩
  -- Each of the four lists takes terms of another kind.
  refine ⟨?_, ?_, ?_, ?_⟩
  · refine List.filterMap_eq_nil_iff.2 fun term hterm => ?_
    obtain ⟨a, rfl⟩ := hnumber term hterm
    rfl
  · refine List.filterMap_eq_nil_iff.2 fun term hterm => ?_
    obtain ⟨a, rfl⟩ := hnumber term hterm
    rfl
  · refine List.filter_eq_nil_iff.2 fun term hterm => ?_
    obtain ⟨a, rfl⟩ := hnumber term hterm
    exact Bool.false_ne_true
  · refine List.filter_eq_nil_iff.2 fun term hterm => ?_
    obtain ⟨a, rfl⟩ := hnumber term hterm
    exact Bool.false_ne_true

/-- There are no percentages among numbers. -/
theorem signedPercentages_numeric : signedPercentages (numeric values) = [] := by
  refine List.filterMap_eq_nil_iff.2 fun operand hoperand => ?_
  obtain ⟨⟨operator, a⟩, -, rfl⟩ := List.mem_map.1 hoperand
  cases operator <;> rfl

/-- Adding the signed numbers of a sum one by one joins them from left to right. -/
theorem foldl_signedNumbers_numeric (start : ℚ)
    (h : ∀ value ∈ values, value.1 = .add ∨ value.1 = .subtract) :
    (signedNumbers (numeric values)).foldl (· + ·) (rational start) =
      rational (chain start values) := by
  induction values generalizing start with
  | nil => rfl
  | cons value rest ih =>
    obtain ⟨operator, a⟩ := value
    obtain ⟨hoperator, hrest⟩ := List.forall_mem_cons.1 h
    rcases hoperator with hadd | hsubtract
    · obtain rfl : operator = .add := hadd
      exact ih (start + a) hrest
    · obtain rfl : operator = .subtract := hsubtract
      -- Subtracting is adding the negated number.
      have hstep : rational start + -rational a = rational (start - a) := by
        rw [sub_eq_add_neg]
        rfl
      show (signedNumbers (numeric rest)).foldl (· + ·) (rational start + -rational a) = _
      rw [hstep]
      exact ih (start - a) hrest

/-- Multiplying the numbers of a product one by one, reciprocals for the divisors, joins them from
left to right. -/
theorem foldl_scaleFactors_numeric (start : ℚ)
    (h : ∀ value ∈ values, value.1 = .multiply ∨ value.1 = .divide)
    (hzero : ∀ value ∈ values, value.1 = .divide → value.2 ≠ 0) :
    (scaleFactors (numeric values)).foldl (· * ·) (rational start) =
      rational (chain start values) := by
  induction values generalizing start with
  | nil => rfl
  | cons value rest ih =>
    obtain ⟨operator, a⟩ := value
    obtain ⟨hoperator, hrest⟩ := List.forall_mem_cons.1 h
    obtain ⟨ha, hrestZero⟩ := List.forall_mem_cons.1 hzero
    rcases hoperator with hmultiply | hdivide
    · obtain rfl : operator = .multiply := hmultiply
      exact ih (start * a) hrest hrestZero
    · obtain rfl : operator = .divide := hdivide
      -- A reciprocal is multiplied with, so the divisor must not be zero.
      have hstep : rational start * (1.0 / rational a) = rational (start / a) := by
        rw [one_eq, rational_div (ha rfl), rational_mul, mul_one_div]
      show (scaleFactors (numeric rest)).foldl (· * ·) (rational start * (1.0 / rational a)) = _
      rw [hstep]
      exact ih (start / a) hrest hrestZero

/-- A sum of numbers is the number that joining them gives. -/
theorem reduceSum_numeric (hne : values ≠ [])
    (h : ∀ value ∈ values, value.1 = .add ∨ value.1 = .subtract) :
    reduceSum (numeric values) = some (.number (rational (chain 0 values))) := by
  obtain ⟨-, hadded, haddends, -⟩ := under_numeric values .add
  obtain ⟨-, hsubtracted, hsubtrahends, -⟩ := under_numeric values .subtract
  -- The numbers are summed up from minus zero, which is the rational zero.
  have htotal : total? (signedNumbers (numeric values)) = some (rational (chain 0 values)) := by
    obtain ⟨⟨operator, a⟩, rest, rfl⟩ := List.exists_cons_of_ne_nil hne
    have hsome : signedNumbers (numeric ((operator, a) :: rest)) ≠ [] := by
      rcases h _ List.mem_cons_self with hadd | hsubtract
      · obtain rfl : operator = .add := hadd
        exact List.cons_ne_nil _ _
      · obtain rfl : operator = .subtract := hsubtract
        exact List.cons_ne_nil _ _
    have hzero : (-0.0 : Extended) = rational 0 := congrArg rational (by norm_num)
    rw [total?, List.isEmpty_eq_false_iff.2 hsome, if_neg Bool.false_ne_true, Number.sum, hzero,
      foldl_signedNumbers_numeric 0 h]
  have hpercentages : total? (signedPercentages (numeric values)) = none := by
    rw [signedPercentages_numeric]
    rfl
  have htotals : totals ([] : List (Extended × String)) [] = [] := by simp [totals]
  unfold reduceSum
  rw [htotal, hpercentages, hadded, hsubtracted, haddends, hsubtrahends]
  simp only [htotals]

/-- A product of numbers is the number that joining them gives, if none is divided by zero. -/
theorem reduceProduct_numeric (hne : values ≠ [])
    (h : ∀ value ∈ values, value.1 = .multiply ∨ value.1 = .divide)
    (hzero : ∀ value ∈ values, value.1 = .divide → value.2 ≠ 0) :
    reduceProduct (numeric values) = some (.number (rational (chain 1 values))) := by
  obtain ⟨hpercentages, hmultiplied, hfactors, -⟩ := under_numeric values .multiply
  obtain ⟨-, hdivided, -, hdivisors⟩ := under_numeric values .divide
  have hsome : (numeric values).isEmpty = false := by
    rw [List.isEmpty_eq_false_iff]
    exact fun hnil => hne (List.map_eq_nil_iff.1 hnil)
  have hscale : Number.product (scaleFactors (numeric values)) = rational (chain 1 values) := by
    rw [Number.product, one_eq, foldl_scaleFactors_numeric 1 h hzero]
  -- With every other part empty, the zero test or the case of a scale alone is left.
  unfold reduceProduct
  rw [hsome, hscale, hpercentages, hmultiplied, hdivided, hfactors, hdivisors]
  simp only [isNaN_rational, Bool.false_eq_true, if_false, List.isEmpty_nil, Bool.and_true,
    Bool.not_true]
  split
  · next hfold =>
    rw [zero_eq, rational_beq_iff] at hfold
    rw [hfold, zero_eq, if_pos trivial]
  · rfl

end Numeric

end Reduce

open Reduce

namespace Expression

/-! ## Trees -/

mutual

/-- The value of an expression by plain arithmetic, where its leaves stand for rationals. -/
def arithmetic (leafValue : Term Extended → ℚ) : Expression Extended → ℚ
  | leaf term => leafValue term
  | sum operands => arithmeticFrom leafValue 0 operands
  | product operands => arithmeticFrom leafValue 1 operands

/-- The operands joined to a number, from left to right. -/
def arithmeticFrom (leafValue : Term Extended → ℚ) (start : ℚ) :
    List (Operator × Expression Extended) → ℚ
  | [] => start
  | (operator, operand) :: rest =>
    arithmeticFrom leafValue (operator.apply start (operand.arithmetic leafValue)) rest

end

/-- The values of operands by plain arithmetic. -/
def arithmeticValues (leafValue : Term Extended → ℚ)
    (operands : List (Operator × Expression Extended)) : List (Operator × ℚ) :=
  operands.map fun operand => (operand.1, operand.2.arithmetic leafValue)

variable {leafValue : Term Extended → ℚ} {scope : Scope Extended}

/-- The arithmetic of operands is that of their values, from left to right. -/
theorem arithmeticFrom_eq (start : ℚ) (operands : List (Operator × Expression Extended)) :
    arithmeticFrom leafValue start operands =
      chain start (arithmeticValues leafValue operands) := by
  induction operands generalizing start with
  | nil => rfl
  | cons operand rest ih =>
    rw [arithmeticFrom, ih]
    rfl

/-- The arithmetic values of operands are what the operands evaluate to, if each of them does. -/
theorem evaluateOperands_numeric {operands : List (Operator × Expression Extended)}
    (h : ∀ operand ∈ operands, operand.2.evaluate scope =
      some (.number (rational (operand.2.arithmetic leafValue)))) :
    evaluateOperands scope operands = some (numeric (arithmeticValues leafValue operands)) := by
  rw [evaluateOperands_eq_some_iff, numeric, arithmeticValues, List.map_map,
    List.forall₂_map_right_iff, List.forall₂_same]
  exact fun operand hoperand => ⟨rfl, h operand hoperand⟩

/-- The leaves of the expression evaluate to rationals, and no divisor in it to zero. -/
structure IsArithmetic (scope : Scope Extended) (leafValue : Term Extended → ℚ)
    (tree : Expression Extended) : Prop where
  leaves : ∀ term ∈ tree.leaves,
    evaluateTerm scope term = some (.number (rational (leafValue term)))
  divisors : ∀ divisor ∈ tree.divisors, divisor.evaluate scope ≠ some (.number (rational 0))

/-- The operands of an expression are arithmetic if it is. -/
theorem IsArithmetic.operand {tree : Expression Extended}
    {operands : List (Operator × Expression Extended)} {operand : Operator × Expression Extended}
    (h : tree.IsArithmetic scope leafValue) (hoperands : tree.HasOperands operands)
    (hmem : operand ∈ operands) : operand.2.IsArithmetic scope leafValue where
  leaves term hterm := h.leaves term (hoperands.mem_leaves hmem hterm)
  divisors divisor hdivisor := h.divisors divisor (hoperands.mem_divisors hmem hdivisor)

/-- Evaluation agrees with arithmetic on trees in normal form. -/
theorem IsNormal.evaluate_eq {tree : Expression Extended} (h : tree.IsNormal)
    (harithmetic : tree.IsArithmetic scope leafValue) :
    tree.evaluate scope = some (.number (rational (tree.arithmetic leafValue))) := by
  have hvalue : ∀ {operands : List (Operator × Expression Extended)} {P : Operator → Prop},
      (∀ operand ∈ operands, P operand.1) →
        ∀ value ∈ arithmeticValues leafValue operands, P value.1 := by
    intro operands P hoperands value hvalue
    obtain ⟨operand, hoperand, rfl⟩ := List.mem_map.1 hvalue
    exact hoperands operand hoperand
  -- Each operand is worth its arithmetic value, so the operands reduce as numbers.
  induction h with
  | leaf hterm =>
    rw [evaluate, arithmetic]
    exact harithmetic.leaves _ (by rw [leaves]; exact List.mem_cons_self)
  | @sum first rest hrest hoperators hoperands ih =>
    have hvalues := evaluateOperands_numeric fun operand hmem =>
      ih operand hmem (harithmetic.operand (.inl rfl) hmem)
    have hadded : ∀ value ∈ arithmeticValues leafValue ((.add, first) :: rest),
        value.1 = .add ∨ value.1 = .subtract :=
      hvalue (P := fun operator => operator = .add ∨ operator = .subtract)
        (List.forall_mem_cons.2 ⟨Or.inl rfl, hoperators⟩)
    have hsum := reduceSum_numeric (List.cons_ne_nil _ _) hadded
    rw [evaluate, hvalues, arithmetic, arithmeticFrom_eq]
    exact hsum
  | @product first rest hrest hoperators hoperands ih =>
    have hvalues := evaluateOperands_numeric fun operand hmem =>
      ih operand hmem (harithmetic.operand (.inr rfl) hmem)
    have hzero : ∀ value ∈ arithmeticValues leafValue ((.multiply, first) :: rest),
        value.1 = .divide → value.2 ≠ 0 := by
      intro value hmem hdivide
      obtain ⟨⟨operator, operand⟩, hoperand, rfl⟩ := List.mem_map.1 hmem
      obtain rfl : operator = .divide := hdivide
      -- A divisor is worth what it evaluates to.
      intro hzero
      refine harithmetic.divisors operand (mem_divisors_of_divide hoperand) ?_
      rw [ih _ hoperand (harithmetic.operand (.inr rfl) hoperand)]
      exact congrArg (fun a => some (Term.number (rational a))) hzero
    have hmultiplied : ∀ value ∈ arithmeticValues leafValue ((.multiply, first) :: rest),
        value.1 = .multiply ∨ value.1 = .divide :=
      hvalue (P := fun operator => operator = .multiply ∨ operator = .divide)
        (List.forall_mem_cons.2 ⟨Or.inl rfl, hoperators⟩)
    have hproduct := reduceProduct_numeric (List.cons_ne_nil _ _) hmultiplied hzero
    rw [evaluate, hvalues, arithmetic, arithmeticFrom_eq]
    exact hproduct

end Expression

/-- A rational is clamped to the finite numbers of 64 bits. -/
theorem Extended.toFinite_eq_clamp (a : ℚ) : Scalar.toFinite (rational a) =
    rational (max (-largestValue) (min a largestValue)) := by
  have hnonneg : (0 : ℚ) ≤ largestValue := Nat.cast_nonneg _
  have hlow : -rational largestValue = rational (-largestValue) := rfl
  show (if Number.isNaN (rational a) then 0.0 else
    Number.clamp (-rational largestValue) (rational largestValue) (rational a)) = _
  rw [isNaN_rational, if_neg Bool.false_ne_true, hlow, Number.clamp]
  simp only [rational_lt_iff]
  split
  · next hlt => rw [max_eq_left ((min_le_left _ _).trans hlt.le)]
  · next hge =>
    split
    · next hgt => rw [min_eq_right hgt.le, max_eq_right (by linarith)]
    · next hle => rw [min_eq_left (not_lt.1 hle), max_eq_right (not_lt.1 hge)]

namespace Expression

/-- An expression that the grammar reads, where every leaf evaluates to a rational and no divisor is
zero, evaluates to its value by plain arithmetic. As an argument of a colour function it gives this
number, clamped to the finite numbers. -/
theorem evaluate_eq_arithmetic {levels : ℕ} {tokens rest : List (Token Extended)}
    {tree : Expression Extended} (h : (rule levels).run tokens = (some tree, rest))
    {scope : Scope Extended} {leafValue : Term Extended → ℚ}
    (hleaves : ∀ term ∈ tree.leaves,
      evaluateTerm scope term = some (.number (rational (leafValue term))))
    (hdivisors : ∀ divisor ∈ tree.divisors,
      divisor.evaluate scope ≠ some (.number (rational 0))) :
    tree.evaluate scope = some (.number (rational (tree.arithmetic leafValue))) ∧
      (Argument.expression tree).resolve scope = some (some (rational
        (max (-largestValue) (min (tree.arithmetic leafValue) largestValue)))) := by
  have hnormal : tree.IsNormal := rule_isNormal levels tokens tree rest h
  have hvalue := hnormal.evaluate_eq ⟨hleaves, hdivisors⟩
  refine ⟨hvalue, ?_⟩
  rw [Argument.resolve, hvalue, ← toFinite_eq_clamp]

/-- Where `r` is 102 and 100% is 255, `calc((r + 10%) / 2 - 0.75)` is 63. -/
theorem evaluate_eq_arithmetic_quotient :
    let tree : Expression Extended := sum [(.add, product [(.multiply,
        sum [(.add, leaf (.symbol "r")), (.add, leaf (.percentage (rational 10)))]),
        (.divide, leaf (.number (rational 2)))]),
      (.subtract, leaf (.number (rational (3 / 4))))]
    let scope : Scope Extended :=
      { Scope.empty with
        bindings := [("r", some (rational 102))], percentageBasis := some (rational 255) }
    (rule 3).run [.function "calc", .openParen, .openParen, .ident "r", .whitespace, .delim '+',
      .whitespace, .percentage (rational 10), .closeParen, .whitespace, .delim '/', .whitespace,
      .number (rational 2), .closeParen, .whitespace, .delim '-', .whitespace,
      .number (rational (3 / 4)), .closeParen] = (some tree, []) ∧
      tree.evaluate scope = some (.number (rational 63)) := by
  intro tree scope
  -- The tree is in normal form, so it is read back from its tokens.
  have hname : IsNormal (leaf (.symbol "r" : Term Extended)) :=
    .leaf (show "r".toLower = "r" by cbv)
  have hsum : IsNormal (sum [(.add, leaf (.symbol "r")),
      (.add, leaf (.percentage (rational 10)))]) := .sum (by simp) (by simp)
    (List.forall_mem_cons.2 ⟨hname, List.forall_mem_singleton.2 (.leaf trivial)⟩)
  have hquotient : IsNormal (product [(.multiply, sum [(.add, leaf (.symbol "r")),
      (.add, leaf (.percentage (rational 10)))]), (.divide, leaf (.number (rational 2)))]) :=
    .product (by simp) (by simp)
      (List.forall_mem_cons.2 ⟨hsum, List.forall_mem_singleton.2 (.leaf trivial)⟩)
  have hnormal : tree.IsNormal := .sum (by simp) (by simp)
    (List.forall_mem_cons.2 ⟨hquotient, List.forall_mem_singleton.2 (.leaf trivial)⟩)
  have hread : (rule 3).run tree.callTokens = (some tree, []) := hnormal.run_callTokens (by decide)
  -- The values of the leaves in the scope.
  let leafValue : Term Extended → ℚ := fun term =>
    if term = .symbol "r" then 102
    else if term = .percentage (rational 10) then 51 / 2
    else if term = .number (rational 2) then 2
    else 3 / 4
  have hleaves : ∀ term ∈ tree.leaves,
      evaluateTerm scope term = some (.number (rational (leafValue term))) := by
    have hall : tree.leaves = [.symbol "r", .percentage (rational 10), .number (rational 2),
      .number (rational (3 / 4))] := rfl
    rw [hall]
    simp only [List.forall_mem_cons, List.not_mem_nil, false_imp_iff, implies_true, and_true]
    decide +kernel
  have hdivisors : ∀ divisor ∈ tree.divisors,
      divisor.evaluate scope ≠ some (.number (rational 0)) := by
    have hall : tree.divisors = [leaf (.number (rational 2))] := rfl
    rw [hall, List.forall_mem_singleton]
    decide +kernel
  have hvalue : tree.arithmetic leafValue = 63 := by
    simp only [tree, arithmetic, arithmeticFrom, Operator.apply, leafValue, ↓reduceIte, reduceCtorEq,
      Term.number.injEq, rational.injEq, zero_add, one_mul]
    norm_num
  refine ⟨hread, ?_⟩
  rw [(evaluate_eq_arithmetic hread hleaves hdivisors).1, hvalue]

end Expression

end CssColor
