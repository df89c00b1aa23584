import CssColor.Proofs.Calc.Texts
import CssColor.Proofs.Number.Exact

/-!
# Values of expressions

Names, units and the percent sign stand for rationals (`Assignment`). An expression then has a
rational as its value, unless it divides by zero or holds a number that is not finite. The value of
a simplified expression is that of the tree that a call of `calc()` around its text is read as
(`Term.value?`).

Texts that are read as values, products and sums have values too (`Expression.IsSumOf`), and joining
them by a sign gives the value that the sign says. Only the right side of a division has to be a
single value: the further factors of a product would not be divided by, but multiplied with.
-/

namespace CssColor

open Token Rule

/-! ## Values -/

/-- What names, units and the percent sign stand for. Names and units are in lower case. -/
structure Assignment where
  name : String → ℚ
  unit : String → ℚ
  percent : ℚ

/-- The rational that a number is, if it is one. -/
def Extended.rational? : Extended → Option ℚ
  | rational a => some a
  | _ => none

namespace Operator

/-- What an operand adds to a sum. -/
def addend? : Operator → ℚ → Option ℚ
  | add, a => some a
  | subtract, a => some (-a)
  | _, _ => none

/-- What an operand multiplies a product by. Nothing is divided by zero. -/
def factor? : Operator → ℚ → Option ℚ
  | multiply, a => some a
  | divide, a => if a = 0 then none else some a⁻¹
  | _, _ => none

/-- The value of a sum. -/
def sum? : List (Operator × Option ℚ) → Option ℚ
  | [] => some 0
  | (operator, value) :: rest => do return (← operator.addend? (← value)) + (← sum? rest)

/-- The value of a product. -/
def product? : List (Operator × Option ℚ) → Option ℚ
  | [] => some 1
  | (operator, value) :: rest => do return (← operator.factor? (← value)) * (← product? rest)

variable {operands operands' : List (Operator × Option ℚ)} {a b : ℚ}

/-- A sum has a value if its first operand and the rest of it do. -/
theorem sum?_cons {operator : Operator} {value : Option ℚ} :
    sum? ((operator, value) :: operands) = some a ↔ ∃ b c d, value = some b ∧
      operator.addend? b = some c ∧ sum? operands = some d ∧ c + d = a := by
  simp [sum?, Option.bind_eq_some_iff]

/-- A product has a value if its first operand and the rest of it do. -/
theorem product?_cons {operator : Operator} {value : Option ℚ} :
    product? ((operator, value) :: operands) = some a ↔ ∃ b c d, value = some b ∧
      operator.factor? b = some c ∧ product? operands = some d ∧ c * d = a := by
  simp [product?, Option.bind_eq_some_iff]

/-- The values of two lists of addends are added. -/
theorem sum?_append (h : sum? operands = some a) (h' : sum? operands' = some b) :
    sum? (operands ++ operands') = some (a + b) := by
  induction operands generalizing a with
  | nil =>
    cases h
    rw [List.nil_append, h', zero_add]
  | cons operand rest ih =>
    obtain ⟨c, d, e, hvalue, haddend, hrest, rfl⟩ := sum?_cons.1 h
    exact sum?_cons.2 ⟨c, d, e + b, hvalue, haddend, ih hrest, (add_assoc d e b).symm⟩

/-- The values of two lists of factors are multiplied. -/
theorem product?_append (h : product? operands = some a) (h' : product? operands' = some b) :
    product? (operands ++ operands') = some (a * b) := by
  induction operands generalizing a with
  | nil =>
    cases h
    rw [List.nil_append, h', one_mul]
  | cons operand rest ih =>
    obtain ⟨c, d, e, hvalue, hfactor, hrest, rfl⟩ := product?_cons.1 h
    exact product?_cons.2 ⟨c, d, e * b, hvalue, hfactor, ih hrest, (mul_assoc d e b).symm⟩

/-- A sum of one addend has the value of the addend. -/
theorem sum?_singleton (value : Option ℚ) : sum? [(add, value)] = value := by
  cases value with
  | none => rfl
  | some a => exact congrArg some (add_zero a)

/-- A product of one factor has the value of the factor. -/
theorem product?_singleton (value : Option ℚ) : product? [(multiply, value)] = value := by
  cases value with
  | none => rfl
  | some a => exact congrArg some (mul_one a)

end Operator

/-- The value of a term that is written by a token. A constant stands for its number. -/
def Assignment.leaf? (σ : Assignment) : Term Extended → Option ℚ
  | .number x => x.rational?
  | .percentage x => x.rational?.map (· * σ.percent)
  | .dimension x unit => x.rational?.map (· * σ.unit unit.toLower)
  | .symbol name =>
    match Expression.constant? name.toLower with
    | some x => Extended.rational? x
    | none => some (σ.name name.toLower)
  | .expression .. => none

namespace Expression

mutual

/-- The value of a tree. -/
def value? (σ : Assignment) : Expression Extended → Option ℚ
  | leaf term => σ.leaf? term
  | sum operands => Operator.sum? (operandValues σ operands)
  | product operands => Operator.product? (operandValues σ operands)

/-- The values of operands. -/
def operandValues (σ : Assignment) :
    List (Operator × Expression Extended) → List (Operator × Option ℚ)
  | [] => []
  | (operator, operand) :: rest => (operator, operand.value? σ) :: operandValues σ rest

end

variable {σ : Assignment} {q q' : ℚ} {text text' : String} {tree : Expression Extended}
  {operands : List (Operator × Expression Extended)}

/-- The operands of a list have their values one after the other. -/
theorem operandValues_append (operands operands' : List (Operator × Expression Extended)) :
    operandValues σ (operands ++ operands') =
      operandValues σ operands ++ operandValues σ operands' := by
  induction operands with
  | nil => rfl
  | cons operand rest ih =>
    rw [List.cons_append, operandValues, operandValues, ih]
    rfl

/-- Operands of a sum have the value of their sum, also if there is only one. -/
theorem value?_ofOperands_sum : (ofOperands .sum .add tree operands).value? σ =
    Operator.sum? (operandValues σ ((.add, tree) :: operands)) := by
  unfold ofOperands
  split
  · next h =>
    rw [List.isEmpty_iff.1 h]
    exact (Operator.sum?_singleton _).symm
  · rw [value?]

/-- Operands of a product have the value of their product, also if there is only one. -/
theorem value?_ofOperands_product : (ofOperands .product .multiply tree operands).value? σ =
    Operator.product? (operandValues σ ((.multiply, tree) :: operands)) := by
  unfold ofOperands
  split
  · next h =>
    rw [List.isEmpty_iff.1 h]
    exact (Operator.product?_singleton _).symm
  · rw [value?]

/-- The tree that a text is read as in a call of `calc()`. -/
def ofText? (text : String) : Option (Expression Extended) :=
  (rule maxBlockDepth).parse (scan ("calc(" ++ text ++ ")").toList)

/-! ## Values of texts -/

/-- The text is read as a value, which is the number. -/
def IsValueOf (σ : Assignment) (q : ℚ) (text : String) : Prop :=
  ∃ tree, ReadsAsValue text tree ∧ tree.value? σ = some q

/-- The text is read as a product that has the value. -/
def IsProductOf (σ : Assignment) (q : ℚ) (text : String) : Prop :=
  ∃ tree factors, ReadsAsProduct text tree factors ∧
    Operator.product? (operandValues σ ((.multiply, tree) :: factors)) = some q

/-- The text is read as a sum that has the value. -/
def IsSumOf (σ : Assignment) (q : ℚ) (text : String) : Prop :=
  ∃ tree addends, ReadsAsSum text tree addends ∧
    Operator.sum? (operandValues σ ((.add, tree) :: addends)) = some q

/-- The text of a printable number has that number as its value. -/
theorem isValueOf_number (h : IsPrintable q) :
    IsValueOf σ q (Scalar.text (Extended.rational q)) := by
  refine ⟨_, readsAsValue_number Extended.isFinite_rational, ?_⟩
  rw [Extended.printed_rational h]
  rfl

/-- The factor that changes a sign has the value minus one. -/
theorem isValueOf_minusOne : IsValueOf σ (-1) "-1" := by
  refine ⟨_, readsAsValue_minusOne, ?_⟩
  show Extended.rational? (Decimal.toNumber ⟨true, 1, 0⟩) = _
  rw [Extended.toNumber_eq]
  show some (-Decimal.magnitude ⟨true, 1, 0⟩) = _
  rw [Decimal.magnitude, Nat.cast_one, zpow_zero, mul_one]

/-- The text of a percentage has its share of the whole as its value. -/
theorem isValueOf_percentage (h : IsPrintable q) :
    IsValueOf σ (q * σ.percent) (Term.percentage (Extended.rational q)).text := by
  refine ⟨_, readsAsValue_percentage Extended.isFinite_rational, ?_⟩
  rw [Extended.printed_rational h]
  rfl

/-- The text of a number with a unit has the value of the unit, so many times. -/
theorem isValueOf_dimension {unit : String} (hunit : IsUnit unit = true) (h : IsPrintable q) :
    IsValueOf σ (q * σ.unit unit.toLower) (Term.dimension (Extended.rational q) unit).text := by
  refine ⟨_, readsAsValue_dimension Extended.isFinite_rational hunit, ?_⟩
  rw [Extended.printed_rational h]
  show some (q * σ.unit unit.toLower.toLower) = _
  rw [toLower_toLower_text]

/-- A name has the value that the assignment gives it. -/
theorem isValueOf_symbol {name : String} (hword : IsWord name = true)
    (h : σ.leaf? (.symbol name) = some q) : IsValueOf σ q name := by
  refine ⟨_, readsAsValue_name hword, ?_⟩
  show σ.leaf? (.symbol name.toLower) = _
  rw [Assignment.leaf?, toLower_toLower_text]
  exact h

/-- A value is a product of one factor, with the same value. -/
theorem IsValueOf.product (h : IsValueOf σ q text) : IsProductOf σ q text := by
  obtain ⟨tree, hreads, hvalue⟩ := h
  refine ⟨tree, [], hreads.product, ?_⟩
  rw [← hvalue]
  exact Operator.product?_singleton _

/-- The value of a product of products. -/
theorem IsProductOf.times (h : IsProductOf σ q text) (h' : IsProductOf σ q' text') :
    IsProductOf σ (q * q') (text ++ " * " ++ text') := by
  obtain ⟨tree, factors, hreads, hvalue⟩ := h
  obtain ⟨tree', factors', hreads', hvalue'⟩ := h'
  refine ⟨tree, _, hreads.times hreads', ?_⟩
  rw [← List.cons_append, operandValues_append]
  exact Operator.product?_append hvalue hvalue'

/-- A single value on the right is divided by. -/
theorem IsProductOf.dividedBy (h : IsProductOf σ q text) (h' : IsValueOf σ q' text') (hq' : q' ≠ 0) :
    IsProductOf σ (q / q') (text ++ " / " ++ text') := by
  obtain ⟨tree, factors, hreads, hvalue⟩ := h
  obtain ⟨tree', hreads', hvalue'⟩ := h'
  refine ⟨tree, _, hreads.dividedBy hreads'.product, ?_⟩
  rw [← List.cons_append, operandValues_append, div_eq_mul_inv]
  refine Operator.product?_append hvalue (Operator.product?_cons.2
    ⟨q', q'⁻¹, 1, hvalue', if_neg hq', rfl, mul_one _⟩)

/-- A product is a sum of one addend, with the same value. -/
theorem IsProductOf.sum (h : IsProductOf σ q text) : IsSumOf σ q text := by
  obtain ⟨tree, factors, hreads, hvalue⟩ := h
  refine ⟨_, [], hreads.sum, ?_⟩
  rw [← value?_ofOperands_product] at hvalue
  rw [← hvalue]
  exact Operator.sum?_singleton _

/-- The value of a sum of sums. -/
theorem IsSumOf.plus (h : IsSumOf σ q text) (h' : IsSumOf σ q' text') :
    IsSumOf σ (q + q') (text ++ " + " ++ text') := by
  obtain ⟨tree, addends, hreads, hvalue⟩ := h
  obtain ⟨tree', addends', hreads', hvalue'⟩ := h'
  refine ⟨tree, _, hreads.plus hreads', ?_⟩
  rw [← List.cons_append, operandValues_append]
  exact Operator.sum?_append hvalue hvalue'

/-- A single product on the right is subtracted. -/
theorem IsSumOf.minus (h : IsSumOf σ q text) (h' : IsProductOf σ q' text') :
    IsSumOf σ (q - q') (text ++ " - " ++ text') := by
  obtain ⟨tree, addends, hreads, hvalue⟩ := h
  obtain ⟨tree', factors', hreads', hvalue'⟩ := h'
  refine ⟨tree, _, hreads.minus hreads'.sum, ?_⟩
  rw [← value?_ofOperands_product] at hvalue'
  rw [← List.cons_append, operandValues_append, sub_eq_add_neg]
  exact Operator.sum?_append hvalue (Operator.sum?_cons.2 ⟨q', -q', 0, hvalue', rfl, rfl, add_zero _⟩)

/-- Parentheses keep the value. -/
theorem IsSumOf.paren (h : IsSumOf σ q text) : IsValueOf σ q ("(" ++ text ++ ")") := by
  obtain ⟨tree, addends, hreads, hvalue⟩ := h
  exact ⟨_, hreads.paren, by rw [value?_ofOperands_sum, hvalue]⟩

/-! ## Lists of texts -/

section Lists

variable {parts : List (ℚ × String)}

/-- Texts that can be joined by a separator, where the total of their values is known. -/
theorem intercalate_of_join_total {P : ℚ → String → Prop} {separator : String}
    {total : List ℚ → ℚ} (hone : ∀ a, total [a] = a)
    (hjoin : ∀ {a text rest text'}, P a text → P (total rest) text' →
      P (total (a :: rest)) (text ++ separator ++ text'))
    (h : ∀ part ∈ parts, P part.1 part.2) (hne : parts ≠ []) :
    P (total (parts.map Prod.fst)) (String.intercalate separator (parts.map Prod.snd)) := by
  induction parts with
  | nil => exact absurd rfl hne
  | cons part rest ih =>
    obtain ⟨hpart, hrest⟩ := List.forall_mem_cons.1 h
    cases rest with
    | nil =>
      -- The last part has no separator behind it.
      rw [List.map_singleton, List.map_singleton, hone, String.intercalate_singleton]
      exact hpart
    | cons other rest =>
      have hall := hjoin hpart (ih hrest (List.cons_ne_nil _ _))
      have htext : String.intercalate separator ((part :: other :: rest).map Prod.snd) =
          part.2 ++ separator ++ String.intercalate separator ((other :: rest).map Prod.snd) :=
        String.intercalate_cons_cons
      rw [htext]
      exact hall

/-- Products with multiplication signs between them have the product of the values. -/
theorem isProductOf_intercalate (h : ∀ part ∈ parts, IsProductOf σ part.1 part.2)
    (hne : parts ≠ []) : IsProductOf σ (parts.map Prod.fst).prod
      (String.intercalate " * " (parts.map Prod.snd)) := by
  refine intercalate_of_join_total (fun _ => List.prod_singleton) (fun hfirst hrest => ?_) h hne
  rw [List.prod_cons]
  exact hfirst.times hrest

/-- Sums with plus signs between them have the sum of the values. -/
theorem isSumOf_intercalate (h : ∀ part ∈ parts, IsSumOf σ part.1 part.2)
    (hne : parts ≠ []) : IsSumOf σ (parts.map Prod.fst).sum
      (String.intercalate " + " (parts.map Prod.snd)) := by
  refine intercalate_of_join_total (fun _ => List.sum_singleton) (fun hfirst hrest => ?_) h hne
  rw [List.sum_cons]
  exact hfirst.plus hrest

end Lists

/-! ## Simplified expressions -/

/-- A text that is read as a sum is read in a call, too. -/
theorem ReadsAsSum.ofText?_eq_some_iff (h : ReadsAsSum text tree operands)
    {result : Expression Extended} : ofText? text = some result ↔
      ofOperands .sum .add tree operands = result ∧
        nesting (scan ("calc(" ++ text ++ ")").toList : List (Token Extended)) ≤ maxBlockDepth := by
  obtain ⟨tokens, hspells, -, hreads⟩ := h.exists_reads
  have htokens : collapse (scan ("calc(" ++ text ++ ")").toList) =
      Token.function "calc" :: (tokens ++ [.closeParen]) :=
    (hspells.call (show IsWord "calc" = true from rfl)).spells.collapse_scan rfl
  -- Without a bound on the depth, the text is read as the tree that its tokens give.
  have hparse : (callRule unlimitedBlock).parse (scan ("calc(" ++ text ++ ")").toList) =
      some (ofOperands .sum .add tree operands) := by
    have hall := hreads []
    rw [List.append_nil] at hall
    rw [Rule.parse, htokens, Rule.complete,
      bind_of_some ((callRule_calc unlimitedBlock _).trans hall)]
    rfl
  rw [ofText?, parse_rule_eq_some_iff, hparse, Option.some.injEq]

end Expression

namespace Term

open Expression

/-- The value of a term. -/
def value? (σ : Assignment) : Term Extended → Option ℚ
  | expression text _ => (ofText? text).bind (Expression.value? σ)
  | term => σ.leaf? term

variable {σ : Assignment} {q : ℚ} {text : String} {kind : ExpressionKind}

/-- Whether the blocks in a call around the text are not nested too deeply to be read. -/
def IsShallow : Term Extended → Prop
  | expression text _ => nesting (scan ("calc(" ++ text ++ ")").toList : List (Token Extended)) ≤
      maxBlockDepth
  | _ => True

/-- The text of a sum that is not nested too deeply is read, and has its value. -/
theorem value?_of_isSumOf (h : IsSumOf σ q text)
    (hshallow : (expression text kind : Term Extended).IsShallow) :
    (expression text kind).value? σ = some q := by
  obtain ⟨tree, addends, hreads, hvalue⟩ := h
  rw [value?, hreads.ofText?_eq_some_iff.2 ⟨rfl, hshallow⟩, Option.bind_some,
    value?_ofOperands_sum, hvalue]

/-- Where a text is read as a sum and has a value, the value is that of the sum. -/
theorem isSumOf_of_value? {tree : Expression Extended}
    {addends : List (Operator × Expression Extended)} (hreads : ReadsAsSum text tree addends)
    (h : (expression text kind).value? σ = some q) : IsSumOf σ q text := by
  obtain ⟨result, htext, hvalue⟩ := Option.bind_eq_some_iff.1 h
  obtain ⟨rfl, -⟩ := hreads.ofText?_eq_some_iff.1 htext
  exact ⟨tree, addends, hreads, by rw [← value?_ofOperands_sum, hvalue]⟩

/-- Where a text is read as a product and has a value, the value is that of the product. -/
theorem isProductOf_of_value? {tree : Expression Extended}
    {factors : List (Operator × Expression Extended)} (hreads : ReadsAsProduct text tree factors)
    (h : (expression text kind).value? σ = some q) : IsProductOf σ q text := by
  obtain ⟨result, htext, hvalue⟩ := Option.bind_eq_some_iff.1 h
  obtain ⟨rfl, -⟩ := hreads.sum.ofText?_eq_some_iff.1 htext
  exact ⟨tree, factors, hreads, by rw [← value?_ofOperands_product, ← hvalue]; rfl⟩

end Term

end CssColor
