import CssColor.Proofs.Calc.SumValue
import Mathlib.Algebra.BigOperators.GroupWithZero.Finset

/-!
# Values of reduced products

Terms that are put together from numbers and names by sums and products (`Term.IsProduced`) have
texts that are read as what they are. The term that operands of this kind are multiplied and divided
to has the value of the product (`exists_reduceProduct_eq`). A single divisor is written without
parentheses, so it has to be read as a single value (`Reduce.isProductOf_quotientText`).
-/

namespace CssColor

open Token Expression Extended

variable {σ : Assignment} {q : ℚ} {operands : List (Operand Extended)} {text : String}
  {term : Term Extended}

/-! ## Terms that expressions reduce to -/

/-- Numbers, names that are no constants, and what sums and products of such terms reduce to. -/
inductive Term.IsProduced : Term Extended → Prop
  | number (x : Extended) : IsProduced (number x)
  | symbol {name : String} (hword : IsWord name = true)
      (hname : isConstant name.toLower = false) : IsProduced (symbol name)
  | sum {operands : List (Operand Extended)} {term : Term Extended}
      (hoperands : ∀ operand ∈ operands, operand.term.IsProduced)
      (hterm : reduceSum operands = some term) : IsProduced term
  | product {operands : List (Operand Extended)} {term : Term Extended}
      (hoperands : ∀ operand ∈ operands, operand.term.IsProduced)
      (hterm : reduceProduct operands = some term) : IsProduced term

namespace Expression

/-- The text is read as a value. -/
def ReadsValue (text : String) : Prop := ∃ tree : Expression Extended, ReadsAsValue text tree

/-- The text is read as a product. -/
def ReadsProduct (text : String) : Prop :=
  ∃ (tree : Expression Extended) (factors : List (Operator × Expression Extended)),
    ReadsAsProduct text tree factors

/-- The text is read as a sum. -/
def ReadsSum (text : String) : Prop :=
  ∃ (tree : Expression Extended) (addends : List (Operator × Expression Extended)),
    ReadsAsSum text tree addends

/-- A value is a product of one factor. -/
theorem ReadsValue.product (h : ReadsValue text) : ReadsProduct text := by
  obtain ⟨tree, htree⟩ := h
  exact ⟨tree, [], htree.product⟩

/-- A product is a sum of one addend. -/
theorem ReadsProduct.sum (h : ReadsProduct text) : ReadsSum text := by
  obtain ⟨tree, factors, htree⟩ := h
  exact ⟨_, [], htree.sum⟩

/-- What the grammar puts together is read. -/
theorem isClosed_reads : IsClosed ReadsValue ReadsProduct ReadsSum where
  minusOne := ⟨_, readsAsValue_minusOne⟩
  product := ReadsValue.product
  times := fun ⟨_, _, h⟩ ⟨_, _, h'⟩ => ⟨_, _, h.times h'⟩
  dividedBy := fun ⟨_, _, h⟩ ⟨_, _, h'⟩ => ⟨_, _, h.dividedBy h'⟩
  sum := ReadsProduct.sum
  plus := fun ⟨_, _, h⟩ ⟨_, _, h'⟩ => ⟨_, _, h.plus h'⟩
  minus := fun ⟨_, _, h⟩ ⟨_, h'⟩ => ⟨_, _, h.minus h'.product.sum⟩
  paren := fun ⟨_, _, h⟩ => ⟨_, h.paren⟩

/-- The text of a number is read as a value, be it finite or not. -/
theorem readsValue_number (x : Extended) : ReadsValue (Scalar.text x) := by
  have htext : IsValueText Extended [] (Scalar.text x) := isValueText_number x
  obtain ⟨tree, htree, -⟩ := htext
  exact ⟨tree, htree⟩

end Expression

namespace Term

/-- Whether a term has no unit, and is a plain name if it is a name. -/
def isPlain : Term Extended → Bool
  | percentage _ => false
  | dimension .. => false
  | symbol name => IsWord name
  | _ => true

/-- What is produced from terms that are read is read. -/
theorem IsProduced.isStable (h : term.IsProduced) :
    term.IsStable ReadsValue ReadsProduct ReadsSum := by
  induction h with
  | number x => exact readsValue_number
  | symbol hword hname => exact fun _ => ⟨_, readsAsValue_name hword⟩
  | sum hoperands hterm ih => exact reduceSum_isStable isClosed_reads readsValue_number ih _ hterm
  | product hoperands hterm ih =>
    exact reduceProduct_isStable isClosed_reads readsValue_number ih _ hterm

section Plain

open Reduce

/-- Plain terms have no units. -/
theorem no_units (h : ∀ operand ∈ operands, operand.term.isPlain = true) :
    percentages (under .multiply operands) = [] ∧
      ∀ operator, dimensions (under operator operands) = [] := by
  have hunder : ∀ {operator term}, term ∈ under operator operands → term.isPlain = true := by
    intro operator term hterm
    obtain ⟨operand, hoperand, rfl⟩ := exists_of_mem_under hterm
    exact h operand hoperand
  refine ⟨List.eq_nil_iff_forall_not_mem.2 fun value hvalue => ?_, fun operator =>
    List.eq_nil_iff_forall_not_mem.2 fun value hvalue => ?_⟩
  · cases hunder (mem_of_mem_percentages hvalue)
  · cases hunder (mem_of_mem_dimensions hvalue)

/-- Plain terms produce plain terms. -/
theorem IsProduced.isPlain (h : term.IsProduced) : term.isPlain = true := by
  induction h with
  | number x => rfl
  | symbol hword hname => exact hword
  | sum hoperands hterm ih =>
    rcases reduceSum_cases hterm with ⟨x, rfl⟩ | ⟨x, hx, rfl⟩ | ⟨total, htotal, rfl⟩ | hother | ⟨rfl, -⟩
    · rfl
    · -- A term with a unit would come from an operand with that unit, and there is none.
      obtain ⟨operand, hoperand, y, hy⟩ := exists_percentage (by rw [hx]; exact Option.some_ne_none x)
      have hplain := ih operand hoperand
      rw [hy] at hplain
      cases hplain
    · obtain ⟨operand, hoperand, y, hy⟩ := exists_of_mem_operandTotals htotal
      have hplain := ih operand hoperand
      rw [hy] at hplain
      cases hplain
    · obtain ⟨operand, hoperand, rfl⟩ := exists_of_mem_under (List.mem_filter.1 hother).1
      exact ih operand hoperand
    · rfl
  | @product operands term hoperands hterm ih =>
    obtain ⟨hpercentages, hdimensions⟩ := no_units ih
    rcases reduceProduct_cases hterm with ⟨x, rfl⟩ | ⟨x, rfl, hsome⟩ | ⟨x, value, hvalue, rfl⟩ | rfl
    · rfl
    · exact absurd hpercentages hsome
    · rw [hdimensions] at hvalue
      cases hvalue
    · rfl

end Plain

end Term

/-! ## Factors and divisors -/

/-- Rationals are multiplied exactly, from left to right. -/
theorem Extended.product_rational {xs : List Extended} (h : ∀ x ∈ xs, x.IsRational) :
    Number.product xs = rational (xs.map toRat).prod := by
  -- The factors are gathered from the left, starting at any value.
  have hfold : ∀ (xs : List Extended) (a : ℚ), (∀ x ∈ xs, x.IsRational) →
      xs.foldl (· * ·) (rational a) = rational (a * (xs.map toRat).prod) := by
    intro xs
    induction xs with
    | nil => exact fun a _ => congrArg rational (mul_one a).symm
    | cons x rest ih =>
      intro a h
      obtain ⟨hx, hrest⟩ := List.forall_mem_cons.1 h
      rw [List.foldl_cons, hx, rational_mul, ih _ hrest, List.map_cons, List.prod_cons, mul_assoc]
      rfl
  rw [Number.product, one_eq, hfold xs 1 h, one_mul]

namespace Reduce

/-- The product of the values of terms. -/
def termProduct (σ : Assignment) (terms : List (Term Extended)) : ℚ := (terms.map σ.valueOf).prod

/-- The product of terms, one term at a time. -/
theorem termProduct_cons (term : Term Extended) (rest : List (Term Extended)) :
    termProduct σ (term :: rest) = σ.valueOf term * termProduct σ rest := List.prod_cons

/-- The product of the numbers among the operands of a product. -/
def scaleOf (operands : List (Operand Extended)) : ℚ := ((scaleFactors operands).map toRat).prod

/-- The term is not folded into the scale of a product. -/
structure IsUnfolded (term : Term Extended) : Prop where
  scaleFactors_cons : ∀ operator rest,
    scaleFactors (⟨operator, term⟩ :: rest) = scaleFactors rest
  others_cons : ∀ terms, others (term :: terms) = term :: others terms
  divisors_cons : ∀ terms, divisors (term :: terms) = term :: divisors terms

/-- A term without a unit is a number, or it is not folded. -/
theorem number_or_isUnfolded (h : term.isPlain = true) :
    (∃ x, term = .number x) ∨ IsUnfolded term := by
  cases term with
  | number x => exact .inl ⟨x, rfl⟩
  | percentage x => cases h
  | dimension x unit => cases h
  | symbol name =>
    exact .inr ⟨fun operator rest => by cases operator <;> rfl, fun _ => rfl, fun _ => rfl⟩
  | expression text kind =>
    exact .inr ⟨fun operator rest => by cases operator <;> rfl, fun _ => rfl, fun _ => rfl⟩

/-- The scale and the terms that are not folded have values, no divisor is zero, and the quotient of
all of them is `q`. -/
structure HasQuotient (σ : Assignment) (q : ℚ) (operands : List (Operand Extended)) : Prop where
  scale : ∀ x ∈ scaleFactors operands, x.IsRational
  multiplied : ∀ term ∈ others (under .multiply operands), (term.value? σ).isSome = true
  divided : ∀ term ∈ divisors (under .divide operands),
    (term.value? σ).isSome = true ∧ σ.valueOf term ≠ 0
  quotient : q = scaleOf operands * termProduct σ (others (under .multiply operands))
    / termProduct σ (divisors (under .divide operands))

namespace HasQuotient

variable {rest : List (Operand Extended)} {a : ℚ}

/-- No operands have the quotient one. -/
theorem nil : HasQuotient σ 1 [] := by
  refine ⟨List.forall_mem_nil _, List.forall_mem_nil _, List.forall_mem_nil _, ?_⟩
  show (1 : ℚ) = 1 * 1 / 1
  rw [mul_one, div_one]

/-- An operand that is folded is a factor of the scale. -/
theorem folded (h : HasQuotient σ q rest) {operand : Operand Extended}
    (hscale : scaleFactors (operand :: rest) = rational a :: scaleFactors rest)
    (hmultiplied : others (under .multiply (operand :: rest)) = others (under .multiply rest))
    (hdivided : divisors (under .divide (operand :: rest)) = divisors (under .divide rest)) :
    HasQuotient σ (a * q) (operand :: rest) := by
  refine ⟨?_, by rw [hmultiplied]; exact h.multiplied, by rw [hdivided]; exact h.divided, ?_⟩
  · rw [hscale]
    exact List.forall_mem_cons.2 ⟨rfl, h.scale⟩
  · have hall : scaleOf (operand :: rest) = a * scaleOf rest := by
      rw [scaleOf, hscale]
      exact List.prod_cons
    rw [hall, hmultiplied, hdivided, h.quotient]
    ring

variable (hunfolded : IsUnfolded term) (hvalue : term.value? σ = some a)

include hunfolded hvalue

/-- A term that is not folded is one more factor. -/
theorem times (h : HasQuotient σ q rest) : HasQuotient σ (a * q) (⟨.multiply, term⟩ :: rest) := by
  have hmultiplied : others (under .multiply (⟨.multiply, term⟩ :: rest)) =
      term :: others (under .multiply rest) := hunfolded.others_cons _
  refine ⟨by rw [hunfolded.scaleFactors_cons]; exact h.scale, ?_, h.divided, ?_⟩
  · rw [hmultiplied]
    exact List.forall_mem_cons.2 ⟨Option.isSome_of_eq_some hvalue, h.multiplied⟩
  · rw [hmultiplied, termProduct_cons, Assignment.valueOf_eq hvalue, scaleOf,
      hunfolded.scaleFactors_cons, h.quotient]
    show _ = scaleOf rest * _ / termProduct σ (divisors (under .divide rest))
    ring

/-- A term that is not folded is one more divisor, unless it is zero. -/
theorem dividedBy (h : HasQuotient σ q rest) (ha : a ≠ 0) :
    HasQuotient σ (a⁻¹ * q) (⟨.divide, term⟩ :: rest) := by
  have hdivided : divisors (under .divide (⟨.divide, term⟩ :: rest)) =
      term :: divisors (under .divide rest) := hunfolded.divisors_cons _
  refine ⟨by rw [hunfolded.scaleFactors_cons]; exact h.scale, h.multiplied, ?_, ?_⟩
  · rw [hdivided]
    exact List.forall_mem_cons.2 ⟨⟨Option.isSome_of_eq_some hvalue,
      by rwa [Assignment.valueOf_eq hvalue]⟩, h.divided⟩
  · rw [hdivided, termProduct_cons, Assignment.valueOf_eq hvalue, scaleOf,
      hunfolded.scaleFactors_cons, h.quotient]
    show _ = scaleOf rest * termProduct σ (others (under .multiply rest)) / _
    rw [div_mul_eq_div_div_swap]
    ring

end HasQuotient

/-- The value of a product is put together from the numbers and from the values of the terms that
are not folded. -/
theorem hasQuotient_of_product? (hplain : ∀ operand ∈ operands, operand.term.isPlain = true)
    (h : Operator.product? (σ.operandValues operands) = some q) : HasQuotient σ q operands := by
  induction operands generalizing q with
  | nil =>
    cases h
    exact .nil
  | cons operand rest ih =>
    obtain ⟨operator, term⟩ := operand
    obtain ⟨a, b, c, hvalue, hfactor, hrest, rfl⟩ := Operator.product?_cons.1 h
    obtain ⟨hterm, hplain⟩ := List.forall_mem_cons.1 hplain
    have hquotient := ih hplain hrest
    -- A number is folded into the scale, and anything else is kept as a factor or as a divisor.
    cases operator with
    | add => cases hfactor
    | subtract => cases hfactor
    | multiply =>
      cases hfactor
      rcases number_or_isUnfolded hterm with ⟨x, rfl⟩ | hunfolded
      · refine hquotient.folded ?_ rfl rfl
        rw [eq_of_rational? hvalue]
        rfl
      · exact hquotient.times hunfolded hvalue
    | divide =>
      -- A zero divisor has no value.
      have ha : a ≠ 0 := by
        rintro rfl
        cases hfactor
      rw [Operator.factor?, if_neg ha] at hfactor
      cases hfactor
      rcases number_or_isUnfolded hterm with ⟨x, rfl⟩ | hunfolded
      · refine hquotient.folded ?_ rfl rfl
        show 1.0 / x :: scaleFactors rest = _
        rw [eq_of_rational? hvalue, one_eq, rational_div ha, one_div]
      · exact hquotient.dividedBy hunfolded hvalue ha

/-! ## Texts -/

/-- A quotient of texts. A divisor that stands alone has to be a single value. -/
theorem isProductOf_quotientText {factors divisors : List (ℚ × String)}
    (hfactors : ∀ part ∈ factors, IsProductOf σ part.1 part.2) (hne : factors ≠ [])
    (hdivisors : ∀ part ∈ divisors, IsProductOf σ part.1 part.2 ∧ part.1 ≠ 0)
    (hsole : ∀ part, divisors = [part] → IsValueOf σ part.1 part.2) :
    IsProductOf σ ((factors.map Prod.fst).prod / (divisors.map Prod.fst).prod)
      (quotientText (factors.map Prod.snd) (divisors.map Prod.snd)) := by
  have hproduct := isProductOf_intercalate hfactors hne
  have hnonzero : (divisors.map Prod.fst).prod ≠ 0 := by
    refine List.prod_ne_zero fun hzero => ?_
    obtain ⟨part, hpart, heq⟩ := List.mem_map.1 hzero
    exact (hdivisors part hpart).2 heq
  cases divisors with
  | nil =>
    rw [List.map_nil, List.prod_nil, div_one]
    exact hproduct
  | cons first rest =>
    cases rest with
    -- A lone divisor is written without parentheses, so it has to be a single value.
    | nil =>
      have hover := hproduct.dividedBy (hsole first rfl) (hdivisors first List.mem_cons_self).2
      rwa [List.map_singleton, List.prod_singleton]
    | cons second rest =>
      have hdivisor := isProductOf_intercalate (fun part hpart => (hdivisors part hpart).1)
        (List.cons_ne_nil first (second :: rest))
      have htext : quotientText (factors.map Prod.snd) ((first :: second :: rest).map Prod.snd) = _ :=
        quotientText_of_several _ _ _ _
      rw [htext]
      exact hproduct.dividedBy hdivisor.sum.paren hnonzero

/-- The values and the texts of factors, in the order in which they are written. -/
def factorParts (σ : Assignment) (terms : List (Term Extended)) : List (ℚ × String) :=
  (sorted terms).map fun term => (σ.valueOf term, term.factorText)

section FactorParts

variable {terms : List (Term Extended)}

/-- The texts of the factors. -/
theorem map_snd_factorParts (terms : List (Term Extended)) :
    (factorParts σ terms).map Prod.snd = (sorted terms).map Term.factorText := by
  rw [factorParts, List.map_map]
  rfl

/-- The product of the values does not depend on the order. -/
theorem prod_factorParts (terms : List (Term Extended)) :
    ((factorParts σ terms).map Prod.fst).prod = termProduct σ terms := by
  rw [factorParts, List.map_map]
  exact ((perm_sorted terms).map _).prod_eq

/-- What holds of the value and the text of each term holds of the factors. -/
theorem forall_factorParts {Q : ℚ → String → Prop}
    (h : ∀ term ∈ terms, Q (σ.valueOf term) term.factorText) :
    ∀ part ∈ factorParts σ terms, Q part.1 part.2 :=
  List.forall_mem_map.2 fun term hterm => h term (List.mem_mergeSort.1 hterm)

/-- There are as many factors as terms. -/
theorem factorParts_ne_nil (h : terms ≠ []) : factorParts σ terms ≠ [] := by
  intro hnil
  have hsorted : sorted terms = [] := List.map_eq_nil_iff.1 hnil
  exact h (hsorted ▸ perm_sorted terms).symm.eq_nil

/-- A lone factor comes from a lone term. -/
theorem exists_of_factorParts_eq_singleton {part : ℚ × String} (h : factorParts σ terms = [part]) :
    ∃ term, terms = [term] ∧ part = (σ.valueOf term, term.factorText) := by
  obtain ⟨term, hsorted, rfl⟩ := List.map_eq_singleton_iff.1 h
  exact ⟨term, List.perm_singleton.1 (hsorted ▸ (perm_sorted terms).symm), rfl⟩

/-- The scale is left out if it is one and there are other factors. -/
theorem exists_scaleParts {scale : ℚ} (h : IsPrintable scale) (factors : List (Term Extended)) :
    ∃ parts : List (ℚ × String),
      (if rational scale == 1.0 && !factors.isEmpty then [] else [Scalar.text (rational scale)]) =
        parts.map Prod.snd ∧
      (∀ part ∈ parts, IsProductOf σ part.1 part.2) ∧ (parts.map Prod.fst).prod = scale ∧
      parts ++ factorParts σ factors ≠ [] := by
  split
  · -- A scale of one is left out if a factor follows.
    next hone =>
    rw [Bool.and_eq_true, one_eq, rational_beq_iff, Bool.not_eq_true', List.isEmpty_eq_false_iff]
      at hone
    exact ⟨[], rfl, List.forall_mem_nil _, hone.1.symm, factorParts_ne_nil hone.2⟩
  · exact ⟨[(scale, Scalar.text (rational scale))], rfl,
      List.forall_mem_singleton.2 (isValueOf_number h).product, List.prod_singleton,
      List.cons_ne_nil _ _⟩

end FactorParts

/-- The text of a product without units. -/
theorem productText_eq {scale : Extended} {factors divisors : List (Term Extended)} :
    productText scale [] [] [] factors divisors = quotientText
      ((if scale == 1.0 && !factors.isEmpty then [] else [Scalar.text scale])
        ++ (sorted factors).map Term.factorText)
      ((sorted divisors).map Term.factorText) := by
  simp [productText, dimensionTexts]

section Factors

variable (hproduced : term.IsProduced) (hnumber : ∀ x, term ≠ .number x)
  (h : (term.value? σ).isSome = true)

include hproduced hnumber h

/-- The text of a factor is a single value, but for that of a product. -/
theorem isValueOf_factorText (hproduct : ∀ text, term ≠ .expression text .product) :
    IsValueOf σ (σ.valueOf term) term.factorText := by
  have hplain := hproduced.isPlain
  have hq := Assignment.value?_eq_valueOf h
  cases term with
  | number x => exact absurd rfl (hnumber x)
  | percentage x => cases hplain
  | dimension x unit => cases hplain
  | symbol name => exact isValueOf_symbol hplain hq
  | expression text kind =>
    -- A sum is put in parentheses, and a product is excluded.
    cases kind with
    | sum =>
      obtain ⟨tree, addends, hreads⟩ := hproduced.isStable.isWithin
      exact (Term.isSumOf_of_value? hreads hq).paren
    | product => exact absurd rfl (hproduct text)

/-- The text of a factor has the value of the factor as a product. -/
theorem isProductOf_factorText : IsProductOf σ (σ.valueOf term) term.factorText := by
  by_cases hproduct : ∃ text, term = .expression text .product
  · obtain ⟨text, rfl⟩ := hproduct
    obtain ⟨tree, factors, hreads⟩ := hproduced.isStable.isWithin
    exact Term.isProductOf_of_value? hreads (Assignment.value?_eq_valueOf h)
  · exact (isValueOf_factorText hproduced hnumber h fun text htext =>
      hproduct ⟨text, htext⟩).product

end Factors

end Reduce

open Reduce

section Products

variable (hproduced : ∀ operand ∈ operands, operand.term.IsProduced)
  (hvalue : Operator.product? (σ.operandValues operands) = some q)

include hproduced hvalue

/-- The text of a product has the value of the product. -/
theorem isProductOf_productText (hprintable : IsPrintable (scaleOf operands))
    (hsole : ∀ text, divisors (under .divide operands) ≠ [.expression text .product]) :
    IsProductOf σ q (productText (Number.product (scaleFactors operands)) [] [] []
      (others (under .multiply operands)) (divisors (under .divide operands))) := by
  obtain ⟨hscale, hmultiplied, hdivided, hquotient⟩ :=
    hasQuotient_of_product? (fun operand hoperand => (hproduced operand hoperand).isPlain) hvalue
  -- Each of the terms that are written has a value, and its text has the same one.
  have hunder : ∀ {operator term}, term ∈ under operator operands → term.IsProduced := by
    intro operator term hterm
    obtain ⟨operand, hoperand, rfl⟩ := exists_of_mem_under hterm
    exact hproduced operand hoperand
  have hfactor : ∀ term ∈ others (under .multiply operands),
      IsProductOf σ (σ.valueOf term) term.factorText := by
    intro term hterm
    obtain ⟨hmem, hother⟩ := List.mem_filter.1 hterm
    exact isProductOf_factorText (hunder hmem) (by rintro x rfl; cases hother)
      (hmultiplied term hterm)
  have hdivisor : ∀ term ∈ divisors (under .divide operands),
      IsProductOf σ (σ.valueOf term) term.factorText ∧
        ((∀ text, term ≠ .expression text .product) →
          IsValueOf σ (σ.valueOf term) term.factorText) := by
    intro term hterm
    obtain ⟨hmem, hother⟩ := List.mem_filter.1 hterm
    have hnumber : ∀ x, term ≠ .number x := by
      rintro x rfl
      cases hother
    exact ⟨isProductOf_factorText (hunder hmem) hnumber (hdivided term hterm).1,
      isValueOf_factorText (hunder hmem) hnumber (hdivided term hterm).1⟩
  -- A divisor that stands alone is a single value by the assumption on the operands.
  have hsolePart : ∀ part, factorParts σ (divisors (under .divide operands)) = [part] →
      IsValueOf σ part.1 part.2 := by
    intro part hpart
    obtain ⟨term, hone, rfl⟩ := exists_of_factorParts_eq_singleton hpart
    refine (hdivisor term (by rw [hone]; exact List.mem_singleton_self _)).2 ?_
    rintro text rfl
    exact hsole text hone
  obtain ⟨scaleParts, htexts, hparts, hprod, hne⟩ := exists_scaleParts (σ := σ) hprintable
    (others (under .multiply operands))
  have hall := isProductOf_quotientText
    (List.forall_mem_append.2 ⟨hparts, forall_factorParts hfactor⟩) hne
    (forall_factorParts (Q := fun a text => IsProductOf σ a text ∧ a ≠ 0)
      fun term hterm => ⟨(hdivisor term hterm).1, (hdivided term hterm).2⟩) hsolePart
  rw [List.map_append, List.map_append, List.prod_append, hprod, prod_factorParts, prod_factorParts,
    map_snd_factorParts, map_snd_factorParts, ← htexts, ← hquotient] at hall
  rwa [product_rational hscale, productText_eq]

/-- The term that a product reduces to has the value of the product. -/
theorem value?_of_reduceProduct (h : reduceProduct operands = some term)
    (hprintable : term.isToken = false → IsPrintable (scaleOf operands))
    (hsole : ∀ text, divisors (under .divide operands) ≠ [.expression text .product])
    (hshallow : term.IsShallow) : term.value? σ = some q := by
  have hplain : ∀ operand ∈ operands, operand.term.isPlain = true := fun operand hoperand =>
    (hproduced operand hoperand).isPlain
  obtain ⟨hscale, -, -, hquotient⟩ := hasQuotient_of_product? hplain hvalue
  have hscale : Number.product (scaleFactors operands) = rational (scaleOf operands) :=
    product_rational hscale
  obtain ⟨hpercentages, hdimensions⟩ := Term.no_units hplain
  unfold reduceProduct at h
  rw [hpercentages, hdimensions, hdimensions, hscale] at h
  dsimp only at h
  split at h
  · cases h
  rw [isNaN_rational, if_neg Bool.false_ne_true] at h
  -- One case for each way out of the reduction that is left without units.
  split at h
  · -- The scale is zero, and so is the value.
    next hzero =>
    rw [Bool.and_eq_true, Bool.and_eq_true, zero_eq, rational_beq_iff] at hzero
    rw [List.isEmpty_nil, if_pos rfl] at h
    cases h
    rw [hquotient, hzero.1.1, zero_mul, zero_div, zero_eq]
    rfl
  · split at h
    · next hsome =>
      cases h
      refine Term.value?_of_isSumOf (IsProductOf.sum ?_) hshallow
      rw [← hscale]
      exact isProductOf_productText hproduced hvalue (hprintable rfl) hsole
    · next hnone =>
      cases h
      rw [Bool.not_eq_true, Bool.not_eq_false', Bool.and_eq_true, List.isEmpty_iff,
        List.isEmpty_iff] at hnone
      rw [hquotient, hnone.1, hnone.2]
      show some (scaleOf operands) = some (scaleOf operands * 1 / 1)
      rw [mul_one, div_one]

end Products

/-- Terms that are multiplied and divided by reduce to a term, unless a product is all that is
divided by besides numbers. Where the numbers that it prints are written in full and it is not
nested too deeply to be read, the term has the value of the product under every assignment under
which no divisor is zero. -/
theorem exists_reduceProduct_eq (hne : operands ≠ [])
    (hproduced : ∀ operand ∈ operands, operand.term.IsProduced)
    (hsole : ∀ text, divisors (under .divide operands) ≠ [.expression text .product]) :
    ∃ term, reduceProduct operands = some term ∧
      ((term.isToken = false → IsPrintable (scaleOf operands)) → term.IsShallow →
        ∀ (σ : Assignment) (q : ℚ),
          Operator.product? (σ.operandValues operands) = some q → term.value? σ = some q) := by
  obtain ⟨term, hterm⟩ := Option.isSome_iff_exists.1 (reduceProduct_isSome hne)
  exact ⟨term, hterm, fun hprintable hshallow σ q hvalue =>
    value?_of_reduceProduct hproduced hvalue hterm hprintable hsole hshallow⟩

namespace Term.IsProduced

/-- A name that is no constant is a symbol. -/
theorem symbol_a : (Term.symbol "a").IsProduced := symbol rfl (by cbv)

/-- A difference of names. -/
theorem difference : (expression "a - b" .sum).IsProduced := by
  have hterm : reduceSum [⟨.add, Term.symbol "a"⟩, ⟨.subtract, Term.symbol "b"⟩] =
      some (expression "a - b" .sum : Term Extended) := by decide +kernel
  exact sum (List.forall_mem_cons.2
    ⟨symbol_a, List.forall_mem_singleton.2 (symbol rfl (by cbv))⟩) hterm

/-- A multiple of a name. -/
theorem double : (expression "2 * a" .product).IsProduced := by
  have hterm : reduceProduct [⟨.multiply, .number (rational 2)⟩, ⟨.multiply, Term.symbol "a"⟩] =
      some (expression "2 * a" .product : Term Extended) := by decide +kernel
  exact product (List.forall_mem_cons.2 ⟨number _, List.forall_mem_singleton.2 symbol_a⟩) hterm

end Term.IsProduced

/-- Products of sums and of products are divided by a sum. -/
theorem exists_reduceProduct_eq_quotient :
    let operands : List (Operand Extended) := [⟨.multiply, .number (rational 6)⟩,
      ⟨.multiply, .expression "2 * a" .product⟩, ⟨.divide, .expression "a - b" .sum⟩]
    reduceProduct operands = some (.expression "6 * 2 * a / (a - b)" .product) ∧
      (Term.expression "6 * 2 * a / (a - b)" .product).value?
        ⟨fun name => if name = "a" then 2 else 5, fun _ => 1, 1⟩ = some (-8) := by
  intro operands
  have hreduce : reduceProduct operands = some (.expression "6 * 2 * a / (a - b)" .product) := by
    decide +kernel
  have hproduced : ∀ operand ∈ operands, operand.term.IsProduced :=
    List.forall_mem_cons.2 ⟨.number _, List.forall_mem_cons.2
      ⟨.double, List.forall_mem_singleton.2 .difference⟩⟩
  -- All that the general statement asks for is decided on these operands.
  have hne : operands ≠ [] := List.cons_ne_nil _ _
  have hsole : ∀ text, divisors (under .divide operands) ≠ [.expression text .product] := by
    intro text h
    cases h
  obtain ⟨term, hterm, hvalue⟩ := exists_reduceProduct_eq hne hproduced hsole
  rw [hreduce] at hterm
  cases hterm
  have hscale : scaleOf operands = 6 := by decide +kernel
  have hshallow : nesting (scan "calc(6 * 2 * a / (a - b))".toList : List (Token Extended)) ≤
      maxBlockDepth := by decide +kernel
  refine ⟨hreduce, hvalue (fun _ => ?_) hshallow _ _ (by decide +kernel)⟩
  rw [hscale]
  exact ⟨6, 0, by norm_num, by norm_num, by norm_num⟩

/-- The characters of differences that are nested in one another. -/
def repeatedChars : ℕ → List Char
  | 0 => ['a', ' ', '-', ' ', 'b']
  | levels + 1 => ['a', ' ', '-', ' ', '('] ++ repeatedChars levels ++ [')']

/-- Differences that are nested in one another. -/
def repeatedDifference (levels : ℕ) : String := String.ofList (repeatedChars levels)

/-- A difference whose subtrahend is such a difference again is produced by a sum. -/
theorem isProduced_repeatedDifference (levels : ℕ) :
    (Term.expression (repeatedDifference levels) .sum).IsProduced := by
  induction levels with
  | zero => exact .difference
  | succ levels ih =>
    -- The subtrahend is a sum, so it is put in parentheses.
    have htext : "a" ++ " - " ++ ("(" ++ repeatedDifference levels ++ ")") =
        repeatedDifference (levels + 1) := by
      rw [← String.toList_inj, repeatedDifference, repeatedDifference]
      simp only [String.toList_append, String.toList_ofList]
      rfl
    have hterm : reduceSum [⟨.add, .symbol "a"⟩,
        ⟨.subtract, .expression (repeatedDifference levels) .sum⟩] =
          some (.expression (repeatedDifference (levels + 1)) .sum : Term Extended) := by
      rw [← htext]
      exact Reduce.reduceSum_difference "a" rfl
    exact .sum (List.forall_mem_cons.2 ⟨.symbol_a, List.forall_mem_singleton.2 ih⟩) hterm

/-- A factor that can be read may be nested too deeply in parentheses, and a product that is all
that is divided by loses its own. -/
theorem value?_reduceProduct_ne :
    let σ : Assignment := ⟨fun name => if name = "a" then 2 else 5, fun _ => 1, 1⟩
    (let operands : List (Operand Extended) := [⟨.multiply, .number (rational 2)⟩,
        ⟨.multiply, .expression (repeatedDifference 63) .sum⟩]
     (∀ operand ∈ operands, operand.term.IsProduced) ∧ scaleOf operands = 2 ∧
        Operator.product? (σ.operandValues operands) = some 10 ∧
        reduceProduct operands =
          some (.expression ("2 * (" ++ repeatedDifference 63 ++ ")") .product) ∧
        (Term.expression ("2 * (" ++ repeatedDifference 63 ++ ")") .product).value? σ = none) ∧
    (let operands : List (Operand Extended) := [⟨.multiply, .number (rational 6)⟩,
        ⟨.divide, .expression "2 * a" .product⟩]
     (∀ operand ∈ operands, operand.term.IsProduced) ∧ scaleOf operands = 6 ∧
        Operator.product? (σ.operandValues operands) = some (3 / 2) ∧
        reduceProduct operands = some (.expression "6 / 2 * a" .product) ∧
        (Term.expression "6 / 2 * a" .product).value? σ = some 6) := by
  intro σ
  refine ⟨⟨?_, by decide +kernel, ?_, by decide +kernel, ?_⟩, ?_, by decide +kernel,
    by decide +kernel, by decide +kernel, by decide +kernel⟩
  · -- The sum is nested as deeply as is allowed, and the product puts it into one more pair.
    exact List.forall_mem_cons.2
      ⟨.number _, List.forall_mem_singleton.2 (isProduced_repeatedDifference 63)⟩
  · have hvalue : (Term.expression (repeatedDifference 63) .sum).value? σ = some 5 := by
      unfold Term.value? Expression.ofText? repeatedDifference
      simp only [String.toList_append, String.toList_ofList]
      decide +kernel
    show Operator.product? [(.multiply, some 2),
      (.multiply, (Term.expression (repeatedDifference 63) .sum).value? σ)] = _
    rw [hvalue]
    decide +kernel
  · -- The product is written behind the slash as it is, so that only its first factor divides.
    unfold Term.value? Expression.ofText? repeatedDifference
    simp only [String.toList_append, String.toList_ofList]
    decide +kernel
  · exact List.forall_mem_cons.2 ⟨.number _, List.forall_mem_singleton.2 .double⟩

end CssColor
