import CssColor.Calc.Reduce
import Mathlib.Tactic.Common

/-!
# Texts that sums and products put together

A sum or a product puts the texts of its operands together with signs and parentheses. Properties of
the texts of values, products and sums that are kept by this (`Expression.IsClosed`) hold of the
term that operands reduce to if they hold of the terms of the operands, whatever numbers stand in
front of their units (`reduceProduct_isStable`, `reduceSum_isStable`).
-/

namespace CssColor

/-! ## Properties of texts -/

namespace Reduce

/-- Several divisors are put in parentheses. -/
theorem quotientText_of_several (factors : List String) (first second : String)
    (rest : List String) : quotientText factors (first :: second :: rest) =
      String.intercalate " * " factors ++ " / " ++
        ("(" ++ String.intercalate " * " (first :: second :: rest) ++ ")") := by
  show _ ++ " / (" ++ _ ++ ")" = _
  have hsign : " / (" = " / " ++ "(" := rfl
  rw [hsign]
  simp only [String.append_assoc]

/-- Several texts that are subtracted are put in parentheses. -/
def groupText : List String → String
  | [text] => text
  | texts => "(" ++ String.intercalate " + " texts ++ ")"

/-- What is subtracted is multiplied by minus one if there is nothing else. -/
theorem differenceText_eq {positive negative : List String} (h : negative ≠ []) :
    differenceText positive negative = if positive = [] then "-1 * " ++ groupText negative
      else String.intercalate " + " positive ++ " - " ++ groupText negative := by
  cases negative with
  | nil => exact absurd rfl h
  | cons text rest =>
    -- Without anything to subtract from, minus one is the first factor.
    cases positive with
    | nil =>
      cases rest with
      | nil => rfl
      | cons other rest =>
        show "-1 * (" ++ _ ++ ")" = "-1 * " ++ ("(" ++ _ ++ ")")
        have hsign : "-1 * (" = "-1 * " ++ "(" := rfl
        rw [hsign]
        simp only [String.append_assoc]
    -- A lone subtrahend stands as it is, and several are put in parentheses.
    | cons first positive =>
      cases rest with
      | nil => rfl
      | cons other rest =>
        show _ ++ " - (" ++ _ ++ ")" = _ ++ " - " ++ ("(" ++ _ ++ ")")
        have hsign : " - (" = " - " ++ "(" := rfl
        rw [hsign]
        simp only [String.append_assoc]

end Reduce

namespace Expression

/-- Properties of the texts of values, products and sums that hold of what is put together from
texts which have them. -/
structure IsClosed (V P S : String → Prop) : Prop where
  minusOne : V "-1"
  product {text : String} : V text → P text
  times {text text' : String} : P text → P text' → P (text ++ " * " ++ text')
  dividedBy {text text' : String} : P text → P text' → P (text ++ " / " ++ text')
  sum {text : String} : P text → S text
  plus {text text' : String} : S text → S text' → S (text ++ " + " ++ text')
  minus {text text' : String} : S text → V text' → S (text ++ " - " ++ text')
  paren {text : String} : S text → V ("(" ++ text ++ ")")

/-- Texts that can be joined by a separator can be strung together with it. -/
theorem intercalate_of_join {P : String → Prop} {separator : String}
    (h : ∀ {text text'}, P text → P text' → P (text ++ separator ++ text')) {texts : List String}
    (htexts : ∀ text ∈ texts, P text) (hne : texts ≠ []) :
    P (String.intercalate separator texts) := by
  induction texts with
  | nil => exact absurd rfl hne
  | cons text rest ih =>
    -- The separator stands between texts only, so the last text is on its own.
    cases rest with
    | nil =>
      rw [String.intercalate_singleton]
      exact htexts text List.mem_cons_self
    | cons text' rest =>
      rw [String.intercalate_cons_cons]
      exact h (htexts text List.mem_cons_self)
        (ih (fun text htext => htexts text (List.mem_cons_of_mem _ htext)) (List.cons_ne_nil _ _))

section Texts

variable {V P S : String → Prop} (h : IsClosed V P S)

include h

/-- A quotient has the property of products if its factors and divisors have it. -/
theorem IsClosed.quotientText {factors divisors : List String} (hne : factors ≠ [])
    (hfactors : ∀ text ∈ factors, P text) (hdivisors : ∀ text ∈ divisors, P text) :
    P (Reduce.quotientText factors divisors) := by
  have hproduct := intercalate_of_join h.times hfactors hne
  cases divisors with
  | nil => exact hproduct
  | cons first rest =>
    cases rest with
    | nil => exact h.dividedBy hproduct (hdivisors first List.mem_cons_self)
    | cons second rest =>
      rw [Reduce.quotientText_of_several]
      exact h.dividedBy hproduct (h.product (h.paren (h.sum
        (intercalate_of_join h.times hdivisors (List.cons_ne_nil _ _)))))

/-- A difference has the property of sums if what it adds and subtracts is fit for it. -/
theorem IsClosed.differenceText {positive negative : List String}
    (hne : ¬ (positive = [] ∧ negative = [])) (hpositive : ∀ text ∈ positive, S text)
    (hnegative : ∀ text ∈ negative, V text) : S (Reduce.differenceText positive negative) := by
  rcases eq_or_ne negative [] with rfl | hsome
  · exact intercalate_of_join h.plus hpositive fun hnil => hne ⟨hnil, rfl⟩
  -- What is subtracted is a value: one text, or a sum in parentheses.
  have hgroup : V (Reduce.groupText negative) := by
    unfold Reduce.groupText
    split
    · exact hnegative _ List.mem_cons_self
    · exact h.paren (intercalate_of_join h.plus
        (fun text htext => h.sum (h.product (hnegative text htext))) hsome)
  rw [Reduce.differenceText_eq hsome]
  -- Without anything to subtract from, it is multiplied by minus one.
  split
  · have hproduct := h.times (h.product h.minusOne) (h.product hgroup)
    exact h.sum hproduct
  · next hpositive' => exact h.minus (intercalate_of_join h.plus hpositive hpositive') hgroup

end Texts

end Expression

/-! ## Terms -/

variable {K : Type} [Scalar K] {V P S : String → Prop} {operands : List (Operand K)} {term : Term K}

namespace Term

/-- The text of a term has the property of what the term is: a sum, a product, or else a value. -/
def IsWithin (V P S : String → Prop) : Term K → Prop
  | expression text .sum => S text
  | expression text .product => P text
  | term => V term.text

/-- The unit of a term that has one. -/
def unit? : Term K → Option String
  | dimension _ unit => some unit
  | _ => none

/-- A term with another number, if it has one. -/
def withNumber (x : K) : Term K → Term K
  | number _ => number x
  | percentage _ => percentage x
  | dimension _ unit => dimension x unit
  | term => term

/-- The term has the property of what it is, with any number. -/
def IsStable (V P S : String → Prop) (term : Term K) : Prop :=
  ∀ x, (term.withNumber x).IsWithin V P S

/-- A term that may have any number may have its own. -/
theorem IsStable.isWithin (h : term.IsStable V P S) : term.IsWithin V P S := by
  cases term with
  | number x => exact h x
  | percentage x => exact h x
  | dimension x unit => exact h x
  | symbol name => exact h 0.0
  | expression text kind => exact h 0.0

section Texts

variable (hclosed : Expression.IsClosed V P S)

include hclosed

/-- A term is fit to be a factor: a sum is put in parentheses for that. -/
theorem IsWithin.factorText (h : term.IsWithin V P S) : P term.factorText := by
  cases term with
  | expression text kind =>
    cases kind with
    | sum => exact hclosed.product (hclosed.paren h)
    | product => exact h
  | _ => exact hclosed.product h

/-- A term is fit to be subtracted: all but values are put in parentheses for that. -/
theorem IsWithin.subtrahendText (h : term.IsWithin V P S) : V term.subtrahendText := by
  cases term with
  | expression text kind =>
    cases kind with
    | sum => exact hclosed.paren h
    | product => exact hclosed.paren (hclosed.sum h)
  | _ => exact h

/-- A term is fit to be added: a product is put in parentheses for that. -/
theorem IsWithin.addendText (h : term.IsWithin V P S) : S term.addendText := by
  cases term with
  | expression text kind =>
    cases kind with
    | sum => exact h
    | product => exact hclosed.sum (hclosed.product (h.subtrahendText hclosed))
  | _ => exact hclosed.sum (hclosed.product h)

end Texts

end Term

namespace Reduce

/-! ## Operands -/

section Operands

variable {terms : List (Term K)} {operator : Operator}

omit [Scalar K] in
/-- The terms under a sign, one operand at a time. -/
theorem under_cons (operator' : Operator) (term : Term K) (rest : List (Operand K)) :
    under operator (⟨operator', term⟩ :: rest) =
      (if operator' = operator then [term] else []) ++ under operator rest := by
  split
  · next h => exact List.filterMap_cons_some (if_pos h)
  · next h => exact List.filterMap_cons_none (if_neg h)

omit [Scalar K] in
/-- A term under a sign is the term of an operand with this sign. -/
theorem mem_of_mem_under (h : term ∈ under operator operands) : ⟨operator, term⟩ ∈ operands := by
  obtain ⟨⟨operator', term'⟩, hoperand, hterm⟩ := List.mem_filterMap.1 h
  split at hterm
  · next hoperator =>
    cases hterm
    cases hoperator
    exact hoperand
  · cases hterm

omit [Scalar K] in
/-- A term under a sign is the term of an operand. -/
theorem exists_of_mem_under (h : term ∈ under operator operands) :
    ∃ operand ∈ operands, operand.term = term := ⟨_, mem_of_mem_under h, rfl⟩

omit [Scalar K] in
/-- A value with a unit comes from a term with this value and this unit. -/
theorem mem_of_mem_dimensions {value : K × String} (h : value ∈ dimensions terms) :
    .dimension value.1 value.2 ∈ terms := by
  obtain ⟨term, hterm, hvalue⟩ := List.mem_filterMap.1 h
  cases term with
  | dimension =>
    cases hvalue
    exact hterm
  | _ => cases hvalue

omit [Scalar K] in
/-- A percentage comes from a term that is this percentage. -/
theorem mem_of_mem_percentages {value : K} (h : value ∈ percentages terms) :
    .percentage value ∈ terms := by
  obtain ⟨term, hterm, hvalue⟩ := List.mem_filterMap.1 h
  cases term with
  | percentage =>
    cases hvalue
    exact hterm
  | _ => cases hvalue

/-- The percentages of a sum have a total if there are any. -/
theorem exists_percentage (h : total? (signedPercentages operands) ≠ none) :
    ∃ operand ∈ operands, ∃ x, operand.term = .percentage x := by
  have hne : signedPercentages operands ≠ [] := by
    intro hnil
    rw [hnil] at h
    exact h rfl
  obtain ⟨value, hvalue⟩ := List.exists_mem_of_ne_nil _ hne
  obtain ⟨⟨operator, term⟩, hoperand, hvalue⟩ := List.mem_filterMap.1 hvalue
  refine ⟨_, hoperand, ?_⟩
  cases term with
  | percentage x => exact ⟨x, rfl⟩
  | _ => cases operator <;> cases hvalue

end Operands

/-! ## Products -/

/-- The expression that the operands of a product give if they are not folded. -/
def productExpression (operands : List (Operand K)) : Term K :=
  .expression (productText (Number.product (scaleFactors operands))
    (percentages (under .multiply operands)) (dimensions (under .multiply operands))
    (dimensions (under .divide operands)) (others (under .multiply operands))
    (divisors (under .divide operands))) .product

/-- What a product can reduce to. A percentage or a value with a unit comes from one among the
factors. -/
theorem reduceProduct_cases (h : reduceProduct operands = some term) :
    (∃ x, term = .number x) ∨
    (∃ x, term = .percentage x ∧ percentages (under .multiply operands) ≠ []) ∨
    (∃ x, ∃ value ∈ dimensions (under .multiply operands), term = .dimension x value.2) ∨
    term = productExpression operands := by
  -- One case for each way out of the reduction, in the order in which they are tried.
  unfold reduceProduct at h
  dsimp only at h
  split at h
  · cases h
  · split at h
    · exact .inl ⟨_, (Option.some.inj h).symm⟩
    · split at h
      · split at h
        · exact .inl ⟨_, (Option.some.inj h).symm⟩
        · next hsome => exact .inr (.inl ⟨_, (Option.some.inj h).symm, by simpa using hsome⟩)
      · split at h
        · exact .inr (.inr (.inr (Option.some.inj h).symm))
        · split at h
          · exact .inl ⟨_, (Option.some.inj h).symm⟩
          · next hpercentages _ _ =>
            refine .inr (.inl ⟨_, (Option.some.inj h).symm, ?_⟩)
            rw [hpercentages]
            exact List.cons_ne_nil _ _
          · next value unit _ hmultiplied _ =>
            refine .inr (.inr (.inl ⟨_, (value, unit), ?_, (Option.some.inj h).symm⟩))
            rw [hmultiplied]
            exact List.mem_singleton_self _
          · split at h
            · exact .inl ⟨_, (Option.some.inj h).symm⟩
            · exact .inr (.inr (.inr (Option.some.inj h).symm))
          · exact .inr (.inr (.inr (Option.some.inj h).symm))

/-- Sorting keeps the terms. -/
theorem perm_sorted (terms : List (Term K)) : (sorted terms).Perm terms :=
  List.mergeSort_perm terms textLE

section Texts

variable {values : List (K × String)} {terms : List (Term K)}

/-- What holds of the texts of values with units holds of the texts of the sorted list. -/
theorem forall_dimensionTexts {Q : String → Prop}
    (h : ∀ value ∈ values, Q (Term.dimension value.1 value.2).text) :
    ∀ text ∈ dimensionTexts values, Q text := by
  intro text htext
  obtain ⟨value, hvalue, rfl⟩ := List.mem_map.1 htext
  exact h value (List.mem_mergeSort.1 hvalue)

/-- What holds of the texts of terms holds of the texts of the sorted list. -/
theorem forall_sorted {Q : String → Prop} {write : Term K → String}
    (h : ∀ term ∈ terms, Q (write term)) : ∀ text ∈ (sorted terms).map write, Q text := by
  intro text htext
  obtain ⟨term, hterm, rfl⟩ := List.mem_map.1 htext
  exact h term ((perm_sorted terms).mem_iff.1 hterm)

end Texts

/-- The scale is only left out if there is another factor. -/
theorem productText_factors_ne_nil {scale : K} {percentages : List K}
    {multiplied : List (K × String)} {factors : List (Term K)} :
    (if scale == 1.0 && !(percentages.isEmpty && multiplied.isEmpty && factors.isEmpty) then []
      else [Scalar.text scale])
      ++ (percentages.mergeSort Scalar.totalLE).map (fun value => (Term.percentage value).text)
      ++ dimensionTexts multiplied ++ (sorted factors).map Term.factorText ≠ [] := by
  intro hnil
  have hlength := congrArg List.length hnil
  simp only [dimensionTexts, sorted, List.length_append, List.length_map, List.length_mergeSort,
    List.length_nil, Nat.add_eq_zero_iff, List.length_eq_zero_iff] at hlength
  -- The scale is only left out in front of something else.
  obtain ⟨⟨⟨hscale, rfl⟩, rfl⟩, rfl⟩ := hlength
  simp at hscale

/-- The text of a product has the property of products if its parts are fit for it. -/
theorem productText_isClosed (hclosed : Expression.IsClosed V P S) {scale : K}
    {percentages : List K} {multiplied divided : List (K × String)}
    {factors divisors : List (Term K)} (hscale : V (Scalar.text scale))
    (hpercentages : ∀ value ∈ percentages, V (Term.percentage value).text)
    (hmultiplied : ∀ value ∈ multiplied, V (Term.dimension value.1 value.2).text)
    (hdivided : ∀ value ∈ divided, V (Term.dimension value.1 value.2).text)
    (hfactors : ∀ term ∈ factors, term.IsWithin V P S)
    (hdivisors : ∀ term ∈ divisors, term.IsWithin V P S) :
    P (productText scale percentages multiplied divided factors divisors) := by
  -- The factors are the scale, the percentages, the dimensions and the other terms, in this order.
  refine hclosed.quotientText productText_factors_ne_nil (fun text htext => ?_)
    fun text htext => ?_
  · rcases List.mem_append.1 htext with htext | htext
    · rcases List.mem_append.1 htext with htext | htext
      · rcases List.mem_append.1 htext with htext | htext
        · split at htext
          · cases htext
          · rw [List.mem_singleton.1 htext]
            exact hclosed.product hscale
        · obtain ⟨value, hvalue, rfl⟩ := List.mem_map.1 htext
          exact hclosed.product (hpercentages value (List.mem_mergeSort.1 hvalue))
      · exact hclosed.product (forall_dimensionTexts hmultiplied text htext)
    · exact forall_sorted (fun term hterm => (hfactors term hterm).factorText hclosed) text htext
  · -- The divisors are the dimensions and the other terms.
    rcases List.mem_append.1 htext with htext | htext
    · exact hclosed.product (forall_dimensionTexts hdivided text htext)
    · exact forall_sorted (fun term hterm => (hdivisors term hterm).factorText hclosed) text htext

end Reduce

open Reduce

/-- A product of stable terms reduces to a stable term. -/
theorem reduceProduct_isStable (hclosed : Expression.IsClosed V P S)
    (hnumber : ∀ x : K, V (Scalar.text x))
    (h : ∀ operand ∈ operands, operand.term.IsStable V P S) :
    ∀ term ∈ reduceProduct operands, term.IsStable V P S := by
  have hunder : ∀ {operator term}, term ∈ under operator operands → term.IsStable V P S := by
    intro operator term hterm
    obtain ⟨operand, hoperand, rfl⟩ := exists_of_mem_under hterm
    exact h operand hoperand
  -- Only the text of a product has several terms in it, each with its own number.
  intro term hterm x
  rcases reduceProduct_cases hterm with ⟨y, rfl⟩ | ⟨y, rfl, hsome⟩ | ⟨y, value, hvalue, rfl⟩ | rfl
  · exact hnumber x
  · obtain ⟨value, hvalue⟩ := List.exists_mem_of_ne_nil _ hsome
    exact hunder (mem_of_mem_percentages hvalue) x
  · exact hunder (mem_of_mem_dimensions hvalue) x
  · exact productText_isClosed hclosed (hnumber _)
      (fun value hvalue => hunder (mem_of_mem_percentages hvalue) value)
      (fun value hvalue => hunder (mem_of_mem_dimensions hvalue) value.1)
      (fun value hvalue => hunder (mem_of_mem_dimensions hvalue) value.1)
      (fun term hterm => (hunder (List.mem_filter.1 hterm).1).isWithin)
      fun term hterm => (hunder (List.mem_filter.1 hterm).1).isWithin

/-! ## Sums -/

namespace Reduce

/-- The totals that an addition leaves have no other units than the one added and those before. -/
theorem mem_addDimension {value : K} {unit : String} {totals : List (K × String)}
    {total : K × String} (h : total ∈ addDimension value unit totals) :
    total.2 = unit ∨ ∃ known ∈ totals, known.2 = total.2 := by
  induction totals with
  | nil =>
    rw [addDimension, List.mem_singleton] at h
    rw [h]
    exact .inl rfl
  | cons head rest ih =>
    rw [addDimension] at h
    -- The value is added to the total of its unit, or it goes further back.
    split at h
    · rcases List.mem_cons.1 h with rfl | h
      · exact .inr ⟨head, List.mem_cons_self, rfl⟩
      · exact .inr ⟨total, List.mem_cons_of_mem _ h, rfl⟩
    · rcases List.mem_cons.1 h with rfl | h
      · exact .inr ⟨_, List.mem_cons_self, rfl⟩
      · refine (ih h).imp_right ?_
        rintro ⟨known, hknown, hunit⟩
        exact ⟨known, List.mem_cons_of_mem _ hknown, hunit⟩

/-- The units of the totals are units of the values. -/
theorem exists_of_mem_totals {added subtracted : List (K × String)} {total : K × String}
    (h : total ∈ totals added subtracted) : ∃ value ∈ added ++ subtracted, value.2 = total.2 := by
  -- The induction is on the values that are still to be added.
  have hfold : ∀ values start : List (K × String),
      total ∈ values.foldl (fun totals value => addDimension value.1 value.2 totals) start →
      (∃ value ∈ values, value.2 = total.2) ∨ ∃ value ∈ start, value.2 = total.2 := by
    intro values
    induction values with
    | nil => exact fun start hstart => .inr ⟨total, hstart, rfl⟩
    | cons value rest ih =>
      intro start hstart
      rcases ih _ hstart with ⟨other, hother, hunit⟩ | ⟨other, hother, hunit⟩
      · exact .inl ⟨other, List.mem_cons_of_mem _ hother, hunit⟩
      · rcases mem_addDimension hother with heq | ⟨known, hknown, heq⟩
        · exact .inl ⟨value, List.mem_cons_self, heq.symm.trans hunit⟩
        · exact .inr ⟨known, hknown, heq.trans hunit⟩
  rcases hfold _ _ (List.mem_mergeSort.1 h) with ⟨value, hvalue, hunit⟩ | ⟨value, hvalue, -⟩
  · rcases List.mem_append.1 hvalue with hvalue | hvalue
    · exact ⟨value, List.mem_append_left _ hvalue, hunit⟩
    · obtain ⟨other, hother, rfl⟩ := List.mem_map.1 hvalue
      exact ⟨other, List.mem_append_right _ hother, hunit⟩
  · cases hvalue

/-- The totals of the operands of a sum. -/
def operandTotals (operands : List (Operand K)) : List (K × String) :=
  totals (dimensions (under .add operands)) (dimensions (under .subtract operands))

/-- A total has the unit of an operand. -/
theorem exists_of_mem_operandTotals {total : K × String} (h : total ∈ operandTotals operands) :
    ∃ operand ∈ operands, ∃ x, operand.term = .dimension x total.2 := by
  obtain ⟨value, hvalue, hunit⟩ := exists_of_mem_totals h
  rw [← hunit]
  rcases List.mem_append.1 hvalue with hvalue | hvalue
  all_goals
    obtain ⟨operand, hoperand, hterm⟩ := exists_of_mem_under (mem_of_mem_dimensions hvalue)
    exact ⟨operand, hoperand, _, hterm⟩

/-- A part of a sum is a text on one of its sides. -/
def IsPart (Q : String → Prop) (part : List String × List String) : Prop :=
  ∃ text, Q text ∧ (part = ([text], []) ∨ part = ([], [text]))

/-- A value is on one side of a sum, with its sign turned if it is subtracted. -/
theorem isPart_signedText {Q : String → Prop} {write : K → Term K} (h : ∀ x, Q (write x).text)
    (value : K) : IsPart Q (signedText write value) := by
  unfold signedText
  split
  · exact ⟨_, h _, .inr rfl⟩
  · exact ⟨_, h _, .inl rfl⟩

/-- The parts of a sum that are folded values. -/
def foldedParts (number percentage : Option K) (dimensions : List (K × String)) :
    List (List String × List String) :=
  ((number.filter (· != 0.0)).map (signedText .number)).toList
    ++ (percentage.map (signedText .percentage)).toList
    ++ dimensions.map fun (value, unit) => signedText (.dimension · unit) value

section Parts

variable {number percentage : Option K} {dimensions : List (K × String)}
  {addends subtrahends : List (Term K)}

/-- The text of a sum is a difference: the parts with numbers first, the other terms sorted. -/
theorem sumText_eq : sumText number percentage dimensions addends subtrahends =
    differenceText
      ((foldedParts number percentage dimensions).flatMap (·.1)
        ++ (sorted addends).map Term.addendText)
      ((foldedParts number percentage dimensions).flatMap (·.2)
        ++ (sorted subtrahends).map Term.subtrahendText) := rfl

/-- Each part with a number is a text that is added or one that is subtracted. -/
theorem isPart_of_mem_foldedParts {Q : String → Prop} (hnumber : ∀ x : K, Q (Scalar.text x))
    (hpercentage : percentage ≠ none → ∀ x, Q (Term.percentage x : Term K).text)
    (hdimensions : ∀ value ∈ dimensions, ∀ x : K, Q (Term.dimension x value.2).text)
    {part : List String × List String} (hpart : part ∈ foldedParts number percentage dimensions) :
    IsPart Q part := by
  rcases List.mem_append.1 hpart with hpart | hpart
  · rcases List.mem_append.1 hpart with hpart | hpart
    · obtain ⟨value, -, rfl⟩ := Option.map_eq_some_iff.1 (Option.mem_toList.1 hpart)
      exact isPart_signedText hnumber value
    · obtain ⟨value, hvalue, rfl⟩ := Option.map_eq_some_iff.1 (Option.mem_toList.1 hpart)
      exact isPart_signedText (hpercentage (by rw [hvalue]; exact Option.some_ne_none _)) value
  · obtain ⟨value, hvalue, rfl⟩ := List.mem_map.1 hpart
    exact isPart_signedText (hdimensions value hvalue) value.1

/-- Without a text on either side there is nothing but a number of zero. -/
theorem eq_nil_of_sides_eq_nil (h : (foldedParts number percentage dimensions).flatMap (·.1)
      ++ (sorted addends).map Term.addendText = [] ∧
    (foldedParts number percentage dimensions).flatMap (·.2)
      ++ (sorted subtrahends).map Term.subtrahendText = []) :
    percentage = none ∧ dimensions = [] ∧ addends = [] ∧ subtrahends = [] := by
  obtain ⟨hpositive, hnegative⟩ := h
  rw [List.append_eq_nil_iff, List.map_eq_nil_iff] at hpositive hnegative
  have hsorted : ∀ terms : List (Term K), sorted terms = [] → terms = [] := fun terms hterms =>
    (hterms ▸ perm_sorted terms).symm.eq_nil
  -- A part has a text on one side or the other, so there are no parts.
  have hnil : foldedParts number percentage dimensions = [] := by
    refine List.eq_nil_iff_forall_not_mem.2 fun part hpart => ?_
    have hsides : IsPart (fun _ => True) part :=
      isPart_of_mem_foldedParts (fun _ => trivial) (fun _ _ => trivial) (fun _ _ _ => trivial) hpart
    rw [List.flatMap_eq_nil_iff] at hpositive hnegative
    obtain ⟨written, -, rfl | rfl⟩ := hsides
    · cases hpositive.1 _ hpart
    · cases hnegative.1 _ hpart
  rw [foldedParts, List.append_eq_nil_iff, List.append_eq_nil_iff, List.map_eq_nil_iff,
    Option.toList_eq_nil_iff, Option.toList_eq_nil_iff, Option.map_eq_none_iff,
    Option.map_eq_none_iff] at hnil
  exact ⟨hnil.1.2, hnil.2, hsorted _ hpositive.2, hsorted _ hnegative.2⟩

/-- The text of a sum has the property of sums if its parts are fit for it. -/
theorem sumText_isClosed (hclosed : Expression.IsClosed V P S)
    (hne : ¬ (percentage = none ∧ dimensions = [] ∧ addends = [] ∧ subtrahends = []))
    (hnumber : ∀ x : K, V (Scalar.text x))
    (hpercentage : percentage ≠ none → ∀ x, V (Term.percentage x : Term K).text)
    (hdimensions : ∀ value ∈ dimensions, ∀ x : K, V (Term.dimension x value.2).text)
    (haddends : ∀ term ∈ addends, term.IsWithin V P S)
    (hsubtrahends : ∀ term ∈ subtrahends, term.IsWithin V P S) :
    S (sumText number percentage dimensions addends subtrahends) := by
  -- The parts with numbers are values on either side.
  have hfolded : ∀ part ∈ foldedParts number percentage dimensions, ∀ text,
      text ∈ part.1 ∨ text ∈ part.2 → V text := by
    intro part hpart text htext
    obtain ⟨written, hwritten, rfl | rfl⟩ :=
      isPart_of_mem_foldedParts hnumber hpercentage hdimensions hpart
    · rwa [List.mem_singleton.1 (htext.resolve_right List.not_mem_nil)]
    · rwa [List.mem_singleton.1 (htext.resolve_left List.not_mem_nil)]
  rw [sumText_eq]
  refine hclosed.differenceText (fun hnil => hne (eq_nil_of_sides_eq_nil hnil))
    (fun text htext => ?_) fun text htext => ?_
  · rcases List.mem_append.1 htext with htext | htext
    · obtain ⟨part, hpart, htext⟩ := List.mem_flatMap.1 htext
      exact hclosed.sum (hclosed.product (hfolded part hpart text (.inl htext)))
    · exact forall_sorted (fun term hterm => (haddends term hterm).addendText hclosed) text htext
  · rcases List.mem_append.1 htext with htext | htext
    · obtain ⟨part, hpart, htext⟩ := List.mem_flatMap.1 htext
      exact hfolded part hpart text (.inr htext)
    · exact forall_sorted (fun term hterm => (hsubtrahends term hterm).subtrahendText hclosed)
        text htext

end Parts

/-- The expression that the operands of a sum give if they are not folded. -/
def sumExpression (operands : List (Operand K)) : Term K :=
  .expression (sumText (total? (signedNumbers operands)) (total? (signedPercentages operands))
    (operandTotals operands) (others (under .add operands)) (others (under .subtract operands)))
    .sum

/-- What a sum can reduce to. A percentage, a value with a unit or another term comes from one among
the operands, and an expression has one of them. -/
theorem reduceSum_cases (h : reduceSum operands = some term) :
    (∃ x, term = .number x) ∨
    (∃ x, total? (signedPercentages operands) = some x ∧ term = .percentage x) ∨
    (∃ value ∈ operandTotals operands, term = .dimension value.1 value.2) ∨
    term ∈ others (under .add operands) ∨
    (term = sumExpression operands ∧ ¬ (total? (signedPercentages operands) = none ∧
      operandTotals operands = [] ∧ others (under .add operands) = [] ∧
      others (under .subtract operands) = [])) := by
  -- One case for each combination of parts that is not written as a sum.
  unfold reduceSum at h
  dsimp only at h
  split at h
  · exact .inl ⟨_, (Option.some.inj h).symm⟩
  · next hpercentage _ _ _ => exact .inr (.inl ⟨_, hpercentage, (Option.some.inj h).symm⟩)
  · next value unit _ _ hvalues _ _ =>
    refine .inr (.inr (.inl ⟨(value, unit), ?_, (Option.some.inj h).symm⟩))
    rw [operandTotals, hvalues]
    exact List.mem_singleton_self _
  · cases h
  · next haddends _ =>
    refine .inr (.inr (.inr (.inl ?_)))
    rw [haddends, (Option.some.inj h).symm]
    exact List.mem_singleton_self _
  · -- Only a number is left, or nothing at all.
    next hne =>
    split at h
    · exact .inl ⟨_, (Option.some.inj h).symm⟩
    · exact .inr (.inr (.inr (.inr ⟨(Option.some.inj h).symm,
        fun ⟨h₁, h₂, h₃, h₄⟩ => hne h₁ h₂ h₃ h₄⟩)))
  · next hnumber _ _ _ hne _ =>
    exact .inr (.inr (.inr (.inr ⟨(Option.some.inj h).symm, fun ⟨h₁, h₂, h₃, h₄⟩ =>
      hne (Option.eq_none_iff_forall_ne_some.2 hnumber) h₁ h₂ h₃ h₄⟩)))

/-- A name less another term that is no number stays a difference. -/
theorem reduceSum_difference (name : String) {subtrahend : Term K}
    (h : others [subtrahend] = [subtrahend]) :
    reduceSum [⟨.add, .symbol name⟩, ⟨.subtract, subtrahend⟩] =
      some (.expression (name ++ " - " ++ subtrahend.subtrahendText) .sum) := by
  cases subtrahend with
  | number | percentage | dimension => cases h
  | symbol | expression =>
    simp [reduceSum, signedNumbers, signedPercentages, total?, totals, under, dimensions, others,
      sumText, differenceText, sorted, Term.addendText, Term.text]

end Reduce

/-- A sum of stable terms reduces to a stable term. -/
theorem reduceSum_isStable (hclosed : Expression.IsClosed V P S)
    (hnumber : ∀ x : K, V (Scalar.text x))
    (h : ∀ operand ∈ operands, operand.term.IsStable V P S) :
    ∀ term ∈ reduceSum operands, term.IsStable V P S := by
  -- Terms that are not added up go into the text as they are, the others with a new number.
  have hothers : ∀ operator, ∀ term ∈ others (under operator operands), term.IsStable V P S := by
    intro operator term hterm
    obtain ⟨operand, hoperand, rfl⟩ := exists_of_mem_under (List.mem_filter.1 hterm).1
    exact h operand hoperand
  have hpercentage : total? (signedPercentages operands) ≠ none →
      ∀ x, V (Term.percentage x : Term K).text := by
    intro hsome x
    obtain ⟨operand, hoperand, y, hterm⟩ := exists_percentage hsome
    have hstable := h operand hoperand x
    rwa [hterm] at hstable
  have hdimensions : ∀ value ∈ operandTotals operands, ∀ x : K,
      V (Term.dimension x value.2).text := by
    intro value hvalue x
    obtain ⟨operand, hoperand, y, hterm⟩ := exists_of_mem_operandTotals hvalue
    have hstable := h operand hoperand x
    rwa [hterm] at hstable
  intro term hterm
  rcases reduceSum_cases hterm with ⟨y, rfl⟩ | ⟨y, hy, rfl⟩ | ⟨value, hvalue, rfl⟩ | hother |
    ⟨rfl, hne⟩
  · exact fun x => hnumber x
  · exact fun x => hpercentage (by rw [hy]; exact Option.some_ne_none _) x
  · exact fun x => hdimensions value hvalue x
  · exact hothers _ term hother
  · exact fun x => sumText_isClosed hclosed hne hnumber hpercentage hdimensions
      (fun term hterm => (hothers _ term hterm).isWithin)
      fun term hterm => (hothers _ term hterm).isWithin

end CssColor
