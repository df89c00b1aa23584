import CssColor.Proofs.Calc.Leaves
import CssColor.Proofs.Calc.Locality
import CssColor.Proofs.Calc.Totals
import Mathlib.Algebra.BigOperators.Ring.List

/-!
# Values of reduced sums

The term that the operands of a sum reduce to has the value of the sum (`exists_reduceSum_eq`). The
values of one unit are folded exactly, and what is folded is written on the one or the other side of
the sum by its sign (`Reduce.IsDifference`). The text of the sum is read in a call of `calc()` where
its numbers are written in full and the texts of its expressions stand alone.
-/

namespace CssColor

open Token Expression Extended

variable {σ : Assignment} {q q' : ℚ} {operands : List (Operand Extended)} {text : String}
  {term : Term Extended}

namespace Reduce

/-! ## The two sides of a sum -/

/-- The texts are those of sums that are added, and of values that are subtracted. Together they
have the value `q`. -/
def IsDifference (σ : Assignment) (q : ℚ) (positive negative : List String) : Prop :=
  ∃ added subtracted : List (ℚ × String),
    positive = added.map Prod.snd ∧ negative = subtracted.map Prod.snd ∧
    (∀ part ∈ added, IsSumOf σ part.1 part.2) ∧
    (∀ part ∈ subtracted, IsValueOf σ part.1 part.2) ∧
    (added.map Prod.fst).sum - (subtracted.map Prod.fst).sum = q

section Sides

variable {positive negative positive' negative' : List String}

/-- Nothing at all has the value zero. -/
theorem isDifference_nil : IsDifference σ 0 [] [] :=
  ⟨[], [], rfl, rfl, List.forall_mem_nil _, List.forall_mem_nil _, sub_self _⟩

/-- A single text that is added. -/
theorem isDifference_added (h : IsSumOf σ q text) : IsDifference σ q [text] [] := by
  refine ⟨[(q, text)], [], rfl, rfl, List.forall_mem_singleton.2 h, List.forall_mem_nil _, ?_⟩
  rw [List.map_singleton, List.sum_singleton]
  exact sub_zero q

/-- A single text that is subtracted. -/
theorem isDifference_subtracted (h : IsValueOf σ q text) : IsDifference σ (-q) [] [text] := by
  refine ⟨[], [(q, text)], rfl, rfl, List.forall_mem_nil _, List.forall_mem_singleton.2 h, ?_⟩
  rw [List.map_singleton, List.sum_singleton]
  exact zero_sub q

/-- What is added and what is subtracted in two parts of a sum. -/
theorem IsDifference.append (h : IsDifference σ q positive negative)
    (h' : IsDifference σ q' positive' negative') :
    IsDifference σ (q + q') (positive ++ positive') (negative ++ negative') := by
  obtain ⟨added, subtracted, rfl, rfl, hadded, hsubtracted, rfl⟩ := h
  obtain ⟨added', subtracted', rfl, rfl, hadded', hsubtracted', rfl⟩ := h'
  refine ⟨added ++ added', subtracted ++ subtracted', List.map_append.symm, List.map_append.symm,
    List.forall_mem_append.2 ⟨hadded, hadded'⟩,
    List.forall_mem_append.2 ⟨hsubtracted, hsubtracted'⟩, ?_⟩
  rw [List.map_append, List.map_append, List.sum_append, List.sum_append]
  ring

/-- The sides of a list of parts. -/
theorem isDifference_flatMap {α : Type} (value : α → ℚ) (part : α → List String × List String)
    {as : List α} (h : ∀ a ∈ as, IsDifference σ (value a) (part a).1 (part a).2) :
    IsDifference σ (as.map value).sum ((as.map part).flatMap (·.1))
      ((as.map part).flatMap (·.2)) := by
  induction as with
  | nil => exact isDifference_nil
  | cons a rest ih =>
    obtain ⟨ha, hrest⟩ := List.forall_mem_cons.1 h
    rw [List.map_cons, List.sum_cons]
    exact ha.append (ih hrest)

/-- What is subtracted is a value: a single text, or a sum in parentheses. -/
theorem isValueOf_groupText {parts : List (ℚ × String)}
    (h : ∀ part ∈ parts, IsValueOf σ part.1 part.2) (hne : parts ≠ []) :
    IsValueOf σ (parts.map Prod.fst).sum (groupText (parts.map Prod.snd)) := by
  cases parts with
  | nil => exact absurd rfl hne
  | cons part rest =>
    cases rest with
    | nil =>
      rw [List.map_singleton, List.sum_singleton]
      exact h part List.mem_cons_self
    | cons other rest =>
      exact (isSumOf_intercalate (fun part hpart => (h part hpart).product.sum) hne).paren

/-- The text of a difference has the value of its two sides. -/
theorem IsDifference.differenceText (h : IsDifference σ q positive negative)
    (hne : ¬ (positive = [] ∧ negative = [])) : IsSumOf σ q (differenceText positive negative) := by
  obtain ⟨added, subtracted, rfl, rfl, hadded, hsubtracted, rfl⟩ := h
  -- Nothing is subtracted, so something is added.
  rcases eq_or_ne subtracted [] with rfl | hsome
  · have hadded' : added ≠ [] := by
      rintro rfl
      exact hne ⟨rfl, rfl⟩
    have hsum := isSumOf_intercalate hadded hadded'
    rwa [List.map_nil, List.sum_nil, sub_zero]
  have hgroup := isValueOf_groupText hsubtracted hsome
  rw [differenceText_eq (by rwa [Ne, List.map_eq_nil_iff])]
  -- Without anything to subtract from, minus one is the first factor.
  split
  · next hnil =>
    rw [List.map_eq_nil_iff.1 hnil, List.map_nil, List.sum_nil, zero_sub, neg_eq_neg_one_mul]
    exact (isValueOf_minusOne.product.times hgroup.product).sum
  · next hadded' =>
    exact (isSumOf_intercalate hadded (by rwa [Ne, ← List.map_eq_nil_iff])).minus hgroup.product

end Sides

/-! ## Folded values -/

/-- A number can be printed exactly if its negation can. -/
theorem isPrintable_neg {a : ℚ} (h : IsPrintable a) : IsPrintable (-a) := by
  rwa [IsPrintable, abs_neg]

/-- A value with its sign turned stands on the other side. -/
theorem isDifference_signedText {write : Extended → Term Extended} {scale : ℚ}
    (hwrite : ∀ a, IsPrintable a → IsValueOf σ (a * scale) (write (rational a)).text)
    {x : Extended} (hx : x.IsRational) (h : IsPrintable x.toRat) :
    IsDifference σ (x.toRat * scale) (signedText write x).1 (signedText write x).2 := by
  unfold signedText
  split
  · have hneg := hwrite _ (isPrintable_neg h)
    have hvalue := isDifference_subtracted hneg
    rw [neg_mul, neg_neg] at hvalue
    rw [hx]
    exact hvalue
  · have hvalue := hwrite _ h
    rw [← hx] at hvalue
    exact isDifference_added hvalue.product.sum

/-- Adding numbers up keeps their total, and leaves a rational if there is any. -/
theorem numberTotal_total? {values : List Extended} (h : ∀ x ∈ values, x.IsRational) :
    numberTotal (total? values).toList = numberTotal values ∧
      ∀ x ∈ total? values, x.IsRational := by
  unfold total?
  split
  · next hnil =>
    rw [List.isEmpty_iff.1 hnil]
    exact ⟨rfl, fun _ h => nomatch h⟩
  · rw [sum_rational h]
    refine ⟨numberTotal_cons _ _ |>.trans (add_zero _), fun x hx => ?_⟩
    rw [← Option.some.inj hx]
    rfl

/-- Zero makes no difference. -/
theorem numberTotal_filter {number : Option Extended} (h : ∀ x ∈ number, x.IsRational) :
    numberTotal (number.filter (· != 0.0)).toList = numberTotal number.toList := by
  cases number with
  | none => rfl
  | some x =>
    have hx : x = rational x.toRat := h x rfl
    rw [Option.filter_some]
    split
    · rfl
    · next hzero =>
      rw [hx, zero_eq, bne, Bool.not_eq_true, Bool.not_eq_false', rational_beq_iff] at hzero
      rw [Option.toList_none, Option.toList_some, numberTotal_cons, hzero, zero_add]

/-- A value that is read back from its text. -/
def IsPrinted (x : Extended) : Prop := x.IsRational ∧ IsPrintable x.toRat

section Folded

variable {number percentage : Option Extended} {dimensions : List (Extended × String)}

/-- The texts of the numbers, of the percentages and of the values with units have their totals. -/
theorem isDifference_foldedParts (hnumber : ∀ x ∈ number, IsPrinted x)
    (hpercentage : ∀ x ∈ percentage, IsPrinted x)
    (hdimensions : ∀ value ∈ dimensions, IsPrinted value.1)
    (hunits : ∀ value ∈ dimensions, IsUnit value.2 = true) :
    IsDifference σ
      (numberTotal number.toList + numberTotal percentage.toList * σ.percent
        + unitTotal σ dimensions)
      ((foldedParts number percentage dimensions).flatMap (·.1))
      ((foldedParts number percentage dimensions).flatMap (·.2)) := by
  -- A number that is zero is left out, and adds nothing to the total.
  have hnumbers : ∀ x ∈ (number.filter (· != 0.0)).toList,
      IsDifference σ x.toRat (signedText .number x).1 (signedText .number x).2 := by
    intro x hx
    obtain ⟨hrational, hprintable⟩ := hnumber x (Option.mem_filter_iff.1 (Option.mem_toList.1 hx)).1
    have hvalue : IsDifference σ (x.toRat * 1) (signedText .number x).1
        (signedText .number x).2 := by
      refine isDifference_signedText (fun a ha => ?_) hrational hprintable
      rw [mul_one]
      exact isValueOf_number ha
    rwa [mul_one] at hvalue
  have hpercentages : ∀ x ∈ percentage.toList,
      IsDifference σ (x.toRat * σ.percent) (signedText .percentage x).1
        (signedText .percentage x).2 := by
    intro x hx
    obtain ⟨hrational, hprintable⟩ := hpercentage x (Option.mem_toList.1 hx)
    exact isDifference_signedText (fun a => isValueOf_percentage) hrational hprintable
  have hdimensions : ∀ value ∈ dimensions, IsDifference σ
      (value.1.toRat * σ.unit value.2.toLower) (signedText (.dimension · value.2) value.1).1
      (signedText (.dimension · value.2) value.1).2 := by
    -- The unit is one that can be written behind a number.
    intro value hvalue
    obtain ⟨hrational, hprintable⟩ := hdimensions value hvalue
    exact isDifference_signedText (fun a => isValueOf_dimension (hunits value hvalue)) hrational
      hprintable
  have hall := ((isDifference_flatMap _ _ hnumbers).append
    (isDifference_flatMap _ _ hpercentages)).append (isDifference_flatMap _ _ hdimensions)
  unfold foldedParts
  rw [Option.toList_map, Option.toList_map, List.flatMap_append, List.flatMap_append,
    List.flatMap_append, List.flatMap_append,
    ← numberTotal_filter fun x hx => (hnumber x hx).1, numberTotal, numberTotal,
    ← List.sum_map_mul_right]
  exact hall

end Folded

/-! ## Other terms -/

/-- Sorting keeps the total. -/
theorem termTotal_sorted (terms : List (Term Extended)) :
    termTotal σ (sorted terms) = termTotal σ terms :=
  ((perm_sorted terms).map _).sum_eq

/-- The sides of the terms that are not folded. -/
theorem isDifference_others {addends subtrahends : List (Term Extended)}
    (haddends : ∀ term ∈ addends, IsSumOf σ (σ.valueOf term) term.addendText)
    (hsubtrahends : ∀ term ∈ subtrahends, IsValueOf σ (σ.valueOf term) term.subtrahendText) :
    IsDifference σ (termTotal σ addends - termTotal σ subtrahends)
      ((sorted addends).map Term.addendText) ((sorted subtrahends).map Term.subtrahendText) := by
  -- Each side is listed in the order in which it is written.
  refine ⟨(sorted addends).map fun term => (σ.valueOf term, term.addendText),
    (sorted subtrahends).map fun term => (σ.valueOf term, term.subtrahendText), ?_, ?_, ?_, ?_, ?_⟩
  · rw [List.map_map]
    rfl
  · rw [List.map_map]
    rfl
  · exact List.forall_mem_map.2 fun term hterm => haddends term (List.mem_mergeSort.1 hterm)
  · exact List.forall_mem_map.2 fun term hterm => hsubtrahends term (List.mem_mergeSort.1 hterm)
  · rw [List.map_map, List.map_map, ← termTotal_sorted addends, ← termTotal_sorted subtrahends]
    rfl

end Reduce

/-- What is read of the text of a term, in front of a blank or of a closing parenthesis, is the
term. -/
def Term.IsReadable : Term Extended → Prop
  | .dimension _ unit => IsUnit unit = true
  | .symbol name => IsWord name = true
  | .expression text _ => StandsAlone Extended text
  | _ => True

/-! ## Values of single terms -/

section Leaves

variable {x : Extended} (h : x.IsRational)

include h

/-- The value of a rational number. -/
theorem Term.value?_number : (Term.number x).value? σ = some x.toRat := by
  rw [h]
  rfl

/-- The value of a rational percentage. -/
theorem Term.value?_percentage : (Term.percentage x).value? σ = some (x.toRat * σ.percent) := by
  rw [h]
  rfl

/-- The value of a rational with a unit. -/
theorem Term.value?_dimension {unit : String} :
    (Term.dimension x unit).value? σ = some (x.toRat * σ.unit unit.toLower) := by
  rw [h]
  rfl

end Leaves

open Reduce

section Others

variable {terms : List (Term Extended)}

/-- A text that stands alone is read as a sum of the value that it has in a call. -/
theorem isSumOf_expression {kind : ExpressionKind} (halone : StandsAlone Extended text)
    (h : (Term.expression text kind).value? σ = some q) : IsSumOf σ q text := by
  obtain ⟨tree, htree, -⟩ := Option.bind_eq_some_iff.1 h
  obtain ⟨first, operands, hreads, -⟩ := exists_readsAsSum halone htree
  exact Term.isSumOf_of_value? hreads h

/-- The text that is subtracted for a term has the value of the term. -/
theorem isValueOf_subtrahendText (hother : term ∈ others terms) (hreadable : term.IsReadable)
    (h : (term.value? σ).isSome = true) : IsValueOf σ (σ.valueOf term) term.subtrahendText := by
  have hq := Assignment.value?_eq_valueOf h
  cases term with
  | symbol name => exact isValueOf_symbol hreadable hq
  | expression text kind => exact (isSumOf_expression hreadable hq).paren
  | _ => cases (List.mem_filter.1 hother).2

/-- The text that is added for a term has the value of the term. -/
theorem isSumOf_addendText (hother : term ∈ others terms) (hreadable : term.IsReadable)
    (h : (term.value? σ).isSome = true) : IsSumOf σ (σ.valueOf term) term.addendText := by
  have hq := Assignment.value?_eq_valueOf h
  cases term with
  | symbol name => exact (isValueOf_symbol hreadable hq).product.sum
  | expression text kind =>
    have hsum := isSumOf_expression hreadable hq
    cases kind with
    | sum => exact hsum
    | product => exact hsum.paren.product.sum
  | _ => cases (List.mem_filter.1 hother).2

end Others

/-! ## Sums -/

variable (operands) in
/-- The numbers that are printed in the expression that a sum gives. -/
def sumNumbers : List Extended :=
  (total? (signedNumbers operands)).toList ++ (total? (signedPercentages operands)).toList
    ++ (operandTotals operands).map Prod.fst

section Sums

variable (hvalue : Operator.sum? (σ.operandValues operands) = some q)

include hvalue

/-- The value of a sum is put together from the rationals that its operands are folded into, and
from the values of the others. -/
theorem eq_folded_of_sum? :
    q = numberTotal (total? (signedNumbers operands)).toList
      + numberTotal (total? (signedPercentages operands)).toList * σ.percent
      + unitTotal σ (operandTotals operands)
      + (termTotal σ (others (under .add operands))
        - termTotal σ (others (under .subtract operands))) ∧
    (∀ x ∈ total? (signedNumbers operands), x.IsRational) ∧
    (∀ x ∈ total? (signedPercentages operands), x.IsRational) ∧
    ∀ total ∈ operandTotals operands, total.1.IsRational := by
  have hsome := isSome_of_sum? hvalue
  -- The totals of the numbers keep the sums of their parts.
  obtain ⟨hnumber, hnumbers⟩ := numberTotal_total? (isRational_of_mem_signedNumbers hsome)
  obtain ⟨hpercentage, hpercentages⟩ :=
    numberTotal_total? (isRational_of_mem_signedPercentages hsome)
  have hadded : ∀ value ∈ dimensions (under .add operands), value.1.IsRational :=
    isRational_of_mem_dimensions hsome
  have hsubtracted : ∀ value ∈ dimensions (under .subtract operands), value.1.IsRational :=
    isRational_of_mem_dimensions hsome
  obtain ⟨hdimension, hdimensions⟩ := unitTotal_totals (σ := σ) hadded hsubtracted
  refine ⟨?_, hnumbers, hpercentages, hdimensions⟩
  rw [hnumber, hpercentage, operandTotals, hdimension]
  exact eq_totals_of_sum? hvalue

variable (hreadable : ∀ operand ∈ operands, operand.term.IsReadable)

include hreadable

/-- The text of a sum has the value of the sum. -/
theorem isSumOf_sumText (hprintable : ∀ x ∈ sumNumbers operands, IsPrintable x.toRat)
    (hne : ¬ (total? (signedPercentages operands) = none ∧ operandTotals operands = [] ∧
      others (under .add operands) = [] ∧ others (under .subtract operands) = [])) :
    IsSumOf σ q (sumText (total? (signedNumbers operands)) (total? (signedPercentages operands))
      (operandTotals operands) (others (under .add operands))
      (others (under .subtract operands))) := by
  obtain ⟨hq, hnumbers, hpercentages, hdimensions⟩ := eq_folded_of_sum? hvalue
  -- Each folded number is a rational that is printed exactly.
  have hnumber : ∀ x ∈ total? (signedNumbers operands), IsPrinted x := fun x hx =>
    ⟨hnumbers x hx, hprintable x
      (List.mem_append_left _ (List.mem_append_left _ (Option.mem_toList.2 hx)))⟩
  have hpercentage : ∀ x ∈ total? (signedPercentages operands), IsPrinted x := fun x hx =>
    ⟨hpercentages x hx, hprintable x
      (List.mem_append_left _ (List.mem_append_right _ (Option.mem_toList.2 hx)))⟩
  have hdimension : ∀ total ∈ operandTotals operands, IsPrinted total.1 := fun total htotal =>
    ⟨hdimensions total htotal, hprintable total.1
      (List.mem_append_right _ (List.mem_map_of_mem htotal))⟩
  have hunits : ∀ total ∈ operandTotals operands, IsUnit total.2 = true := by
    intro total htotal
    obtain ⟨operand, hoperand, x, hterm⟩ := exists_of_mem_operandTotals htotal
    have hunit := hreadable operand hoperand
    rwa [hterm] at hunit
  have hfolded := isDifference_foldedParts (σ := σ) hnumber hpercentage hdimension hunits
  -- The other terms have values, and their texts have the same ones.
  have hothers : ∀ operator, ∀ term ∈ others (under operator operands),
      term.IsReadable ∧ (term.value? σ).isSome = true := by
    intro operator term hterm
    obtain ⟨operand, hoperand, rfl⟩ := exists_of_mem_under (List.mem_filter.1 hterm).1
    exact ⟨hreadable operand hoperand, isSome_of_sum? hvalue operand hoperand⟩
  have hunfolded := isDifference_others
    (fun term hterm =>
      isSumOf_addendText hterm (hothers .add term hterm).1 (hothers .add term hterm).2)
    fun term hterm =>
      isValueOf_subtrahendText hterm (hothers .subtract term hterm).1 (hothers .subtract term hterm).2
  have hall := (hfolded.append hunfolded).differenceText fun hnil => hne (eq_nil_of_sides_eq_nil hnil)
  rwa [← hq] at hall

/-- The term that a sum reduces to has the value of the sum. -/
theorem value?_of_reduceSum (h : reduceSum operands = some term)
    (hprintable : term.isToken = false → ∀ x ∈ sumNumbers operands, IsPrintable x.toRat)
    (hshallow : term.IsShallow) : term.value? σ = some q := by
  obtain ⟨hq, hnumbers, hpercentages, hdimensions⟩ := eq_folded_of_sum? hvalue
  -- A sum that is written as an expression has the value of its text.
  have hexpression : some (sumExpression operands) = some term →
      ¬ (total? (signedPercentages operands) = none ∧ operandTotals operands = [] ∧
        others (under .add operands) = [] ∧ others (under .subtract operands) = []) →
      term.value? σ = some q := by
    rintro ⟨⟩ hne
    exact Term.value?_of_isSumOf (isSumOf_sumText hvalue hreadable (hprintable rfl) hne) hshallow
  unfold reduceSum at h
  dsimp only at h
  rw [operandTotals] at hq
  split at h
  · -- Only one part is left, and the totals of the others are zero.
    next x hnumber hpercentage htotals haddends hsubtrahends =>
    cases h
    rw [Term.value?_number (hnumbers x hnumber), hq, hnumber, hpercentage, htotals, haddends,
      hsubtrahends]
    simp [numberTotal, unitTotal, termTotal]
  · next x hnumber hpercentage htotals haddends hsubtrahends =>
    cases h
    rw [Term.value?_percentage (hpercentages x hpercentage), hq, hnumber, hpercentage, htotals,
      haddends, hsubtrahends]
    simp [numberTotal, unitTotal, termTotal]
  · next x unit hnumber hpercentage htotals haddends hsubtrahends =>
    cases h
    have hx : x.IsRational := by
      refine hdimensions (x, unit) ?_
      rw [operandTotals, htotals]
      exact List.mem_singleton_self _
    rw [Term.value?_dimension hx, hq, hnumber, hpercentage, htotals, haddends, hsubtrahends]
    simp [numberTotal, unitTotal, termTotal]
  · cases h
  · -- A lone term is left as it is.
    next addend hnumber hpercentage htotals haddends hsubtrahends =>
    cases h
    have hmem : term ∈ others (under .add operands) := by
      rw [haddends]
      exact List.mem_singleton_self _
    obtain ⟨operand, hoperand, rfl⟩ := exists_of_mem_under (List.mem_filter.1 hmem).1
    rw [Assignment.value?_eq_valueOf (isSome_of_sum? hvalue operand hoperand), hq, hnumber, hpercentage,
      htotals, haddends, hsubtrahends]
    simp [numberTotal, unitTotal, termTotal]
  · next x hnumber hne =>
    have hx : x = rational x.toRat := hnumbers x hnumber
    rw [hx, isNaN_rational, if_neg Bool.false_ne_true] at h
    refine hexpression h ?_
    rintro ⟨hpercentage, htotals, haddends, hsubtrahends⟩
    exact hne hpercentage htotals haddends hsubtrahends
  · next hnumber _ _ _ hne _ =>
    refine hexpression h ?_
    rintro ⟨hpercentage, htotals, haddends, hsubtrahends⟩
    exact hne (Option.eq_none_iff_forall_ne_some.2 hnumber) hpercentage htotals haddends hsubtrahends

end Sums

/-- Operands that are added and subtracted reduce to a term. Where the numbers that it prints are
written in full and it is not nested too deeply to be read, the term has the value of the sum under
every assignment under which the operands have values. -/
theorem exists_reduceSum_eq (hne : operands ≠ [])
    (hoperators : ∀ operand ∈ operands, operand.operator = .add ∨ operand.operator = .subtract)
    (hreadable : ∀ operand ∈ operands, operand.term.IsReadable) :
    ∃ term, reduceSum operands = some term ∧
      ((term.isToken = false → ∀ x ∈ sumNumbers operands, IsPrintable x.toRat) →
        term.IsShallow → ∀ (σ : Assignment) (q : ℚ),
          Operator.sum? (σ.operandValues operands) = some q → term.value? σ = some q) := by
  obtain ⟨operand, hoperand⟩ := List.exists_mem_of_ne_nil operands hne
  obtain ⟨term, hterm⟩ :=
    Option.isSome_iff_exists.1 (reduceSum_isSome hoperand (hoperators operand hoperand))
  exact ⟨term, hterm, fun hprintable hshallow σ q hvalue =>
    value?_of_reduceSum hvalue hreadable hterm hprintable hshallow⟩

/-- Parts that are added and subtracted, and a product that is put in parentheses. -/
theorem exists_reduceSum_eq_mixed :
    let operands : List (Operand Extended) := [⟨.add, .number (rational 3)⟩,
      ⟨.subtract, .dimension (rational 2) "px"⟩, ⟨.add, .symbol "x"⟩,
      ⟨.subtract, .expression "a * b" .product⟩]
    reduceSum operands = some (.expression "3 + x - (2px + (a * b))" .sum) ∧
      (Term.expression "3 + x - (2px + (a * b))" .sum).value?
        ⟨fun name => if name = "a" then 2 else 5, fun _ => 7, 1⟩ = some (-16) := by
  intro operands
  have hreduce : reduceSum operands = some (.expression "3 + x - (2px + (a * b))" .sum) := by
    decide +kernel
  have hnumbers : sumNumbers operands = [rational 3, rational (-2)] := by decide +kernel
  -- The product of names is readable, since it can be written between any other tokens.
  have halone : StandsAlone Extended "a * b" := by
    have htimes : Spells (K := Extended) (IsSolid · = true) " * " _ :=
      spells_operator rfl rfl fun _ => rfl
    have hname : ∀ name, IsWord name = true → Forms (K := Extended) name [ident name] :=
      fun _ => forms_word
    exact ((hname "a" rfl).separated htimes (fun _ => rfl) (hname "b" rfl)).standsAlone (by simp)
  have hreadable : ∀ operand ∈ operands, operand.term.IsReadable := by
    refine List.forall_mem_cons.2 ⟨trivial, List.forall_mem_cons.2 ⟨?_, List.forall_mem_cons.2
      ⟨?_, List.forall_mem_singleton.2 halone⟩⟩⟩
    · exact (rfl : IsUnit "px" = true)
    · exact (rfl : IsWord "x" = true)
  have hne : operands ≠ [] := List.cons_ne_nil _ _
  obtain ⟨term, hterm, hvalue⟩ := exists_reduceSum_eq hne (by decide) hreadable
  rw [hreduce] at hterm
  cases hterm
  have hshallow : nesting (scan "calc(3 + x - (2px + (a * b)))".toList : List (Token Extended)) ≤
      maxBlockDepth := by decide +kernel
  refine ⟨hreduce, hvalue (fun _ => ?_) hshallow _ _ (by decide +kernel)⟩
  rw [hnumbers]
  refine List.forall_mem_cons.2 ⟨⟨3, 0, by norm_num, by norm_num, ?_⟩,
    List.forall_mem_singleton.2 ⟨2, 0, by norm_num, by norm_num, ?_⟩⟩
  · norm_num [toRat, rational?]
  · norm_num [toRat, rational?]

/-- A text of a name in parentheses. -/
def nestedName (levels : ℕ) : String :=
  String.ofList (List.replicate levels '(' ++ 'a' :: List.replicate levels ')')

/-- An escape at the end of a text takes in the blank behind it, and a text that can be read may be
nested too deeply in parentheses. -/
theorem value?_reduceSum_ne :
    let ones : Assignment := ⟨fun _ => 1, fun _ => 1, 1⟩
    (let operands : List (Operand Extended) :=
        [⟨.add, .expression "\\61" .sum⟩, ⟨.subtract, .symbol "b"⟩]
     Operator.sum? (ones.operandValues operands) = some 0 ∧ sumNumbers operands = [] ∧
        reduceSum operands = some (.expression "\\61 - b" .sum) ∧
        (Term.expression "\\61 - b" .sum).value? ones = none) ∧
    (let operands : List (Operand Extended) := [⟨.subtract, .expression (nestedName 63) .sum⟩]
     Operator.sum? (ones.operandValues operands) = some (-1) ∧ sumNumbers operands = [] ∧
        reduceSum operands = some (.expression ("-1 * (" ++ nestedName 63 ++ ")") .sum) ∧
        (Term.expression ("-1 * (" ++ nestedName 63 ++ ")") .sum).value? ones = none) := by
  intro ones
  -- In the first operand the escape takes the blank behind it, and so the sign has none in front.
  refine ⟨by decide +kernel, ?_, by decide +kernel, by decide +kernel, ?_⟩
  · show Operator.sum? [(.subtract, (Term.expression (nestedName 63) .sum).value? ones)] = _
    have hname : (Term.expression (nestedName 63) .sum).value? ones = some 1 := by
      unfold Term.value? Expression.ofText? nestedName
      simp only [String.toList_append, String.toList_ofList]
      decide +kernel
    rw [hname]
    decide +kernel
  · -- The parentheses around the sum are one level too many.
    unfold Term.value? Expression.ofText? nestedName
    simp only [String.toList_append, String.toList_ofList]
    decide +kernel

end CssColor
