import CssColor.Proofs.Calc.Closure
import CssColor.Proofs.Calc.Soundness

/-!
# What operands are folded to

The ways in which the operands of a product and of a sum are folded, with all that is known of the
operands in each of them (`Reduce.ProductFold`, `Reduce.SumFold`). An operand is found again in the
part of its kind, so that a part without members rules a kind of operands out.
-/

namespace CssColor

variable {K : Type}

/-- Whether a term is a name or a simplified expression. -/
def Term.isSymbolic : Term K → Bool
  | symbol _ => true
  | expression .. => true
  | _ => false

namespace Reduce

/-! ## Names and expressions -/

section Symbolic

variable {terms : List (Term K)} {term : Term K}

/-- Only names and expressions are left besides the numbers and the values with units. -/
theorem isSymbolic_of_mem_others (h : term ∈ others terms) : term.isSymbolic = true := by
  have hkind := (List.mem_filter.1 h).2
  cases term with
  | symbol | expression => rfl
  | number | percentage | dimension => cases hkind

/-- A name or an expression is left as a factor. -/
theorem mem_others (h : term ∈ terms) (hsymbolic : term.isSymbolic = true) :
    term ∈ others terms := by
  refine List.mem_filter.2 ⟨h, ?_⟩
  cases term with
  | symbol | expression => rfl
  | number | percentage | dimension => cases hsymbolic

/-- A name or an expression is left as a divisor. -/
theorem mem_divisors (h : term ∈ terms) (hsymbolic : term.isSymbolic = true) :
    term ∈ divisors terms := by
  refine List.mem_filter.2 ⟨h, ?_⟩
  cases term with
  | symbol | expression => rfl
  | number | percentage | dimension => cases hsymbolic

end Symbolic

variable [Scalar K] {operands : List (Operand K)} {operator : Operator} {term : Term K}

/-! ## Products -/

/-- The product of the numbers among operands, reciprocals for those that divide. -/
def scale (operands : List (Operand K)) : K := Number.product (scaleFactors operands)

/-- Nothing is divided by or multiplied with but numbers and values with a unit. -/
structure IsMeasured (operands : List (Operand K)) : Prop where
  percentages : percentages (under .multiply operands) = []
  factors : others (under .multiply operands) = []
  divisors : divisors (under .divide operands) = []

/-- The ways to fold a product. The scale is folded into at most one other value, and it is only
when the scale is zero or not a number that names and expressions are dropped. -/
inductive ProductFold (operands : List (Operand K)) : Term K → Prop
  | notANumber (hscale : Number.isNaN (scale operands) = true) :
      ProductFold operands (.number Scalar.nan)
  | zero (hscale : (scale operands == 0.0) = true)
      (hmultiplied : dimensions (under .multiply operands) = [])
      (hdivided : dimensions (under .divide operands) = [])
      (hpercentages : percentages (under .multiply operands) = []) :
      ProductFold operands (.number 0.0)
  | zeroPercentage (hscale : (scale operands == 0.0) = true)
      (hmultiplied : dimensions (under .multiply operands) = [])
      (hdivided : dimensions (under .divide operands) = []) :
      ProductFold operands (.percentage 0.0)
  | number (hmeasured : IsMeasured operands)
      (hmultiplied : dimensions (under .multiply operands) = [])
      (hdivided : dimensions (under .divide operands) = []) :
      ProductFold operands (.number (scale operands))
  | percentage (value : K) (hfactors : others (under .multiply operands) = [])
      (hdivisors : divisors (under .divide operands) = []) :
      ProductFold operands (.percentage (value * scale operands))
  | dimension (value : K) (unit : String) (hmeasured : IsMeasured operands)
      (hmultiplied : dimensions (under .multiply operands) = [(value, unit)])
      (hdivided : dimensions (under .divide operands) = []) :
      ProductFold operands (.dimension (value * scale operands) unit)
  | ratio (value divisor : K) (unit : String) (hmeasured : IsMeasured operands)
      (hmultiplied : dimensions (under .multiply operands) = [(value, unit)])
      (hdivided : dimensions (under .divide operands) = [(divisor, unit)])
      (hdivisor : (divisor == 0.0) = false) :
      ProductFold operands (.number (scale operands * value / divisor))
  | expression : ProductFold operands (productExpression operands)

/-- A product is folded in one of these ways. -/
theorem productFold_of_reduceProduct (h : reduceProduct operands = some term) :
    ProductFold operands term := by
  unfold reduceProduct at h
  dsimp only at h
  -- In the order of the definition: no operands, a scale that is not a number, a scale of zero without
  -- units, a name or an expression, and then what is left besides the numbers.
  split at h
  · cases h
  · split at h
    · next hscale =>
      cases h
      exact .notANumber hscale
    · split at h
      · next hzero =>
        rw [Bool.and_eq_true, Bool.and_eq_true, List.isEmpty_iff, List.isEmpty_iff] at hzero
        obtain ⟨⟨hscale, hmultiplied⟩, hdivided⟩ := hzero
        split at h
        · next hpercentages =>
          cases h
          exact .zero hscale hmultiplied hdivided (List.isEmpty_iff.1 hpercentages)
        · cases h
          exact .zeroPercentage hscale hmultiplied hdivided
      · split at h
        · cases h
          exact .expression
        · next hkept =>
          rw [Bool.not_eq_true', Bool.not_eq_false, Bool.and_eq_true, List.isEmpty_iff,
            List.isEmpty_iff] at hkept
          obtain ⟨hfactors, hdivisors⟩ := hkept
          split at h
          · next hpercentages hmultiplied hdivided =>
            cases h
            exact .number ⟨hpercentages, hfactors, hdivisors⟩ hmultiplied hdivided
          · cases h
            exact .percentage _ hfactors hdivisors
          · next hpercentages hmultiplied hdivided =>
            cases h
            exact .dimension _ _ ⟨hpercentages, hfactors, hdivisors⟩ hmultiplied hdivided
          · next value unit divisor other hpercentages hmultiplied hdivided =>
            split at h
            · next hratio =>
              cases h
              rw [Bool.and_eq_true, decide_eq_true_iff] at hratio
              obtain ⟨rfl, hdivisor⟩ := hratio
              exact .ratio _ _ _ ⟨hpercentages, hfactors, hdivisors⟩ hmultiplied hdivided
                (Bool.not_eq_true' _ ▸ hdivisor)
            · cases h
              exact .expression
          · cases h
            exact .expression

omit [Scalar K] in
/-- The operands of such a product are numbers and values with a unit. -/
theorem IsMeasured.eq_number_or_dimension (h : IsMeasured operands)
    (hmem : ⟨operator, term⟩ ∈ operands) (hoperator : operator = .multiply ∨ operator = .divide) :
    (∃ x, term = .number x) ∨ ∃ x unit, term = .dimension x unit := by
  have hunder := mem_under hmem
  -- A name or an expression would be a factor or a divisor.
  have hkept : term.isSymbolic = false := by
    by_contra hsymbolic
    rw [Bool.not_eq_false] at hsymbolic
    rcases hoperator with rfl | rfl
    · exact List.ne_nil_of_mem (mem_others hunder hsymbolic) h.factors
    · exact List.ne_nil_of_mem (mem_divisors hunder hsymbolic) h.divisors
  cases term with
  | number x => exact .inl ⟨x, rfl⟩
  | dimension x unit => exact .inr ⟨x, unit, rfl⟩
  | symbol | expression => cases hkept
  | percentage x =>
    -- A percentage is a part of its own when it is multiplied, and a divisor otherwise.
    rcases hoperator with rfl | rfl
    · have hvalue : x ∈ Reduce.percentages (under .multiply operands) :=
        List.mem_filterMap.2 ⟨_, hunder, rfl⟩
      exact absurd h.percentages (List.ne_nil_of_mem hvalue)
    · have hvalue : .percentage x ∈ Reduce.divisors (under .divide operands) :=
        List.mem_filter.2 ⟨hunder, rfl⟩
      exact absurd h.divisors (List.ne_nil_of_mem hvalue)

/-! ## Sums -/

/-- What the numbers, the percentages and the values with a unit of a sum add up to. -/
structure SumParts (operands : List (Operand K)) (number percentage : Option K)
    (dimensions : List (K × String)) : Prop where
  number : total? (signedNumbers operands) = number
  percentage : total? (signedPercentages operands) = percentage
  dimensions : operandTotals operands = dimensions

/-- No name and no expression is added or subtracted. -/
def NoOthers (operands : List (Operand K)) : Prop :=
  others (under .add operands) = [] ∧ others (under .subtract operands) = []

/-- The ways to fold a sum. It gives a plain value only if all operands are of its kind, or if the
numbers add up to what is not a number. -/
inductive SumFold (operands : List (Operand K)) : Term K → Prop
  | number (value : K) (hparts : SumParts operands (some value) none [])
      (hothers : NoOthers operands) : SumFold operands (.number value)
  | percentage (value : K) (hothers : NoOthers operands) : SumFold operands (.percentage value)
  | dimension (value : K) (unit : String) (hparts : SumParts operands none none [(value, unit)])
      (hothers : NoOthers operands) : SumFold operands (.dimension value unit)
  | addend (addend : Term K) (haddend : addend.isSymbolic = true) : SumFold operands addend
  | notANumber (value : K) (hvalue : total? (signedNumbers operands) = some value)
      (hnan : Number.isNaN value = true) : SumFold operands (.number Scalar.nan)
  | expression : SumFold operands (sumExpression operands)

/-- A sum is folded in one of these ways. -/
theorem sumFold_of_reduceSum (h : reduceSum operands = some term) : SumFold operands term := by
  unfold reduceSum at h
  dsimp only at h
  -- A value of one kind alone, then nothing at all, one name alone, and a mixture.
  split at h
  · next hnumber hpercentage hdimensions haddends hsubtrahends =>
    cases h
    exact .number _ ⟨hnumber, hpercentage, hdimensions⟩ ⟨haddends, hsubtrahends⟩
  · next haddends hsubtrahends =>
    cases h
    exact .percentage _ ⟨haddends, hsubtrahends⟩
  · next hnumber hpercentage hdimensions haddends hsubtrahends =>
    cases h
    exact .dimension _ _ ⟨hnumber, hpercentage, hdimensions⟩ ⟨haddends, hsubtrahends⟩
  · cases h
  · next addend _ _ _ haddends _ =>
    have haddend : addend ∈ others (under .add operands) := by
      rw [haddends]
      exact List.mem_singleton_self _
    cases h
    exact .addend _ (isSymbolic_of_mem_others haddend)
  · next hnumber _ =>
    split at h
    · next hnan =>
      cases h
      exact .notANumber _ hnumber hnan
    · cases h
      exact .expression
  · cases h
    exact .expression

section Totals

variable {value : K} {unit : String}

/-- A value is added to a total of its unit, and the other units keep theirs. -/
theorem exists_mem_addDimension (totals : List (K × String)) {known : String}
    (h : known = unit ∨ ∃ total ∈ totals, total.2 = known) :
    ∃ total ∈ addDimension value unit totals, total.2 = known := by
  induction totals with
  | nil =>
    rcases h with rfl | ⟨total, htotal, -⟩
    · exact ⟨_, List.mem_cons_self, rfl⟩
    · cases htotal
  | cons head rest ih =>
    rw [addDimension]
    split
    · -- The total of the head is the one that is added to.
      next hhead =>
      rcases h with rfl | ⟨total, htotal, rfl⟩
      · exact ⟨_, List.mem_cons_self, hhead⟩
      · rcases List.mem_cons.1 htotal with rfl | htotal
        · exact ⟨_, List.mem_cons_self, rfl⟩
        · exact ⟨total, List.mem_cons_of_mem _ htotal, rfl⟩
    · -- The head stays, so the unit is found in it or further back.
      rcases h with rfl | ⟨total, htotal, rfl⟩
      · obtain ⟨total, htotal, hunit⟩ := ih (.inl rfl)
        exact ⟨total, List.mem_cons_of_mem _ htotal, hunit⟩
      · rcases List.mem_cons.1 htotal with rfl | htotal
        · exact ⟨_, List.mem_cons_self, rfl⟩
        · obtain ⟨other, hother, hunit⟩ := ih (.inr ⟨total, htotal, rfl⟩)
          exact ⟨other, List.mem_cons_of_mem _ hother, hunit⟩

/-- Each unit has a total. -/
theorem exists_mem_totals {added subtracted : List (K × String)} {value : K × String}
    (h : value ∈ added ++ subtracted) : ∃ total ∈ totals added subtracted, total.2 = value.2 := by
  have hfold : ∀ (values start : List (K × String)) (known : String),
      ((∃ other ∈ values, other.2 = known) ∨ ∃ total ∈ start, total.2 = known) →
      ∃ total ∈ values.foldl (fun totals value => addDimension value.1 value.2 totals) start,
        total.2 = known := by
    -- A unit that has a total keeps it while further values are added.
    intro values
    induction values with
    | nil =>
      intro start known h
      rcases h with ⟨other, hother, -⟩ | hstart
      · cases hother
      · exact hstart
    | cons head rest ih =>
      intro start known h
      refine ih _ known ?_
      rcases h with ⟨other, hother, hunit⟩ | hstart
      · rcases List.mem_cons.1 hother with rfl | hother
        · exact .inr (exists_mem_addDimension start (.inl hunit.symm))
        · exact .inl ⟨other, hother, hunit⟩
      · exact .inr (exists_mem_addDimension start (.inr hstart))
  have hsigned : ∃ other ∈ added ++ subtracted.map fun value => (-value.1, value.2),
      other.2 = value.2 := by
    rcases List.mem_append.1 h with h | h
    · exact ⟨value, List.mem_append_left _ h, rfl⟩
    · exact ⟨_, List.mem_append_right _ (List.mem_map_of_mem h), rfl⟩
  obtain ⟨total, htotal, hunit⟩ := hfold _ [] value.2 (.inl hsigned)
  exact ⟨total, List.mem_mergeSort.2 htotal, hunit⟩

end Totals

section Operands

variable (hoperator : operator = .add ∨ operator = .subtract)

include hoperator

/-- The numbers have a sum if there is one among the operands. -/
theorem total?_signedNumbers_ne_none {x : K} (h : ⟨operator, .number x⟩ ∈ operands) :
    total? (signedNumbers operands) ≠ none := by
  rcases hoperator with rfl | rfl <;>
    exact total?_ne_none (List.mem_filterMap.2 ⟨_, h, rfl⟩)

/-- The percentages have a sum if there is one among the operands. -/
theorem total?_signedPercentages_ne_none {x : K} (h : ⟨operator, .percentage x⟩ ∈ operands) :
    total? (signedPercentages operands) ≠ none := by
  rcases hoperator with rfl | rfl <;>
    exact total?_ne_none (List.mem_filterMap.2 ⟨_, h, rfl⟩)

/-- The values of a unit have a total if there is one among the operands. -/
theorem exists_mem_operandTotals {x : K} {unit : String}
    (h : ⟨operator, .dimension x unit⟩ ∈ operands) :
    ∃ total ∈ operandTotals operands, total.2 = unit := by
  have hvalue : (x, unit) ∈ dimensions (under operator operands) :=
    List.mem_filterMap.2 ⟨_, mem_under h, rfl⟩
  have hall : (x, unit) ∈
      dimensions (under .add operands) ++ dimensions (under .subtract operands) := by
    rcases hoperator with rfl | rfl
    · exact List.mem_append_left _ hvalue
    · exact List.mem_append_right _ hvalue
  exact exists_mem_totals hall

omit [Scalar K] in
/-- If nothing is left besides the numbers, no operand is a name or an expression. -/
theorem NoOthers.isSymbolic_eq_false (hothers : NoOthers operands)
    (h : ⟨operator, term⟩ ∈ operands) : term.isSymbolic = false := by
  by_contra hsymbolic
  have hother := mem_others (mem_under h) (Bool.not_eq_false _ ▸ hsymbolic)
  rcases hoperator with rfl | rfl
  · exact List.ne_nil_of_mem hother hothers.1
  · exact List.ne_nil_of_mem hother hothers.2

end Operands

end Reduce

end CssColor
