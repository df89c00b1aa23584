import CssColor.Calc.Grammar
import Mathlib.Tactic.Common

/-!
# Expressions that have a value

An expression is sound (`Expression.IsSound`) if it names nothing but given names and constants, and
has a value wherever no name is bound. Leaves are, and so are sums and products of sound operands
that start in the way that the grammar reads them: a sum only misses a value if it has no operand,
and so does a product.
-/

namespace CssColor

variable {K : Type} [Scalar K]

/-! ## Values of operands -/

/-- A product of one operand at least has a term. -/
theorem reduceProduct_isSome {operands : List (Operand K)} (h : operands ≠ []) :
    (reduceProduct operands).isSome = true := by
  have hnonempty : operands.isEmpty = false := by
    rw [List.isEmpty_eq_false_iff]
    exact h
  -- Only an empty product has no term, as each branch shows.
  unfold reduceProduct
  rw [hnonempty, if_neg Bool.false_ne_true]
  dsimp only
  split
  · rfl
  · split
    · rfl
    · split
      · rfl
      · split
        · rfl
        · rfl
        · rfl
        · split <;> rfl
        · rfl

namespace Reduce

variable {operands : List (Operand K)} {operator : Operator} {term : Term K}

omit [Scalar K] in
/-- The term of an operand is among those under its sign. -/
theorem mem_under (h : ⟨operator, term⟩ ∈ operands) : term ∈ under operator operands :=
  List.mem_filterMap.2 ⟨_, h, if_pos rfl⟩

/-- Adding a value leaves a total. -/
theorem length_addDimension_pos (value : K) (unit : String) (totals : List (K × String)) :
    0 < (addDimension value unit totals).length := by
  cases totals with
  | nil => exact Nat.one_pos
  | cons head rest =>
    unfold addDimension
    split <;> exact Nat.succ_pos _

/-- Values have totals. -/
theorem totals_ne_nil {added subtracted : List (K × String)} (h : added ++ subtracted ≠ []) :
    totals added subtracted ≠ [] := by
  -- Adding a value never removes a total.
  have hfold : ∀ (values start : List (K × String)), start ≠ [] →
      values.foldl (fun totals value => addDimension value.1 value.2 totals) start ≠ [] := by
    intro values
    induction values with
    | nil => exact fun _ h => h
    | cons head rest ih =>
      intro start _
      exact ih _ (List.ne_nil_of_length_pos (length_addDimension_pos _ _ _))
  have hsigned : added ++ subtracted.map (fun value => (-value.1, value.2)) ≠ [] := by
    intro hnil
    rw [List.append_eq_nil_iff, List.map_eq_nil_iff] at hnil
    exact h (List.append_eq_nil_iff.2 hnil)
  obtain ⟨head, rest, heq⟩ := List.exists_cons_of_ne_nil hsigned
  unfold totals
  intro hnil
  -- Sorting keeps the number of totals.
  have hlength := congrArg List.length hnil
  rw [List.length_mergeSort, List.length_nil, List.length_eq_zero_iff] at hlength
  dsimp only at hlength
  rw [heq] at hlength
  exact hfold _ _ (List.ne_nil_of_length_pos (length_addDimension_pos _ _ _)) hlength

/-- Numbers have a sum if there are any. -/
theorem total?_ne_none {values : List K} {value : K} (h : value ∈ values) :
    total? values ≠ none := by
  unfold total?
  rw [if_neg (by rw [List.isEmpty_iff]; exact List.ne_nil_of_mem h)]
  exact Option.some_ne_none _

end Reduce

open Reduce

/-- A sum has a value if something is added or subtracted. -/
theorem reduceSum_isSome {operands : List (Operand K)} {operator : Operator} {term : Term K}
    (h : ⟨operator, term⟩ ∈ operands) (hoperator : operator = .add ∨ operator = .subtract) :
    (reduceSum operands).isSome = true := by
  have hunder := mem_under h
  -- The term is a part of its own kind, and so one of the parts is there.
  have hsomething : total? (signedNumbers operands) ≠ none ∨
      total? (signedPercentages operands) ≠ none ∨
      totals (dimensions (under .add operands)) (dimensions (under .subtract operands)) ≠ [] ∨
      others (under .add operands) ≠ [] ∨ others (under .subtract operands) ≠ [] := by
    cases term with
    | number value =>
      refine .inl ?_
      rcases hoperator with rfl | rfl <;>
        exact total?_ne_none (List.mem_filterMap.2 ⟨_, h, rfl⟩)
    | percentage value =>
      refine .inr (.inl ?_)
      rcases hoperator with rfl | rfl <;>
        exact total?_ne_none (List.mem_filterMap.2 ⟨_, h, rfl⟩)
    | dimension value unit =>
      refine .inr (.inr (.inl (totals_ne_nil (List.ne_nil_of_mem (a := (value, unit)) ?_))))
      have hvalue : (value, unit) ∈ dimensions (under operator operands) :=
        List.mem_filterMap.2 ⟨_, hunder, rfl⟩
      rcases hoperator with rfl | rfl
      · exact List.mem_append_left _ hvalue
      · exact List.mem_append_right _ hvalue
    | symbol name =>
      have hother : .symbol name ∈ others (under operator operands) :=
        List.mem_filter.2 ⟨hunder, rfl⟩
      rcases hoperator with rfl | rfl
      · exact .inr (.inr (.inr (.inl (List.ne_nil_of_mem hother))))
      · exact .inr (.inr (.inr (.inr (List.ne_nil_of_mem hother))))
    | expression text kind =>
      have hother : .expression text kind ∈ others (under operator operands) :=
        List.mem_filter.2 ⟨hunder, rfl⟩
      rcases hoperator with rfl | rfl
      · exact .inr (.inr (.inr (.inl (List.ne_nil_of_mem hother))))
      · exact .inr (.inr (.inr (.inr (List.ne_nil_of_mem hother))))
  -- Nothing is reduced to only where all parts are missing.
  unfold reduceSum
  dsimp only
  split
  · rfl
  · rfl
  · rfl
  · next hnumber hpercentage hdimensions haddends hsubtrahends =>
    rcases hsomething with h | h | h | h | h
    · exact absurd hnumber h
    · exact absurd hpercentage h
    · exact absurd hdimensions h
    · exact absurd haddends h
    · exact absurd hsubtrahends h
  · rfl
  · split <;> rfl
  · rfl

namespace Expression

/-! ## Sound expressions -/

/-- The expression names nothing but given names and constants, and has a value wherever no name is
bound. -/
structure IsSound (names : List String) (tree : Expression K) : Prop where
  names_subset : ∀ name ∈ tree.names, name ∈ names
  evaluates : ∀ scope : Scope K, scope.bindings = [] → (tree.evaluate scope).isSome = true

variable {names : List String}

/-- A number names nothing, and has a value. -/
theorem isSound_number (value : K) : IsSound names (leaf (.number value)) where
  names_subset _ h := nomatch h
  evaluates _ _ := rfl

/-- A percentage names nothing, and has a value. -/
theorem isSound_percentage (value : K) : IsSound names (leaf (.percentage value)) where
  names_subset _ h := nomatch h
  evaluates scope _ := by
    unfold evaluate evaluateTerm
    dsimp only
    split <;> rfl

/-- A value with a unit names nothing, and has a value. -/
theorem isSound_dimension (value : K) (unit : String) :
    IsSound names (leaf (.dimension value unit)) where
  names_subset _ h := nomatch h
  evaluates scope _ := by
    unfold evaluate evaluateTerm
    dsimp only
    split
    · rfl
    · split <;> rfl

/-- A symbol that is no constant names what it is. -/
theorem isSound_symbol {name : String} (h : isConstant name = true ∨ name ∈ names) :
    IsSound (K := K) names (leaf (.symbol name)) where
  names_subset other hother := by
    unfold Expression.names at hother
    split at hother
    · cases hother
    · next hconstant =>
      rw [List.mem_singleton.1 hother]
      exact h.resolve_left hconstant
  evaluates scope hscope := by
    unfold evaluate evaluateTerm
    rw [hscope]
    dsimp only [List.lookup]
    split <;> rfl

section Operands

variable {operands : List (Operator × Expression K)}

/-- The names in operands are those of their expressions. -/
theorem operandNames_subset (h : ∀ operand ∈ operands, operand.2.IsSound names) :
    ∀ name ∈ operandNames operands, name ∈ names := by
  induction operands with
  | nil => exact fun _ h => nomatch h
  | cons operand rest ih =>
    intro name hname
    rw [operandNames, List.mem_append] at hname
    rcases hname with hname | hname
    · exact (h operand List.mem_cons_self).names_subset name hname
    · exact ih (fun operand hoperand => h operand (List.mem_cons_of_mem _ hoperand)) name hname

/-- Operands that have values each under their own operator. -/
theorem exists_evaluateOperands (h : ∀ operand ∈ operands, operand.2.IsSound names)
    {scope : Scope K} (hscope : scope.bindings = []) : ∃ terms : List (Operand K),
      evaluateOperands scope operands = some terms ∧
        terms.map Operand.operator = operands.map Prod.fst := by
  induction operands with
  | nil => exact ⟨[], by rw [evaluateOperands], rfl⟩
  | cons operand rest ih =>
    obtain ⟨terms, hterms, hoperators⟩ :=
      ih fun operand hoperand => h operand (List.mem_cons_of_mem _ hoperand)
    obtain ⟨term, hterm⟩ := Option.isSome_iff_exists.1
      ((h operand List.mem_cons_self).evaluates scope hscope)
    refine ⟨⟨operand.1, term⟩ :: terms, ?_, ?_⟩
    · -- The terms come in the order of the operands, with their signs.
      rw [evaluateOperands, hterm, hterms]
      rfl
    · rw [List.map_cons, List.map_cons, hoperators]

end Operands

variable {first : Expression K} {rest : List (Operator × Expression K)}

/-- A product of sound expressions is sound. -/
theorem isSound_ofOperands_product (hfirst : first.IsSound names)
    (hrest : ∀ operand ∈ rest, operand.2.IsSound names) :
    (ofOperands .product .multiply first rest).IsSound names := by
  unfold ofOperands
  -- A single operand stands for itself, and several are sound together.
  split
  · exact hfirst
  · have hall : ∀ operand ∈ (Operator.multiply, first) :: rest, operand.2.IsSound names := by
      intro operand hoperand
      rcases List.mem_cons.1 hoperand with rfl | hoperand
      · exact hfirst
      · exact hrest operand hoperand
    refine ⟨fun name hname => ?_, fun scope hscope => ?_⟩
    · rw [Expression.names] at hname
      exact operandNames_subset hall name hname
    · obtain ⟨terms, hterms, hoperators⟩ := exists_evaluateOperands hall hscope
      rw [evaluate, hterms]
      refine reduceProduct_isSome ?_
      rintro rfl
      cases hoperators

/-- A sum of sound expressions is sound. -/
theorem isSound_ofOperands_sum (hfirst : first.IsSound names)
    (hrest : ∀ operand ∈ rest, operand.2.IsSound names) :
    (ofOperands .sum .add first rest).IsSound names := by
  unfold ofOperands
  split
  · exact hfirst
  · have hall : ∀ operand ∈ (Operator.add, first) :: rest, operand.2.IsSound names := by
      intro operand hoperand
      rcases List.mem_cons.1 hoperand with rfl | hoperand
      · exact hfirst
      · exact hrest operand hoperand
    refine ⟨fun name hname => ?_, fun scope hscope => ?_⟩
    · rw [Expression.names] at hname
      exact operandNames_subset hall name hname
    · obtain ⟨terms, hterms, hoperators⟩ := exists_evaluateOperands hall hscope
      rw [evaluate, hterms]
      -- The first operand is added, so there is something to sum up.
      cases terms with
      | nil => cases hoperators
      | cons term terms =>
        obtain ⟨operator, term⟩ := term
        rw [List.map_cons, List.map_cons, List.cons.injEq] at hoperators
        obtain ⟨rfl, -⟩ := hoperators
        exact reduceSum_isSome List.mem_cons_self (.inl rfl)

end Expression

end CssColor
