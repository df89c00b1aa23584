import CssColor.Proofs.Calc.Closure
import CssColor.Proofs.Calc.Leaves
import CssColor.Proofs.Calc.Texts
import Mathlib.Data.List.Infix

/-!
# Terms whose texts are read

The text of a term that an expression reduces to is itself read as an expression over the names that
stand in it (`Expression.evaluate_isWritable`). The names of numbers that are not finite are read
only where a word ends behind them (`Scalar.namesApart`): `Infinity%` is no percentage. What stands
in a text stands apart in it if it does in the whole, so that the parts of a sum or product can be
looked at one by one.
-/

namespace CssColor

open Token

/-! ## Names of numbers -/

namespace Scalar

/-- The names of numbers that are not finite, without a sign. -/
def nonFiniteNames : List String := ["NaN", "Infinity"]

/-- Whether a word ends behind each name of a number in a text. -/
def namesApart (text : String) : Bool :=
  text.toList.tails.all fun rest =>
    nonFiniteNames.all fun name => (name.toList.isPrefixOf? rest).all EndsWord

/-- A word has to end wherever such a name stands in the text. -/
theorem namesApart_iff {text : String} : namesApart text = true ↔
    ∀ name ∈ nonFiniteNames, ∀ rest, name.toList ++ rest <:+ text.toList →
      EndsWord rest = true := by
  simp only [namesApart, List.all_eq_true, List.mem_tails, Option.all_eq_true]
  constructor
  · intro h name hname rest hrest
    exact h _ hrest name hname rest (List.isPrefixOf?_eq_some_iff_append_eq.2 rfl)
  · intro h rest hrest name hname left hleft
    rw [← List.isPrefixOf?_eq_some_iff_append_eq.1 hleft] at hrest
    exact h name hname left hrest

/-- The names in a part of a text stand apart if they do in the whole. -/
theorem namesApart_of_isInfix {part whole : String} (h : namesApart whole = true)
    (hpart : part.toList <:+: whole.toList) : namesApart part = true := by
  obtain ⟨front, back, hwhole⟩ := hpart
  rw [namesApart_iff] at h ⊢
  rintro name hname rest ⟨before, hrest⟩
  have hends : EndsWord (rest ++ back) = true := by
    refine h name hname (rest ++ back) ⟨front ++ before, ?_⟩
    rw [← hwhole, ← hrest]
    simp only [List.append_assoc]
  cases rest with
  | nil => rfl
  | cons c rest => exact hends

variable {K : Type} [Scalar K] {value : K} {rest : String}

/-- A number in front of something that goes on with a word is finite. -/
theorem isFinite_of_namesApart (h : namesApart (text value ++ rest) = true)
    (hrest : EndsWord rest.toList = false) : isFinite value = true := by
  -- Otherwise a word would end behind the name, where `rest` goes on.
  have hname : ∀ sign, ∀ name ∈ nonFiniteNames, text value ≠ sign ++ name := by
    intro sign name hname htext
    have hends := namesApart_iff.1 h name hname rest.toList ⟨sign.toList, by
      rw [htext, String.toList_append, String.toList_append, List.append_assoc]⟩
    rw [hrest] at hends
    cases hends
  unfold isFinite
  unfold text at hname
  cases hexact : exact value with
  | finite negative magnitude => rfl
  | nan negative =>
    rw [hexact] at hname
    exact absurd rfl (hname "" "NaN" (by decide))
  | infinite negative =>
    rw [hexact] at hname
    cases negative with
    | true => exact absurd rfl (hname "-" "Infinity" (by decide))
    | false => exact absurd rfl (hname "" "Infinity" (by decide))

end Scalar

open Scalar

/-- No word ends in front of a unit. -/
theorem Token.not_endsWord_of_isUnit {unit : String} (h : IsUnit unit = true) :
    EndsWord unit.toList = false := by
  rw [Token.IsUnit, Bool.and_eq_true] at h
  obtain ⟨c, tail, hname, hchars, -⟩ := exists_of_isWord h.1
  have hne := ne_of_isNameChar (hchars c List.mem_cons_self)
  rw [hname, EndsWord, beq_eq_false_iff_ne.2 (hne ' ' rfl), beq_eq_false_iff_ne.2 (hne ')' rfl),
    beq_eq_false_iff_ne.2 (hne ',' rfl)]
  rfl

variable {K : Type} [Scalar K] {names : List String} {text text' : String}

/-! ## Texts with names that stand apart -/

namespace Expression

/-- The text has the property if the names of numbers in it stand apart. -/
def Apart (P : String → Prop) (text : String) : Prop := namesApart text = true → P text

/-- Whatever follows from the property follows if the names stand apart. -/
theorem Apart.imp {P Q : String → Prop} (h : Apart P text) (himp : P text → Q text) :
    Apart Q text := fun hapart => himp (h hapart)

/-- Names that stand apart in a joined text stand apart in both of its parts. -/
theorem Apart.join {P Q R : String → Prop} {separator : String}
    (hjoin : P text → Q text' → R (text ++ separator ++ text')) (h : Apart P text)
    (h' : Apart Q text') : Apart R (text ++ separator ++ text') := by
  intro hapart
  rw [String.append_assoc] at hapart
  have hfront : namesApart text = true := by
    refine namesApart_of_isInfix hapart (List.IsPrefix.isInfix ⟨(separator ++ text').toList, ?_⟩)
    simp only [String.toList_append]
  have hback : namesApart text' = true := by
    refine namesApart_of_isInfix hapart (List.IsSuffix.isInfix ⟨(text ++ separator).toList, ?_⟩)
    simp only [String.toList_append, List.append_assoc]
  exact hjoin (h hfront) (h' hback)

/-- Names that stand apart in a text with something around it stand apart in the text. -/
theorem Apart.wrap {P Q : String → Prop} {front back : String}
    (hwrap : P text → Q (front ++ text ++ back)) (h : Apart P text) :
    Apart Q (front ++ text ++ back) := by
  intro hapart
  refine hwrap (h (namesApart_of_isInfix hapart ⟨front.toList, back.toList, ?_⟩))
  simp only [String.toList_append, List.append_assoc]

/-- What the grammar puts together is read over the same names. -/
theorem isClosed_apart : IsClosed (Apart (IsValueText K names)) (Apart (IsProductText K names))
    (Apart (IsSumText K names)) where
  minusOne _ := ⟨_, readsAsValue_minusOne, isSound_number _⟩
  product h := h.imp IsValueText.product
  times h h' := h.join IsProductText.times h'
  dividedBy h h' := h.join IsProductText.dividedBy h'
  sum h := h.imp IsProductText.sum
  plus h h' := h.join IsSumText.plus h'
  minus h h' := h.join (fun h h' => h.minus h'.product.sum) h'
  paren h := h.wrap IsSumText.paren

end Expression

/-! ## Terms -/

namespace Term

open Expression

/-- The text of a term is read as what the term is, with any number in it, if the names of numbers
in it stand apart. -/
structure IsWritable (names : List String) (term : Term K) : Prop where
  isUnit : ∀ unit ∈ term.unit?, IsUnit unit = true
  isStable : term.IsStable (Apart (IsValueText K names)) (Apart (IsProductText K names))
    (Apart (IsSumText K names))

/-- Numbers are writable. -/
theorem isWritable_number (value : K) : (number value).IsWritable names where
  isUnit _ h := nomatch h
  isStable x _ := isValueText_number x

/-- Percentages are writable: in front of the sign stands no name of a number. -/
theorem isWritable_percentage (value : K) : (percentage value).IsWritable names where
  isUnit _ h := nomatch h
  isStable _ hapart := isValueText_percentage (isFinite_of_namesApart hapart rfl)

/-- Values with units are writable: in front of a unit stands no name of a number. -/
theorem isWritable_dimension (value : K) {unit : String} (hunit : IsUnit unit = true) :
    (dimension value unit).IsWritable names where
  isUnit other hother := by
    cases hother
    exact hunit
  isStable _ hapart :=
    isValueText_dimension (isFinite_of_namesApart hapart (not_endsWord_of_isUnit hunit)) hunit

/-- A symbol is writable if its name is read as a value. -/
theorem isWritable_symbol {name : String} (h : IsValueText K names name) :
    (symbol name : Term K).IsWritable names where
  isUnit _ h := nomatch h
  isStable _ _ := h

end Term

section Reduced

open Expression Reduce

variable {operands : List (Operand K)} (h : ∀ operand ∈ operands, operand.term.IsWritable names)

include h

/-- The term that a product reduces to is writable if those of its operands are. -/
theorem reduceProduct_isWritable : ∀ term ∈ reduceProduct operands, term.IsWritable names := by
  intro term hterm
  refine ⟨fun unit hunit => ?_, reduceProduct_isStable isClosed_apart
    (fun x _ => isValueText_number x) (fun operand hoperand => (h operand hoperand).isStable) term
    hterm⟩
  rcases reduceProduct_cases hterm with ⟨x, rfl⟩ | ⟨x, rfl, -⟩ | ⟨x, value, hvalue, rfl⟩ | rfl
  · cases hunit
  · cases hunit
  · cases hunit
    obtain ⟨operand, hoperand, heq⟩ := exists_of_mem_under (mem_of_mem_dimensions hvalue)
    exact (h operand hoperand).isUnit value.2 (by rw [heq]; rfl)
  · cases hunit

/-- The term that a sum reduces to is writable if those of its operands are. -/
theorem reduceSum_isWritable : ∀ term ∈ reduceSum operands, term.IsWritable names := by
  intro term hterm
  refine ⟨fun unit hunit => ?_, reduceSum_isStable isClosed_apart
    (fun x _ => isValueText_number x) (fun operand hoperand => (h operand hoperand).isStable) term
    hterm⟩
  -- The unit of the result is that of an operand, since a sum keeps the units as they are.
  rcases reduceSum_cases hterm with ⟨x, rfl⟩ | ⟨x, -, rfl⟩ | ⟨value, hvalue, rfl⟩ | hother |
    ⟨rfl, -⟩
  · cases hunit
  · cases hunit
  · cases hunit
    obtain ⟨operand, hoperand, x, heq⟩ := exists_of_mem_operandTotals hvalue
    exact (h operand hoperand).isUnit value.2 (by rw [heq]; rfl)
  · obtain ⟨operand, hoperand, rfl⟩ := exists_of_mem_under (List.mem_filter.1 hother).1
    exact (h operand hoperand).isUnit unit hunit
  · cases hunit

end Reduced

/-! ## Expressions -/

namespace Expression

mutual

/-- If the leaves have writable values, the expression has. -/
theorem isWritable_of_leaves {scope : Scope K} : ∀ tree : Expression K,
    (∀ leaf ∈ tree.leaves, ∀ term ∈ evaluateTerm scope leaf, term.IsWritable names) →
    ∀ term ∈ tree.evaluate scope, term.IsWritable names
  | leaf term => fun h => by
    rw [evaluate]
    exact h term (by rw [leaves]; exact List.mem_cons_self)
  -- The operands of a sum are evaluated first, and their terms are writable by recursion.
  | sum operands => fun h term hterm => by
    rw [leaves] at h
    rw [evaluate] at hterm
    obtain ⟨terms, hterms, hsum⟩ := Option.bind_eq_some_iff.1 hterm
    exact reduceSum_isWritable (isWritable_of_operandLeaves operands h terms hterms) term hsum
  | product operands => fun h term hterm => by
    rw [leaves] at h
    rw [evaluate] at hterm
    obtain ⟨terms, hterms, hproduct⟩ := Option.bind_eq_some_iff.1 hterm
    exact reduceProduct_isWritable (isWritable_of_operandLeaves operands h terms hterms) term
      hproduct

/-- The terms of the operands are writable if all that their leaves evaluate to are. -/
theorem isWritable_of_operandLeaves {scope : Scope K} :
    ∀ operands : List (Operator × Expression K),
    (∀ leaf ∈ operandLeaves operands, ∀ term ∈ evaluateTerm scope leaf, term.IsWritable names) →
    ∀ terms ∈ evaluateOperands scope operands, ∀ operand ∈ terms, operand.term.IsWritable names
  | [] => fun _ terms hterms operand hoperand => by
    rw [evaluateOperands] at hterms
    cases hterms
    cases hoperand
  | (operator, operand) :: rest => fun h terms hterms other hother => by
    rw [operandLeaves] at h
    rw [evaluateOperands] at hterms
    obtain ⟨term, hterm, hterms⟩ := Option.bind_eq_some_iff.1 hterms
    obtain ⟨others, hothers, hterms⟩ := Option.bind_eq_some_iff.1 hterms
    cases hterms
    -- A term is that of the first operand, or of one behind it.
    rcases List.mem_cons.1 hother with rfl | hother
    · exact isWritable_of_leaves operand (fun leaf hleaf => h leaf (List.mem_append_left _ hleaf))
        term hterm
    · exact isWritable_of_operandLeaves rest
        (fun leaf hleaf => h leaf (List.mem_append_right _ hleaf)) others hothers other hother

end

/-- A constant has a value. -/
theorem constant?_isSome {name : String} (h : isConstant name = true) :
    (constant? name : Option K).isSome = true := by
  simp only [isConstant, Bool.or_eq_true, beq_iff_eq] at h
  rcases h with (((rfl | rfl) | rfl) | rfl) | rfl <;> rfl

/-- A leaf has a writable value where no name is bound, if it is written by a token, its unit
is a proper one and its name is read. -/
theorem evaluateTerm_isWritable {scope : Scope K} (hscope : scope.bindings = []) {leaf : Term K}
    (hread : leaf.isToken = true) (hunit : ∀ unit ∈ leaf.unit?, IsUnit unit = true)
    (hname : ∀ name, leaf = .symbol name → isConstant name = true ∨ IsValueText K names name) :
    ∀ term ∈ evaluateTerm scope leaf, term.IsWritable names := by
  intro term hterm
  cases leaf with
  | number value =>
    cases hterm
    exact Term.isWritable_number value
  -- A percentage is a number where it has a reference.
  | percentage value =>
    rw [evaluateTerm] at hterm
    split at hterm
    · cases hterm
      exact Term.isWritable_number _
    · cases hterm
      exact Term.isWritable_percentage _
  -- A dimension is a number if its unit is looked up, and otherwise it gets a canonical unit or
  -- keeps its own.
  | dimension value unit =>
    have hunit : IsUnit unit = true := hunit unit rfl
    rw [evaluateTerm] at hterm
    split at hterm
    · cases hterm
      exact Term.isWritable_number _
    · split at hterm
      · cases hterm
        exact Term.isWritable_dimension _ rfl
      · cases hterm
        exact Term.isWritable_dimension _ rfl
      · cases hterm
        exact Term.isWritable_dimension _ hunit
  -- No name is bound, so a symbol stays unless it is a constant.
  | symbol name =>
    rw [evaluateTerm, hscope, List.lookup] at hterm
    dsimp only at hterm
    split at hterm
    · cases hterm
      exact Term.isWritable_number _
    · next hconstant =>
      cases hterm
      refine Term.isWritable_symbol ((hname name rfl).resolve_left fun h => ?_)
      have hsome := constant?_isSome (K := K) h
      rw [hconstant] at hsome
      cases hsome
  | expression text kind => cases hread

/-- The value of an expression is writable where no name is bound. -/
theorem evaluate_isWritable {scope : Scope K} (hscope : scope.bindings = []) {tree : Expression K}
    (hread : tree.IsRead) (hunits : ∀ leaf ∈ tree.leaves, ∀ unit ∈ leaf.unit?, IsUnit unit = true)
    (hnames : ∀ name ∈ tree.names, IsValueText K names name) :
    ∀ term ∈ tree.evaluate scope, term.IsWritable names := by
  refine isWritable_of_leaves tree fun leaf hleaf => ?_
  refine evaluateTerm_isWritable hscope (hread leaf hleaf) (hunits leaf hleaf) ?_
  rintro name rfl
  exact (isConstant_or_mem_names tree hleaf).imp_right (hnames name)

end Expression

end CssColor
