import CssColor.Calc.Grammar
import CssColor.Proofs.Token.Reading

/-!
# Leaves of expressions

The terms at the leaves of an expression (`Expression.leaves`). Those of an expression that the
grammar reads are the terms that a token writes (`Expression.rule_isRead`): the grammar reads no
simplified expressions, which only come up when expressions are evaluated.
-/

namespace CssColor

variable {K : Type}

/-- Whether a term is written by a single token. -/
def Term.isToken : Term K → Bool
  | expression .. => false
  | _ => true

namespace Expression

open Rule

/-! ## Leaves -/

mutual

/-- The terms at the leaves of an expression, from left to right. -/
def leaves : Expression K → List (Term K)
  | leaf term => [term]
  | sum operands => operandLeaves operands
  | product operands => operandLeaves operands

/-- The terms at the leaves of operands. -/
def operandLeaves : List (Operator × Expression K) → List (Term K)
  | [] => []
  | (_, operand) :: rest => operand.leaves ++ operandLeaves rest

end

mutual

/-- The names at the leaves are constants or names of the expression. -/
theorem isConstant_or_mem_names {name : String} : ∀ tree : Expression K,
    .symbol name ∈ tree.leaves → isConstant name = true ∨ name ∈ tree.names
  | leaf term => fun h => by
    rw [leaves] at h
    rw [← List.mem_singleton.1 h, Expression.names]
    -- The names of a leaf are those that are no constants.
    split
    · next hconstant => exact .inl hconstant
    · exact .inr List.mem_cons_self
  | sum operands => fun h => by
    rw [leaves] at h
    rw [Expression.names]
    exact isConstant_or_mem_operandNames operands h
  | product operands => fun h => by
    rw [leaves] at h
    rw [Expression.names]
    exact isConstant_or_mem_operandNames operands h

/-- A symbol in an operand is a constant, or one of the names of the operands. -/
theorem isConstant_or_mem_operandNames {name : String} :
    ∀ operands : List (Operator × Expression K),
    .symbol name ∈ operandLeaves operands → isConstant name = true ∨ name ∈ operandNames operands
  | [] => fun h => by
    rw [operandLeaves] at h
    cases h
  | (operator, operand) :: rest => fun h => by
    rw [operandLeaves] at h
    rw [operandNames]
    rcases List.mem_append.1 h with h | h
    · exact (isConstant_or_mem_names operand h).imp_right (List.mem_append_left _)
    · exact (isConstant_or_mem_operandNames rest h).imp_right (List.mem_append_right _)

end

/-- A leaf of the operands is a leaf of one of them. -/
theorem mem_operandLeaves {operands : List (Operator × Expression K)} {leaf : Term K}
    (h : leaf ∈ operandLeaves operands) : ∃ operand ∈ operands, leaf ∈ operand.2.leaves := by
  induction operands with
  | nil =>
    rw [operandLeaves] at h
    cases h
  | cons operand rest ih =>
    rw [operandLeaves] at h
    rcases List.mem_append.1 h with h | h
    · exact ⟨operand, List.mem_cons_self, h⟩
    · obtain ⟨other, hother, hleaf⟩ := ih h
      exact ⟨other, List.mem_cons_of_mem _ hother, hleaf⟩

/-! ## Expressions that are read -/

/-- All leaves of the expression are written by tokens. -/
def IsRead (tree : Expression K) : Prop := ∀ leaf ∈ tree.leaves, leaf.isToken = true

/-- A token is read as a leaf. -/
theorem isRead_leaf {term : Term K} (h : term.isToken = true) : (leaf term).IsRead := by
  intro other hother
  rw [leaves, List.mem_singleton] at hother
  rw [hother]
  exact h

/-- What is put together from operands that are read is read. -/
theorem isRead_ofOperands {construct : List (Operator × Expression K) → Expression K}
    (hconstruct : ∀ operands, (construct operands).leaves = operandLeaves operands)
    {operator : Operator} {first : Expression K} {rest : List (Operator × Expression K)}
    (hfirst : first.IsRead) (hrest : ∀ operand ∈ rest, operand.2.IsRead) :
    (ofOperands construct operator first rest).IsRead := by
  unfold ofOperands
  split
  · exact hfirst
  · intro leaf hleaf
    rw [hconstruct] at hleaf
    obtain ⟨operand, hoperand, hleaf⟩ := mem_operandLeaves hleaf
    rcases List.mem_cons.1 hoperand with rfl | hoperand
    · exact hfirst leaf hleaf
    · exact hrest operand hoperand leaf hleaf

variable {nested : Rule K (Expression K)}

/-- A value is read with terms that are tokens. -/
theorem valueRule_isRead (h : Yields IsRead nested) : Yields IsRead (valueRule nested) := by
  refine Yields.after fun token => ?_
  split
  · exact Yields.pure (isRead_leaf rfl)
  · exact Yields.pure (isRead_leaf rfl)
  · exact Yields.pure (isRead_leaf rfl)
  · exact Yields.pure (isRead_leaf rfl)
  · exact h
  · exact Yields.ite (fun _ => h) fun _ => Yields.fail
  · exact Yields.fail

/-- So is a factor. -/
theorem factorRule_isRead (h : Yields IsRead nested) :
    Yields (fun operand => operand.2.IsRead) (factorRule nested) := by
  refine Yields.after fun token => ?_
  split
  · exact (valueRule_isRead h).bind fun _ hvalue => Yields.pure hvalue
  · exact (valueRule_isRead h).bind fun _ hvalue => Yields.pure hvalue
  · exact Yields.fail

/-- So is a product. -/
theorem productRule_isRead (h : Yields IsRead nested) : Yields IsRead (productRule nested) :=
  (valueRule_isRead h).bind fun _ hfirst => (factorRule_isRead h).many.bind fun _ hrest =>
    Yields.pure (isRead_ofOperands (fun _ => by rw [leaves]) hfirst hrest)

/-- So is a sum. -/
theorem sumRule_isRead (h : Yields IsRead nested) : Yields IsRead (sumRule nested) := by
  have haddend : Yields (fun operand => operand.2.IsRead) (addendRule nested) :=
    Yields.after fun _ => (productRule_isRead h).bind fun _ hproduct => Yields.pure hproduct
  exact (productRule_isRead h).bind fun _ hfirst => haddend.many.bind fun _ hrest =>
    Yields.pure (isRead_ofOperands (fun _ => by rw [leaves]) hfirst hrest)

/-- So is the content of parentheses. -/
theorem contentRule_isRead (h : Yields IsRead nested) : Yields IsRead (contentRule nested) :=
  (sumRule_isRead h).bind fun _ hsum => Yields.after fun _ => Yields.pure hsum

/-- So is a block, by induction on the levels it may use. -/
theorem blockRule_isRead (levels : ℕ) : Yields IsRead (blockRule levels : Rule K (Expression K)) := by
  induction levels with
  | zero =>
    rw [blockRule]
    exact contentRule_isRead Yields.fail
  | succ levels ih =>
    rw [blockRule]
    exact contentRule_isRead ih

/-- The leaves of an expression that the grammar reads are written by tokens. -/
theorem rule_isRead (levels : ℕ) : Yields IsRead (rule levels : Rule K (Expression K)) := by
  refine Yields.after fun _ => ?_
  cases levels with
  | zero => exact Yields.fail
  | succ levels => exact blockRule_isRead levels

end Expression

end CssColor
