import CssColor.Calc.Grammar
import CssColor.Proofs.Token.LetterCase

/-!
# Letter case in expressions

The rules of the grammar of expressions are blind to case, up to any level of blocks
(`Expression.caseBlind_rule`): names are kept in lower case, and `calc` may be spelled in any case.
-/

namespace CssColor.Expression

open Rule Token

variable {K : Type} {nested : Rule K (Expression K)}

/-- Names in a value are read in lower case, and so is the name of a function. -/
theorem caseBlind_valueRule (h : CaseBlind nested) : CaseBlind (valueRule nested) := by
  refine CaseBlind.nextSolid_bind (fun token => ?_) fun token => ?_
  · -- Both names that a value may start with are lowered.
    cases token with
    | ident name =>
      show (pure (leaf (.symbol name.toLower.toLower)) : Rule K (Expression K)) = _
      rw [toLower_toLower_text]
    | function name =>
      show (if name.toLower.toLower = "calc" then nested else Rule.fail) = _
      rw [toLower_toLower_text]
    | _ => rfl
  · cases token with
    | number => exact CaseBlind.pure _
    | percentage => exact CaseBlind.pure _
    | dimension => exact CaseBlind.pure _
    | ident => exact CaseBlind.pure _
    | openParen => exact h
    | function => exact CaseBlind.ite h CaseBlind.fail
    | _ => exact CaseBlind.fail

/-- A factor is read in the same way in any case of letters. -/
theorem caseBlind_factorRule (h : CaseBlind nested) : CaseBlind (factorRule nested) := by
  have hvalue := caseBlind_valueRule h
  refine CaseBlind.nextSolid_bind (fun token => by cases token <;> rfl) fun token => ?_
  split
  · exact hvalue.bind fun _ => CaseBlind.pure _
  · exact hvalue.bind fun _ => CaseBlind.pure _
  · exact CaseBlind.fail

/-- A product is read in the same way in any case of letters. -/
theorem caseBlind_productRule (h : CaseBlind nested) : CaseBlind (productRule nested) :=
  (caseBlind_valueRule h).bind fun _ => (caseBlind_factorRule h).many.bind fun _ => CaseBlind.pure _

/-- Signs are no letters. -/
theorem caseBlind_signRule : CaseBlind (signRule : Rule K Operator) := by
  refine CaseBlind.blank.bind fun _ =>
    CaseBlind.next_bind (fun token => by cases token <;> rfl) fun token => ?_
  split
  · exact CaseBlind.blank.bind fun _ => CaseBlind.pure _
  · exact CaseBlind.blank.bind fun _ => CaseBlind.pure _
  · exact CaseBlind.fail

/-- An addend is read in the same way in any case of letters. -/
theorem caseBlind_addendRule (h : CaseBlind nested) : CaseBlind (addendRule nested) :=
  caseBlind_signRule.bind fun _ => (caseBlind_productRule h).bind fun _ => CaseBlind.pure _

/-- A sum is read in the same way in any case of letters. -/
theorem caseBlind_sumRule (h : CaseBlind nested) : CaseBlind (sumRule nested) :=
  (caseBlind_productRule h).bind fun _ => (caseBlind_addendRule h).many.bind fun _ =>
    CaseBlind.pure _

/-- The content of parentheses is read in the same way in any case of letters. -/
theorem caseBlind_contentRule (h : CaseBlind nested) : CaseBlind (contentRule nested) :=
  (caseBlind_sumRule h).bind fun _ => CaseBlind.closeParen.bind fun _ => CaseBlind.pure _

/-- A block is read in the same way in any case of letters, by induction on its levels. -/
theorem caseBlind_blockRule (levels : ℕ) : CaseBlind (blockRule levels : Rule K (Expression K)) := by
  induction levels with
  | zero => exact caseBlind_contentRule CaseBlind.fail
  | succ levels ih => exact caseBlind_contentRule ih

/-- Expressions are read in the same way from all spellings of their tokens. -/
theorem caseBlind_rule (levels : ℕ) : CaseBlind (rule levels : Rule K (Expression K)) := by
  refine (CaseBlind.nextWith (isFunction_lower "calc")).bind fun _ => ?_
  cases levels with
  | zero => exact CaseBlind.fail
  | succ levels => exact caseBlind_blockRule levels

end CssColor.Expression
