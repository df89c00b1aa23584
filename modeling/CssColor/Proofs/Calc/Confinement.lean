import CssColor.Proofs.Token.Confinement
import CssColor.Proofs.Value.BlockDepth

/-!
# Expressions inside of blocks

The rules for expressions look at no token behind the parenthesis that closes the block that they
are in, where the rule for the blocks nested in an expression does so for these. A call of `calc()`
is self-contained (`Expression.isSelfContained_rule`).
-/

namespace CssColor.Expression

open Token Rule

variable {K : Type} {nested : Rule K (Expression K)} {depth : ℕ}

/-- A value does not leave the block: what it opens it closes. -/
theorem confined_valueRule (h : Confined (depth + 2) (depth + 1) nested) :
    Confined (depth + 1) (depth + 1) (valueRule nested) := by
  refine Confined.nextSolid_bind fun token rest htoken => ?_
  cases token with
  | number => exact Confined.pure _ rest (htoken.of_plain rfl rfl)
  | percentage => exact Confined.pure _ rest (htoken.of_plain rfl rfl)
  | dimension => exact Confined.pure _ rest (htoken.of_plain rfl rfl)
  | ident => exact Confined.pure _ rest (htoken.of_plain rfl rfl)
  | openParen => exact h rest (htoken.of_opens rfl)
  | function name => exact Confined.ite h Confined.fail rest (htoken.of_opens rfl)
  | _ => exact .inr fun _ => rfl

/-- A factor does not leave the block. -/
theorem confined_factorRule (h : Confined (depth + 2) (depth + 1) nested) :
    Confined (depth + 1) (depth + 1) (factorRule nested) := by
  have hvalue := confined_valueRule h
  refine Confined.nextSolid_bind fun token rest htoken => ?_
  split
  · exact (hvalue.bind fun _ => Confined.pure _) rest (htoken.of_plain rfl rfl)
  · exact (hvalue.bind fun _ => Confined.pure _) rest (htoken.of_plain rfl rfl)
  · exact .inr fun _ => rfl

/-- A product does not leave the block. -/
theorem confined_productRule (h : Confined (depth + 2) (depth + 1) nested) :
    Confined (depth + 1) (depth + 1) (productRule nested) :=
  (confined_valueRule h).bind fun _ => (confined_factorRule h).many.bind fun _ => Confined.pure _

/-- The sign of a sum does not leave the block. -/
theorem confined_signRule : Confined (depth + 1) (depth + 1) (signRule : Rule K Operator) := by
  refine Confined.blank.bind fun _ => Confined.next_bind fun token rest htoken => ?_
  split
  · exact (Confined.blank.bind fun _ => Confined.pure _) rest (htoken.of_plain rfl rfl)
  · exact (Confined.blank.bind fun _ => Confined.pure _) rest (htoken.of_plain rfl rfl)
  · exact .inr fun _ => rfl

/-- An addend does not leave the block. -/
theorem confined_addendRule (h : Confined (depth + 2) (depth + 1) nested) :
    Confined (depth + 1) (depth + 1) (addendRule nested) :=
  confined_signRule.bind fun _ => (confined_productRule h).bind fun _ => Confined.pure _

/-- The content of parentheses closes their block. -/
theorem confined_contentRule (h : Confined (depth + 2) (depth + 1) nested) :
    Confined (depth + 1) depth (contentRule nested) := by
  have hsum : Confined (depth + 1) (depth + 1) (sumRule nested) :=
    (confined_productRule h).bind fun _ => (confined_addendRule h).many.bind fun _ =>
      Confined.pure _
  exact hsum.bind fun _ => Confined.closeParen.bind fun _ => Confined.pure _

/-- The content of a block, however many levels are allowed. -/
theorem confined_blockRule (levels : ℕ) :
    Confined (depth + 1) depth (blockRule levels : Rule K (Expression K)) := by
  induction levels generalizing depth with
  | zero => exact confined_contentRule Confined.fail
  | succ levels ih => exact confined_contentRule ih

/-- A block in a block, where the bound may forbid it. -/
theorem confined_nested (levels : ℕ) :
    Confined (depth + 1) depth (Rule.nested levels blockRule : Rule K (Expression K)) := by
  cases levels with
  | zero => exact Confined.fail
  | succ levels => exact confined_blockRule levels

/-- A call of `calc()` in a block. -/
theorem confined_rule (levels : ℕ) :
    Confined (depth + 1) (depth + 1) (rule levels : Rule K (Expression K)) := by
  refine (Confined.nextWith_opens fun token h => ?_).bind fun _ => confined_nested levels
  cases token with
  | function => rfl
  | _ => contradiction

/-- A call of `calc()` takes balanced blocks, and the same off any list that starts with them. -/
theorem isSelfContained_rule (levels : ℕ) :
    IsSelfContained (rule levels : Rule K (Expression K)) := by
  unfold rule callRule nextWith
  rw [bind_assoc]
  refine IsSelfContained.nextSolid_bind fun token tokens tree rest h => ?_
  cases token with
  | function name =>
    split at h
    · next hname =>
      -- No block may be opened at the level zero, where the content fails.
      cases levels with
      | zero => cases h
      | succ levels =>
        have hconfined : Confined 1 0 (blockRule levels : Rule K (Expression K)) :=
          confined_blockRule levels
        have hagree {P : ℕ → List (Token K) → Prop} (hP : Levelled (levels + 1) P) :
            Agree (P levels) (P (levels + 1)) (blockRule levels) (blockRule levels) :=
          blockRule_agree hP blockRule (blockRule_eq 0) (fun _ => blockRule_eq _) Agree.fail
            (Nat.lt_succ_self levels)
        have hopens : (Token.function name : Token K).opensBlock = true := rfl
        obtain ⟨used, htokens, hbalanced, hreads⟩ := hconfined.exists_content hagree hopens h
        refine ⟨used, htokens, hbalanced, ?_⟩
        rw [if_pos hname]
        exact hreads
    · cases h
  | _ => cases h

end CssColor.Expression
