import CssColor.Calc.Grammar
import CssColor.Proofs.Token.Agreement

/-!
# Agreement of the rules for expressions

Each rule of the grammar of expressions agrees with itself when the rule for the blocks nested in it
is replaced by one that agrees with it after an opening token (`Rule.Opened`). So a grammar with a
bound on the blocks agrees with any that goes on with other rules where the bound is reached, as
long as it is not reached (`Expression.blockRule_agree`).
-/

namespace CssColor.Expression

open Rule

variable {K : Type} {P : ℕ → List (Token K) → Prop} {top levels : ℕ}
  {nested nested' : Rule K (Expression K)}

/-! ## Expressions -/

/-- A value may open a block for another expression. -/
theorem valueRule_agree (hP : Levelled top P)
    (h : Agree (Opened (P levels)) (P levels) nested nested') :
    Agree (P levels) (P levels) (valueRule nested) (valueRule nested') := by
  refine Agree.nextSolid_bind hP fun token rest htoken => ?_
  -- Only after a parenthesis or the name `calc` does the rule for nested blocks come in.
  cases token with
  | number => exact AgreeAt.pure (hP.plain rfl rfl htoken)
  | percentage => exact AgreeAt.pure (hP.plain rfl rfl htoken)
  | dimension => exact AgreeAt.pure (hP.plain rfl rfl htoken)
  | ident => exact AgreeAt.pure (hP.plain rfl rfl htoken)
  | openParen => exact h rest ⟨_, rfl, htoken⟩
  | function name =>
    show AgreeAt (P levels) (if name.toLower = "calc" then nested else Rule.fail)
      (if name.toLower = "calc" then nested' else Rule.fail) rest
    split
    · exact h rest ⟨_, rfl, htoken⟩
    · exact AgreeAt.fail
  | _ => exact AgreeAt.fail

/-- A factor with its sign. -/
theorem factorRule_agree (hP : Levelled top P)
    (h : Agree (Opened (P levels)) (P levels) nested nested') :
    Agree (P levels) (P levels) (factorRule nested) (factorRule nested') := by
  have hvalue := valueRule_agree hP h
  refine Agree.nextSolid_bind hP fun token rest htoken => ?_
  split
  · exact ((hvalue rest (hP.plain rfl rfl htoken))).bind fun _ _ _ h => AgreeAt.pure h
  · exact ((hvalue rest (hP.plain rfl rfl htoken))).bind fun _ _ _ h => AgreeAt.pure h
  · exact AgreeAt.fail

/-- A product. -/
theorem productRule_agree (hP : Levelled top P)
    (h : Agree (Opened (P levels)) (P levels) nested nested') :
    Agree (P levels) (P levels) (productRule nested) (productRule nested') :=
  (valueRule_agree hP h).bind fun _ => (factorRule_agree hP h).many.bind fun _ => Agree.pure _

/-- The sign of a sum takes a blank on either side. -/
theorem signRule_agree (hP : Levelled top P) :
    Agree (P levels) (P levels) (signRule : Rule K Operator) signRule := by
  refine (Agree.blank hP).bind fun _ => Agree.next_bind fun token rest htoken => ?_
  split
  · exact (Agree.blank hP rest (hP.plain rfl rfl htoken)).bind fun _ _ _ h => AgreeAt.pure h
  · exact (Agree.blank hP rest (hP.plain rfl rfl htoken)).bind fun _ _ _ h => AgreeAt.pure h
  · exact AgreeAt.fail

/-- An addend with its sign. -/
theorem addendRule_agree (hP : Levelled top P)
    (h : Agree (Opened (P levels)) (P levels) nested nested') :
    Agree (P levels) (P levels) (addendRule nested) (addendRule nested') :=
  (signRule_agree hP).bind fun _ => (productRule_agree hP h).bind fun _ => Agree.pure _

/-- A sum. -/
theorem sumRule_agree (hP : Levelled top P)
    (h : Agree (Opened (P levels)) (P levels) nested nested') :
    Agree (P levels) (P levels) (sumRule nested) (sumRule nested') :=
  (productRule_agree hP h).bind fun _ => (addendRule_agree hP h).many.bind fun _ => Agree.pure _

/-- The content of parentheses, up to the one that closes them. -/
theorem contentRule_agree (hP : Levelled top P) (hlevels : levels < top)
    (h : Agree (Opened (P levels)) (P levels) nested nested') :
    Agree (P levels) (P (levels + 1)) (contentRule nested) (contentRule nested') :=
  (sumRule_agree hP h).bind fun _ => (Agree.closeParen hP hlevels).bind fun _ => Agree.pure _

/-- A call, which opens a block. -/
theorem callRule_agree (hP : Levelled top P)
    (h : Agree (Opened (P levels)) (P levels) nested nested') :
    Agree (P levels) (P levels) (callRule nested) (callRule nested') := by
  refine (Agree.nextWith_opened hP fun token htoken => ?_).bind fun _ => h
  cases token with
  | function => rfl
  | _ => contradiction

/-- A grammar that goes on with other rules where the bound on the blocks is reached. -/
theorem blockRule_agree (hP : Levelled top P) (other : ℕ → Rule K (Expression K))
    {last : Rule K (Expression K)} (hzero : other 0 = contentRule last)
    (hsucc : ∀ levels, other (levels + 1) = contentRule (other levels))
    (hlast : Agree (Opened (P 0)) (P 0) Rule.fail last) (hlevels : levels < top) :
    Agree (P levels) (P (levels + 1)) (blockRule levels) (other levels) := by
  -- With a level less, the content of the blocks inside agrees after the token that opens them.
  induction levels with
  | zero =>
    rw [hzero]
    exact contentRule_agree hP hlevels hlast
  | succ levels ih =>
    rw [hsucc]
    exact contentRule_agree hP hlevels ((ih (Nat.lt_of_succ_lt hlevels)).opened hP)

end CssColor.Expression
