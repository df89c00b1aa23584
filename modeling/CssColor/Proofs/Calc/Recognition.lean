import CssColor.Calc.Grammar
import CssColor.Proofs.Token.Recognition

/-!
# What the rules for expressions recognise

The tokens of a product are those of a value and of its further factors, and the tokens of a sum
those of a product and of its further addends. A further operand is the tokens of its sign between
blanks and those of the operand. All of this holds for any rule for the blocks nested in the
expression.
-/

namespace CssColor

/-- The character that stands for an operator. -/
def Operator.sign : Operator → Char
  | add => '+'
  | subtract => '-'
  | multiply => '*'
  | divide => '/'

namespace Expression

open Token Rule

variable {K : Type} {nested : Rule K (Expression K)} {Follows : List (Token K) → Prop}
  {head tail : List (Token K)} {tree : Expression K} {operands : List (Operator × Expression K)}
  {operator : Operator}

/-- The tokens of an operator between blanks. -/
def signTokens (operator : Operator) : List (Token K) :=
  [whitespace, delim operator.sign, whitespace]

/-- A list of tokens that does not go on with a further factor. -/
def EndsProduct (nested : Rule K (Expression K)) (tokens : List (Token K)) : Prop :=
  (factorRule nested tokens).1 = none

/-- A single operand stands for itself. -/
theorem ofOperands_nil (construct : List (Operator × Expression K) → Expression K) :
    ofOperands construct operator tree [] = tree := rfl

/-! ## Products -/

/-- A factor is read from the tokens of its sign and of its value. -/
theorem readsBefore_factorRule (hoperator : operator = .multiply ∨ operator = .divide)
    (h : ReadsBefore Follows (valueRule nested) head tree) :
    ReadsBefore Follows (factorRule nested) (signTokens operator ++ head) (operator, tree) := by
  intro rest hrest
  have hvalue : (valueRule nested >>= fun tree => pure (operator, tree)) (head ++ rest) =
      (some (operator, tree), rest) := by
    rw [bind_of_some (h rest hrest)]
    rfl
  rcases hoperator with rfl | rfl
  · exact hvalue
  · exact hvalue

/-- A value and the further factors that are repeated behind it. -/
theorem readsBefore_productRule (hhead : ReadsBefore (fun _ => True) (valueRule nested) head tree)
    (htail : Repeats (fun _ => True) (factorRule nested) tail operands) :
    ReadsBefore (EndsProduct nested) (productRule nested) (head ++ tail)
      (ofOperands .product .multiply tree operands) := by
  intro rest hrest
  unfold productRule
  rw [List.append_assoc, bind_of_some (hhead _ trivial), bind_of_some (htail.many trivial hrest)]
  rfl

/-- A value alone is a product. -/
theorem readsBefore_productRule_value (h : Reads (valueRule nested) head tree) :
    ReadsBefore (EndsProduct nested) (productRule nested) head tree := by
  have hproduct := readsBefore_productRule h.before Repeats.nil
  rwa [List.append_nil] at hproduct

/-! ## Sums -/

/-- An addend is read from the tokens of its sign and of its product. -/
theorem readsBefore_addendRule (hoperator : operator = .add ∨ operator = .subtract)
    (h : ReadsBefore Follows (productRule nested) head tree) :
    ReadsBefore Follows (addendRule nested) (signTokens operator ++ head) (operator, tree) := by
  intro rest hrest
  have hproduct : (productRule nested >>= fun tree => pure (operator, tree)) (head ++ rest) =
      (some (operator, tree), rest) := by
    rw [bind_of_some (h rest hrest)]
    rfl
  rcases hoperator with rfl | rfl
  · exact hproduct
  · exact hproduct

/-- No further factor starts with the sign of an addend. -/
theorem endsProduct_sign (hoperator : operator = .add ∨ operator = .subtract)
    (rest : List (Token K)) : EndsProduct nested (signTokens operator ++ rest) := by
  rcases hoperator with rfl | rfl
  · rfl
  · rfl

/-- Blanks in front of a value are skipped. -/
theorem skipsBlank_valueRule : SkipsBlank (valueRule nested) := skipsBlank_nextSolid.bind

/-- Blanks in front of the sign of a factor are skipped. -/
theorem skipsBlank_factorRule : SkipsBlank (factorRule nested) := skipsBlank_nextSolid.bind

/-- Blanks in front of a product are skipped. -/
theorem skipsBlank_productRule : SkipsBlank (productRule nested) := skipsBlank_valueRule.bind

/-- Blanks in front of the content of parentheses are skipped. -/
theorem skipsBlank_contentRule : SkipsBlank (contentRule nested) :=
  (skipsBlank_productRule.bind : SkipsBlank (sumRule nested)).bind

/-- No further addend comes in front of a closing parenthesis. -/
theorem addendRule_closeParen {after : List (Token K)} (hafter : AreBlank after)
    (rest : List (Token K)) :
    (addendRule nested (after ++ Token.closeParen :: rest)).1 = none := by
  cases after with
  | nil => rfl
  | cons token after =>
    rw [eq_whitespace (hafter token List.mem_cons_self)]
    -- Two blanks already show that no sign follows.
    cases after with
    | nil => rfl
    | cons token' after =>
      rw [eq_whitespace (hafter token' (List.mem_cons_of_mem _ List.mem_cons_self))]
      rfl

/-- A product and the further addends that are repeated behind it are the content of a block, and
blanks around them make no difference. -/
theorem reads_contentRule_blanks {before after : List (Token K)} (hbefore : AreBlank before)
    (hafter : AreBlank after)
    (hhead : ReadsBefore (EndsProduct nested) (productRule nested) head tree)
    (htail : Repeats (EndsProduct nested) (addendRule nested) tail operands) :
    Reads (contentRule nested) (before ++ (head ++ tail) ++ after ++ [.closeParen])
      (ofOperands .sum .add tree operands) := by
  intro rest
  -- No factor starts with the blanks in front of the parenthesis.
  have hends : EndsProduct nested (after ++ Token.closeParen :: rest) := by
    unfold EndsProduct
    rw [skipsBlank_factorRule.append hafter]
    rfl
  obtain ⟨hfollows, -⟩ := htail _ hends
  have hsum : sumRule nested (head ++ (tail ++ (after ++ Token.closeParen :: rest))) =
      (some (ofOperands .sum .add tree operands), after ++ Token.closeParen :: rest) := by
    unfold sumRule
    rw [bind_of_some (hhead _ hfollows),
      bind_of_some (htail.many hends (addendRule_closeParen hafter rest))]
    rfl
  have hclose : (closeParen : Rule K Unit) (after ++ Token.closeParen :: rest) =
      (some (), rest) := by
    have hskip : SkipsBlank (closeParen : Rule K Unit) := skipsBlank_nextWith _
    rw [hskip.append hafter]
    rfl
  simp only [List.append_assoc, List.singleton_append]
  rw [skipsBlank_contentRule.append hbefore, contentRule, bind_of_some hsum, bind_of_some hclose]
  rfl

/-- The content of parentheses is read from its products and the parenthesis that closes it. -/
theorem reads_contentRule
    (hhead : ReadsBefore (EndsProduct nested) (productRule nested) head tree)
    (htail : Repeats (EndsProduct nested) (addendRule nested) tail operands) :
    Reads (contentRule nested) (head ++ tail ++ [.closeParen])
      (ofOperands .sum .add tree operands) := by
  have hcontent := reads_contentRule_blanks areBlank_nil areBlank_nil hhead htail
  rwa [List.append_nil, List.nil_append] at hcontent

/-- A call reads the block behind the name. -/
theorem callRule_calc (block : Rule K (Expression K)) (tokens : List (Token K)) :
    callRule block (Token.function "calc" :: tokens) = block tokens := by
  have hname : Reads (nextWith (isFunction "calc")) [Token.function (K := K) "calc"] () :=
    reads_nextWith rfl (beq_self_eq_true _)
  exact bind_of_some (hname tokens)

end Expression

end CssColor
