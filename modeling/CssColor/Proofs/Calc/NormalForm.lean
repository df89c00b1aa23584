import CssColor.Proofs.Calc.LetterCase
import CssColor.Proofs.Calc.Recognition
import CssColor.Proofs.Value.BlockDepth

/-!
# Expressions in normal form

An expression is in normal form (`Expression.IsNormal`) if its leaves are terms that a token writes,
names in lower case, and each sum and product has two operands at least under the operators that
belong to it. These are the trees that the grammar gives, and each of them is read back from its own
tokens (`Expression.callTokens`), in which every sum or product that is an operand stands in
parentheses.
-/

namespace CssColor

variable {K : Type}

namespace Term

/-- The token that writes a term. A simplified expression has none. -/
def tokens : Term K → List (Token K)
  | number value => [.number value]
  | percentage value => [.percentage value]
  | dimension value unit => [.dimension value unit]
  | symbol name => [.ident name]
  | expression .. => []

/-- Whether a token writes the term, and its name is in lower case. -/
def IsLeaf : Term K → Prop
  | symbol name => name.toLower = name
  | expression .. => False
  | _ => True

end Term

namespace Expression

open Token Rule

/-! ## Trees and their tokens -/

/-- The trees over terms that tokens write, where sums and products have at least two operands: the
first one under `add` or `multiply`, the others under the operators of a sum or of a product. -/
inductive IsNormal : Expression K → Prop
  | leaf {term : Term K} (hterm : term.IsLeaf) : IsNormal (leaf term)
  | sum {first : Expression K} {rest : List (Operator × Expression K)} (hrest : rest ≠ [])
      (hoperators : ∀ operand ∈ rest, operand.1 = .add ∨ operand.1 = .subtract)
      (hoperands : ∀ operand ∈ (.add, first) :: rest, IsNormal operand.2) :
      IsNormal (sum ((.add, first) :: rest))
  | product {first : Expression K} {rest : List (Operator × Expression K)} (hrest : rest ≠ [])
      (hoperators : ∀ operand ∈ rest, operand.1 = .multiply ∨ operand.1 = .divide)
      (hoperands : ∀ operand ∈ (.multiply, first) :: rest, IsNormal operand.2) :
      IsNormal (product ((.multiply, first) :: rest))

mutual

/-- The tokens of an expression as an operand: a sum or a product stands in parentheses. -/
def tokens : Expression K → List (Token K)
  | leaf term => term.tokens
  | sum operands => .openParen :: (operandTokens operands ++ [.closeParen])
  | product operands => .openParen :: (operandTokens operands ++ [.closeParen])

/-- The tokens of operands, the first one without its operator. -/
def operandTokens : List (Operator × Expression K) → List (Token K)
  | [] => []
  | (_, first) :: rest => first.tokens ++ furtherTokens rest

/-- The tokens of operands, each behind its operator. -/
def furtherTokens : List (Operator × Expression K) → List (Token K)
  | [] => []
  | (operator, operand) :: rest => signTokens operator ++ operand.tokens ++ furtherTokens rest

end

/-- The tokens of an expression in a block of its own. -/
def contentTokens : Expression K → List (Token K)
  | leaf term => term.tokens
  | sum operands => operandTokens operands
  | product operands => operandTokens operands

/-- The tokens of a call of `calc()`. -/
def callTokens (tree : Expression K) : List (Token K) :=
  .function "calc" :: (tree.contentTokens ++ [.closeParen])

/-! ## Blocks that are closed -/

/-- Behind a pair of parentheses as many blocks are open as in front of it. -/
theorem depthAfter_paren {content : List (Token K)} (depth : ℕ)
    (h : ∀ depth, depthAfter depth content = depth) :
    depthAfter depth (.openParen :: (content ++ [.closeParen])) = depth := by
  rw [depthAfter_of_opens rfl, depthAfter_append, h, depthAfter_of_closes rfl]
  rfl

mutual

/-- An expression closes the blocks that it opens, and no others. -/
theorem depthAfter_tokens (depth : ℕ) : ∀ tree : Expression K,
    depthAfter depth tree.tokens = depth
  | leaf term => by cases term <;> rfl
  | sum operands => by
    rw [tokens]
    exact depthAfter_paren depth fun depth => depthAfter_operandTokens depth operands
  | product operands => by
    rw [tokens]
    exact depthAfter_paren depth fun depth => depthAfter_operandTokens depth operands

/-- Behind the tokens of operands as many blocks are open as in front of them. -/
theorem depthAfter_operandTokens (depth : ℕ) : ∀ operands : List (Operator × Expression K),
    depthAfter depth (operandTokens operands) = depth
  | [] => rfl
  | (_, first) :: rest => by
    rw [operandTokens, depthAfter_append, depthAfter_tokens depth first,
      depthAfter_furtherTokens depth rest]

/-- So it is behind the tokens of operands with their signs. -/
theorem depthAfter_furtherTokens (depth : ℕ) : ∀ operands : List (Operator × Expression K),
    depthAfter depth (furtherTokens operands) = depth
  | [] => rfl
  | (operator, operand) :: rest => by
    have hsign : depthAfter depth (signTokens operator : List (Token K)) = depth := rfl
    rw [furtherTokens, depthAfter_append, depthAfter_append, hsign, depthAfter_tokens depth operand,
      depthAfter_furtherTokens depth rest]

end

/-- The blocks in an operand are among those of all operands. -/
theorem nestingFrom_further_le (depth : ℕ) {operands : List (Operator × Expression K)}
    {operand : Operator × Expression K} (h : operand ∈ operands) :
    nestingFrom depth operand.2.tokens ≤ nestingFrom depth (furtherTokens operands) := by
  induction operands with
  | nil => cases h
  | cons other rest ih =>
    have hsign : depthAfter depth (signTokens other.1 : List (Token K)) = depth := rfl
    rw [furtherTokens, nestingFrom_append, nestingFrom_append, depthAfter_append, hsign,
      depthAfter_tokens]
    rcases List.mem_cons.1 h with rfl | h
    · exact le_max_of_le_left (le_max_right _ _)
    · exact le_max_of_le_right (ih h)

/-- The tokens of an operand are nested no deeper than those of all operands. -/
theorem nestingFrom_operand_le (depth : ℕ) {operands : List (Operator × Expression K)}
    {operand : Operator × Expression K} (h : operand ∈ operands) :
    nestingFrom depth operand.2.tokens ≤ nestingFrom depth (operandTokens operands) := by
  cases operands with
  | nil => cases h
  | cons first rest =>
    rw [operandTokens, nestingFrom_append, depthAfter_tokens]
    rcases List.mem_cons.1 h with rfl | h
    · exact le_max_left _ _
    · exact le_max_of_le_right (nestingFrom_further_le depth h)

/-! ## Reading the tokens of a tree -/

variable {nested : Rule K (Expression K)} {Follows : List (Token K) → Prop}
  {rest : List (Operator × Expression K)}

/-- Operands behind their operators are repetitions of the rule for a further operand. -/
theorem repeats_furtherTokens {further : Rule K (Operator × Expression K)}
    (hsign : ∀ operand ∈ rest, ∀ left, Follows (signTokens operand.1 ++ left))
    (h : ∀ operand ∈ rest, ReadsBefore Follows further
      (signTokens operand.1 ++ operand.2.tokens) operand) :
    Repeats Follows further (furtherTokens rest) rest := by
  induction rest with
  | nil => exact Repeats.nil
  | cons operand rest ih =>
    rw [furtherTokens]
    -- The sign of the next operand ends the one in front of it.
    have hoperand := (h operand List.mem_cons_self).repeats (List.cons_ne_nil _ _) fun left => by
      rw [List.append_assoc]
      exact hsign operand List.mem_cons_self _
    exact hoperand.append (ih (fun other hother => hsign other (List.mem_cons_of_mem _ hother))
      fun other hother => h other (List.mem_cons_of_mem _ hother))

/-- A sum is read from its operands. -/
theorem reads_sum {first : Expression K} (hrest : rest ≠ [])
    (hoperators : ∀ operand ∈ rest, operand.1 = .add ∨ operand.1 = .subtract)
    (hoperands : ∀ operand ∈ (.add, first) :: rest,
      Reads (valueRule nested) operand.2.tokens operand.2) :
    Reads (contentRule nested) (operandTokens ((.add, first) :: rest) ++ [.closeParen])
      (sum ((.add, first) :: rest)) := by
  obtain ⟨hfirst, hoperands⟩ := List.forall_mem_cons.1 hoperands
  -- An addend is a product of one factor, and ends where the next sign starts.
  have hfurther : Repeats (EndsProduct nested) (addendRule nested) (furtherTokens rest) rest :=
    repeats_furtherTokens (fun operand h => endsProduct_sign (hoperators operand h))
      fun operand h => readsBefore_addendRule (hoperators operand h)
        (readsBefore_productRule_value (hoperands operand h))
  have hsum := reads_contentRule (readsBefore_productRule_value hfirst) hfurther
  rw [ofOperands, if_neg (by rwa [List.isEmpty_iff])] at hsum
  rwa [operandTokens]

/-- A product is read from its operands. -/
theorem reads_product {first : Expression K} (hrest : rest ≠ [])
    (hoperators : ∀ operand ∈ rest, operand.1 = .multiply ∨ operand.1 = .divide)
    (hoperands : ∀ operand ∈ (.multiply, first) :: rest,
      Reads (valueRule nested) operand.2.tokens operand.2) :
    Reads (contentRule nested) (operandTokens ((.multiply, first) :: rest) ++ [.closeParen])
      (product ((.multiply, first) :: rest)) := by
  obtain ⟨hfirst, hoperands⟩ := List.forall_mem_cons.1 hoperands
  have hfurther : Repeats (fun _ => True) (factorRule nested) (furtherTokens rest) rest :=
    repeats_furtherTokens (fun _ _ _ => trivial)
      fun operand h => readsBefore_factorRule (hoperators operand h) (hoperands operand h).before
  have hproduct := reads_contentRule (readsBefore_productRule hfirst.before hfurther) Repeats.nil
  rw [ofOperands_nil, ofOperands, if_neg (by rwa [List.isEmpty_iff]), List.append_nil] at hproduct
  rwa [operandTokens]

/-- A term is read from its token. -/
theorem reads_leaf {term : Term K} (h : term.IsLeaf) :
    Reads (valueRule nested) term.tokens (leaf term) := by
  cases term with
  | symbol name =>
    have hlower : name.toLower = name := h
    intro rest
    show (some (leaf (.symbol name.toLower)), rest) = _
    rw [hlower]
  | expression => cases h
  | _ => exact fun _ => rfl

/-- A block in parentheses is read by its content, with a level less for the blocks in it. -/
theorem reads_paren {content : List (Token K)} {tree : Expression K} {levels depth : ℕ}
    (hlevels : nestingFrom depth (.openParen :: (content ++ [.closeParen])) ≤ depth + levels)
    (h : ∀ levels, nestingFrom (depth + 1) content ≤ depth + 1 + levels →
      Reads (contentRule (Rule.nested levels blockRule)) (content ++ [.closeParen]) tree) :
    Reads (valueRule (Rule.nested levels blockRule)) (.openParen :: (content ++ [.closeParen]))
      tree := by
  rw [nestingFrom_of_opens rfl, nestingFrom_append, max_le_iff] at hlevels
  have hdepth := le_nestingFrom (depth + 1) content
  -- The parenthesis takes a level, so there is one.
  cases levels with
  | zero => omega
  | succ levels =>
    have hcontent := h levels (by omega)
    rw [← blockRule_eq] at hcontent
    exact hcontent

/-- The operands of a tree in normal form are read, if there are levels for the blocks in them. -/
theorem IsNormal.reads_tokens {tree : Expression K} (h : tree.IsNormal) : ∀ levels depth,
    nestingFrom depth tree.tokens ≤ depth + levels →
      Reads (valueRule (Rule.nested levels blockRule)) tree.tokens tree := by
  induction h with
  | leaf hterm =>
    intro levels depth _
    rw [tokens]
    exact reads_leaf hterm
  -- A pair of parentheses takes one level, and its operands are read inside of it.
  | sum hrest hoperators _ ih =>
    intro levels depth hlevels
    rw [tokens] at hlevels ⊢
    exact reads_paren hlevels fun levels hcontent => reads_sum hrest hoperators
      fun operand hoperand => ih operand hoperand levels (depth + 1)
        ((nestingFrom_operand_le _ hoperand).trans hcontent)
  | product hrest hoperators _ ih =>
    intro levels depth hlevels
    rw [tokens] at hlevels ⊢
    exact reads_paren hlevels fun levels hcontent => reads_product hrest hoperators
      fun operand hoperand => ih operand hoperand levels (depth + 1)
        ((nestingFrom_operand_le _ hoperand).trans hcontent)

/-- A tree in normal form is read from the tokens of its content. -/
theorem IsNormal.reads_contentTokens {tree : Expression K} (h : tree.IsNormal) {levels depth : ℕ}
    (hlevels : nestingFrom depth tree.contentTokens ≤ depth + levels) :
    Reads (contentRule (Rule.nested levels blockRule)) (tree.contentTokens ++ [.closeParen])
      tree := by
  cases h with
  -- A leaf is a product of one factor in a sum of one addend.
  | leaf hterm =>
    have hproduct : ReadsBefore (EndsProduct (Rule.nested levels blockRule))
        (productRule (Rule.nested levels blockRule)) _ _ :=
      readsBefore_productRule_value (reads_leaf hterm)
    have hcontent := reads_contentRule hproduct Repeats.nil
    rwa [List.append_nil] at hcontent
  | sum hrest hoperators hoperands =>
    rw [contentTokens] at hlevels
    exact reads_sum hrest hoperators fun operand hoperand =>
      (hoperands operand hoperand).reads_tokens levels depth
        ((nestingFrom_operand_le _ hoperand).trans hlevels)
  | product hrest hoperators hoperands =>
    rw [contentTokens] at hlevels
    exact reads_product hrest hoperators fun operand hoperand =>
      (hoperands operand hoperand).reads_tokens levels depth
        ((nestingFrom_operand_le _ hoperand).trans hlevels)

/-- The call of a tree in normal form is read, if no block in it is nested more deeply than the
levels allow. -/
theorem IsNormal.reads_callTokens {tree : Expression K} (h : tree.IsNormal) {levels : ℕ}
    (hlevels : nesting tree.callTokens ≤ levels) : Reads (rule levels) tree.callTokens tree := by
  have hopens : (Token.function "calc" : Token K).opensBlock = true := rfl
  rw [nesting, callTokens, nestingFrom_of_opens hopens, nestingFrom_append, max_le_iff] at hlevels
  -- The call opens the outermost block, so one level is left at least.
  have hdepth := le_nestingFrom (0 + 1) tree.contentTokens
  cases levels with
  | zero => omega
  | succ levels =>
    have hroom : nestingFrom (0 + 1) tree.contentTokens ≤ 0 + 1 + levels := by omega
    have hcontent := h.reads_contentTokens hroom
    have hblock : (Rule.nested (levels + 1) blockRule : Rule K (Expression K)) =
        contentRule (Rule.nested levels blockRule) := blockRule_eq levels
    intro rest
    rw [rule, hblock]
    exact (callRule_calc _ _).trans (hcontent rest)

/-- A tree in normal form is read from its own tokens. -/
theorem IsNormal.run_callTokens {tree : Expression K} (h : tree.IsNormal) {levels : ℕ}
    (hlevels : nesting tree.callTokens ≤ levels) :
    (rule levels).run tree.callTokens = (some tree, []) := by
  have hread := h.reads_callTokens hlevels []
  rwa [List.append_nil] at hread

/-! ## The trees that the grammar gives -/

section Yields

variable (h : Yields IsNormal nested)

include h

/-- A value is read in normal form, if what stands in parentheses is. -/
theorem valueRule_isNormal : Yields IsNormal (valueRule nested) := by
  refine Yields.after fun token => ?_
  split
  · exact Yields.pure (.leaf trivial)
  · exact Yields.pure (.leaf trivial)
  · exact Yields.pure (.leaf trivial)
  · exact Yields.pure (.leaf (toLower_toLower_text _))
  · exact h
  · exact Yields.ite (fun _ => h) fun _ => Yields.fail
  · exact Yields.fail

/-- A factor is read in normal form with a sign of products. -/
theorem factorRule_isNormal : Yields
    (fun operand => (operand.1 = .multiply ∨ operand.1 = .divide) ∧ operand.2.IsNormal)
    (factorRule nested) := by
  refine Yields.after fun token => ?_
  split
  · exact (valueRule_isNormal h).bind fun _ hvalue => Yields.pure ⟨.inl rfl, hvalue⟩
  · exact (valueRule_isNormal h).bind fun _ hvalue => Yields.pure ⟨.inr rfl, hvalue⟩
  · exact Yields.fail

/-- A product is read in normal form. -/
theorem productRule_isNormal : Yields IsNormal (productRule nested) := by
  refine (valueRule_isNormal h).bind fun first hfirst => (factorRule_isNormal h).many.bind
    fun rest hrest => Yields.pure ?_
  cases rest with
  | nil => exact hfirst
  | cons operand rest =>
    exact .product (List.cons_ne_nil _ _) (fun other hother => (hrest other hother).1)
      (List.forall_mem_cons.2 ⟨hfirst, fun other hother => (hrest other hother).2⟩)

/-- An addend is read in normal form with a sign of sums. -/
theorem addendRule_isNormal : Yields
    (fun operand => (operand.1 = .add ∨ operand.1 = .subtract) ∧ operand.2.IsNormal)
    (addendRule nested) := by
  have hsign : Yields (fun operator => operator = .add ∨ operator = .subtract)
      (signRule : Rule K Operator) := by
    refine Yields.after fun _ => Yields.after fun token => ?_
    split
    · exact Yields.after fun _ => Yields.pure (.inl rfl)
    · exact Yields.after fun _ => Yields.pure (.inr rfl)
    · exact Yields.fail
  -- An addend is a product behind its sign.
  exact hsign.bind fun _ hoperator => (productRule_isNormal h).bind fun _ hproduct =>
    Yields.pure ⟨hoperator, hproduct⟩

/-- The content of parentheses is read in normal form. -/
theorem contentRule_isNormal : Yields IsNormal (contentRule nested) := by
  refine Yields.bind ?_ fun _ hsum => Yields.after fun _ => Yields.pure hsum
  refine (productRule_isNormal h).bind fun first hfirst => (addendRule_isNormal h).many.bind
    fun rest hrest => Yields.pure ?_
  cases rest with
  | nil => exact hfirst
  | cons operand rest =>
    exact .sum (List.cons_ne_nil _ _) (fun other hother => (hrest other hother).1)
      (List.forall_mem_cons.2 ⟨hfirst, fun other hother => (hrest other hother).2⟩)

end Yields

/-- A block is read in normal form, by induction on the levels it may use. -/
theorem blockRule_isNormal (levels : ℕ) :
    Yields IsNormal (blockRule levels : Rule K (Expression K)) := by
  induction levels with
  | zero => exact contentRule_isNormal Yields.fail
  | succ levels ih => exact contentRule_isNormal ih

/-- The grammar gives trees in normal form only. -/
theorem rule_isNormal (levels : ℕ) : Yields IsNormal (rule levels : Rule K (Expression K)) := by
  refine Yields.after fun _ => ?_
  cases levels with
  | zero => exact Yields.fail
  | succ levels => exact blockRule_isNormal levels

/-- Where as many levels of blocks are allowed as there are in the tokens of a call, the trees in
normal form are read back from their tokens, whatever follows them; and these are the only trees
that are read at all. -/
theorem rule_reads_normalForm (levels : ℕ) :
    (∀ tree : Expression K, tree.IsNormal → nesting tree.callTokens ≤ levels →
      Reads (rule levels) tree.callTokens tree) ∧
    Yields IsNormal (rule levels : Rule K (Expression K)) :=
  ⟨fun _ h hlevels => h.reads_callTokens hlevels, rule_isNormal levels⟩

/-- A sum in a product in a sum stands in two pairs of parentheses. -/
theorem rule_reads_normalForm_nested :
    let tree : Expression ℕ := .sum [(.add, .leaf (.symbol "a")), (.subtract, .product
      [(.multiply, .leaf (.number 2)), (.divide, .sum
        [(.add, .leaf (.symbol "b")), (.add, .leaf (.dimension 3 "px"))])])]
    tree.IsNormal ∧ nesting tree.callTokens ≤ 3 ∧ Reads (rule 3)
      [.function "calc", .ident "a", .whitespace, .delim '-', .whitespace, .openParen, .number 2,
        .whitespace, .delim '/', .whitespace, .openParen, .ident "b", .whitespace, .delim '+',
        .whitespace, .dimension 3 "px", .closeParen, .closeParen, .closeParen] tree := by
  intro tree
  have hname : ∀ name : String, name.toLower = name → IsNormal (leaf (.symbol name : Term ℕ)) :=
    fun _ h => .leaf h
  -- The divisor is a sum in parentheses, inside of the product that is subtracted.
  have hnormal : tree.IsNormal := by
    refine .sum (by simp) (by simp) (List.forall_mem_cons.2 ⟨hname "a" (by cbv), ?_⟩)
    refine List.forall_mem_singleton.2 (.product (by simp) (by simp)
      (List.forall_mem_cons.2 ⟨.leaf trivial, List.forall_mem_singleton.2 ?_⟩))
    exact .sum (by simp) (by simp)
      (List.forall_mem_cons.2 ⟨hname "b" (by cbv), List.forall_mem_singleton.2 (.leaf trivial)⟩)
  have hnesting : nesting tree.callTokens ≤ 3 := by decide
  exact ⟨hnormal, hnesting, (rule_reads_normalForm 3).1 tree hnormal hnesting⟩

end Expression

end CssColor
