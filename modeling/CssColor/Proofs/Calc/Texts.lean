import CssColor.Proofs.Calc.Recognition
import CssColor.Proofs.Calc.Soundness
import CssColor.Proofs.Token.Blanks
import CssColor.Proofs.Value.BlockDepth
import Mathlib

/-!
# Texts that are read as expressions

The trees of the texts that the grammar reads as values, products and sums: a product is a chain of
values with signs between them, a sum a chain of products (`Expression.ReadsAsChain`), and a sum in
parentheses is a value. Chains can be joined by a sign, so the text of a product can stand in a
product and the text of a sum in a sum without parentheses. Of the trees it is often enough to know
that they are sound over some names (`Expression.IsSumText`).
-/

namespace CssColor

open Token Rule

/-! ## References -/

/-- No token refers to a property. -/
def Token.RefersToNone {K : Type} (tokens : List (Token K)) : Prop :=
  ∀ token ∈ tokens, token.isFunction "var" = false

namespace Token.RefersToNone

variable {K : Type} {tokens tokens' : List (Token K)} {token : Token K}

/-- Tokens one after the other refer to no property if none of them does. -/
theorem append (h : RefersToNone tokens) (h' : RefersToNone tokens') :
    RefersToNone (tokens ++ tokens') := by
  intro token htoken
  rcases List.mem_append.1 htoken with htoken | htoken
  · exact h token htoken
  · exact h' token htoken

/-- A token that does not refer to a property may stand in front. -/
theorem cons (h : token.isFunction "var" = false) (h' : RefersToNone tokens) :
    RefersToNone (token :: tokens) := by
  intro other hother
  rcases List.mem_cons.1 hother with rfl | hother
  · exact h
  · exact h' other hother

/-- A single token that is no call of `var()`. -/
theorem singleton (h : token.isFunction "var" = false) : RefersToNone [token] :=
  cons h fun _ h => nomatch h

/-- Blanks refer to no property. -/
theorem of_areBlank (h : AreBlank tokens) : RefersToNone tokens := by
  intro token htoken
  rw [eq_whitespace (h token htoken)]
  rfl

end Token.RefersToNone

namespace Expression

variable {K : Type} [Scalar K] {names : List String} {text text' : String}
  {tree tree' : Expression K} {operands operands' : List (Operator × Expression K)}

/-! ## Chains -/

omit [Scalar K] in
/-- A sign between blanks refers to no property. -/
theorem refersToNone_signTokens (operator : Operator) :
    RefersToNone (signTokens operator : List (Token K)) :=
  RefersToNone.cons rfl (RefersToNone.cons rfl (RefersToNone.singleton rfl))

/-- The text is read as operands: the first one by one rule, the further ones by the repetition of
another, as long as what follows has the property `Follows`. -/
def ReadsAsChain (Follows : List (Token K) → Prop) (first : Rule K (Expression K))
    (further : Rule K (Operator × Expression K)) (text : String) (tree : Expression K)
    (operands : List (Operator × Expression K)) : Prop :=
  ∃ head tail, Holds text (head ++ tail) ∧ RefersToNone (head ++ tail) ∧
    ReadsBefore Follows first head tree ∧ Repeats Follows further tail operands

section Chains

variable {Follows : List (Token K) → Prop} {first : Rule K (Expression K)}
  {further : Rule K (Operator × Expression K)}

/-- A sign between blanks, behind which a further operand is read as the first one is. -/
structure IsSign (Follows : List (Token K) → Prop) (first : Rule K (Expression K))
    (further : Rule K (Operator × Expression K)) (text : String) (operator : Operator) : Prop where
  text : text.toList = [' ', operator.sign, ' ']
  follows : ∀ rest, Follows (signTokens operator ++ rest)
  reads : ∀ {tokens tree}, ReadsBefore Follows first tokens tree →
    ReadsBefore Follows further (signTokens operator ++ tokens) (operator, tree)

/-- Two chains with a sign between them are a chain. -/
theorem ReadsAsChain.join {separator : String} {operator : Operator}
    (hsign : IsSign Follows first further separator operator)
    (h : ReadsAsChain Follows first further text tree operands)
    (h' : ReadsAsChain Follows first further text' tree' operands') :
    ReadsAsChain Follows first further (text ++ separator ++ text') tree
      (operands ++ (operator, tree') :: operands') := by
  obtain ⟨head, tail, hholds, hnone, hhead, htail⟩ := h
  obtain ⟨head', tail', hholds', hnone', hhead', htail'⟩ := h'
  -- The second chain is one more operand, with the sign in front of it.
  have hoperand := (hsign.reads hhead').repeats (List.cons_ne_nil _ _) fun rest => by
    rw [List.append_assoc]
    exact hsign.follows _
  refine ⟨head, tail ++ (signTokens operator ++ head' ++ tail'), ?_, ?_, hhead,
    htail.append (hoperand.append htail')⟩
  · have hblank : isBlank operator.sign = false := by cases operator <;> rfl
    have hall : Holds (text ++ separator ++ text')
        (head ++ tail ++ signTokens operator ++ (head' ++ tail')) :=
      hholds.join hsign.text hblank (fun _ => by cases operator <;> rfl) hholds'
    simpa only [List.append_assoc] using hall
  · have hall := (hnone.append (refersToNone_signTokens operator)).append hnone'
    simpa only [List.append_assoc] using hall

end Chains

/-! ## The trees of values, products and sums -/

/-- The text is read as a value with the tree. -/
def ReadsAsValue (text : String) (tree : Expression K) : Prop :=
  ∃ tokens : List (Token K), Forms text tokens ∧ RefersToNone tokens ∧
    Reads (valueRule unlimitedBlock) tokens tree

/-- The text is read as a product of the values. -/
def ReadsAsProduct (text : String) (tree : Expression K)
    (factors : List (Operator × Expression K)) : Prop :=
  ReadsAsChain (fun _ => True) (valueRule unlimitedBlock) (factorRule unlimitedBlock) text tree
    factors

/-- The text is read as a sum of the products. -/
def ReadsAsSum (text : String) (tree : Expression K) (addends : List (Operator × Expression K)) :
    Prop :=
  ReadsAsChain (EndsProduct unlimitedBlock) (productRule unlimitedBlock)
    (addendRule unlimitedBlock) text tree addends

/-- A text of a single token that a value consists of. -/
theorem readsAsValue_of_token {token : Token K} (hforms : Forms text [token])
    (hnone : token.isFunction "var" = false)
    (hreads : ∀ rest, valueRule unlimitedBlock (token :: rest) = (some tree, rest)) :
    ReadsAsValue text tree := ⟨[token], hforms, RefersToNone.singleton hnone, hreads⟩

/-- A name is read as a symbol in lower case. -/
theorem readsAsValue_name {name : String} (hword : IsWord name = true) :
    ReadsAsValue name (leaf (.symbol name.toLower) : Expression K) :=
  readsAsValue_of_token (forms_word hword) rfl fun _ => rfl

/-- The text of a finite number is read as the number that is printed. -/
theorem readsAsValue_number {value : K} (h : Scalar.isFinite value = true) :
    ReadsAsValue (Scalar.text value) (leaf (.number (Scalar.printed value))) :=
  readsAsValue_of_token (forms_number h) rfl fun _ => rfl

/-- The factor that changes a sign is read as the number minus one. -/
theorem readsAsValue_minusOne :
    ReadsAsValue "-1" (leaf (.number (Decimal.toNumber ⟨true, 1, 0⟩)) : Expression K) := by
  have hforms : Forms (K := K) "-1" [Token.number (Decimal.toNumber ⟨true, 1, 0⟩)] :=
    ⟨spells_numeral (d := ⟨true, 1, 0⟩) (by decide), rfl⟩
  exact readsAsValue_of_token hforms rfl fun _ => rfl

/-- The text of a percentage is read as the percentage that is printed. -/
theorem readsAsValue_percentage {value : K} (h : Scalar.isFinite value = true) :
    ReadsAsValue (Scalar.text value ++ "%") (leaf (.percentage (Scalar.printed value))) :=
  readsAsValue_of_token (forms_percentage h) rfl fun _ => rfl

/-- The text of a number with a unit is read as the value that is printed. -/
theorem readsAsValue_dimension {value : K} {unit : String} (h : Scalar.isFinite value = true)
    (hunit : IsUnit unit = true) : ReadsAsValue (Scalar.text value ++ unit)
      (leaf (.dimension (Scalar.printed value) unit.toLower)) :=
  readsAsValue_of_token (forms_dimension h hunit) rfl fun _ => rfl

/-- A value is a product. -/
theorem ReadsAsValue.product (h : ReadsAsValue text tree) : ReadsAsProduct text tree [] := by
  obtain ⟨tokens, hforms, hnone, hreads⟩ := h
  refine ⟨tokens, [], ?_, ?_, hreads.before, Repeats.nil⟩
  · rw [List.append_nil]
    exact hforms.holds
  · rwa [List.append_nil]

omit [Scalar K] in
/-- A multiplication sign between blanks, in front of a further factor. -/
theorem isSign_times : IsSign (K := K) (fun _ => True) (valueRule unlimitedBlock)
    (factorRule unlimitedBlock) " * " .multiply where
  text := rfl
  follows _ := trivial
  reads h := readsBefore_factorRule (.inl rfl) h

omit [Scalar K] in
/-- A division sign between blanks, in front of a further factor. -/
theorem isSign_over : IsSign (K := K) (fun _ => True) (valueRule unlimitedBlock)
    (factorRule unlimitedBlock) " / " .divide where
  text := rfl
  follows _ := trivial
  reads h := readsBefore_factorRule (.inr rfl) h

/-- Products may be multiplied by one another without parentheses. -/
theorem ReadsAsProduct.times (h : ReadsAsProduct text tree operands)
    (h' : ReadsAsProduct text' tree' operands') :
    ReadsAsProduct (text ++ " * " ++ text') tree
      (operands ++ (.multiply, tree') :: operands') := ReadsAsChain.join isSign_times h h'

/-- A product may be divided by the first factor of another one. -/
theorem ReadsAsProduct.dividedBy (h : ReadsAsProduct text tree operands)
    (h' : ReadsAsProduct text' tree' operands') :
    ReadsAsProduct (text ++ " / " ++ text') tree
      (operands ++ (.divide, tree') :: operands') := ReadsAsChain.join isSign_over h h'

/-- A product is a sum. -/
theorem ReadsAsProduct.sum (h : ReadsAsProduct text tree operands) :
    ReadsAsSum text (ofOperands .product .multiply tree operands) [] := by
  obtain ⟨head, tail, hholds, hnone, hhead, htail⟩ := h
  refine ⟨head ++ tail, [], ?_, ?_, readsBefore_productRule hhead htail, Repeats.nil⟩
  · rwa [List.append_nil]
  · rwa [List.append_nil]

omit [Scalar K] in
/-- A plus sign between blanks, in front of a further product. -/
theorem isSign_plus : IsSign (K := K) (EndsProduct unlimitedBlock) (productRule unlimitedBlock)
    (addendRule unlimitedBlock) " + " .add where
  text := rfl
  follows := endsProduct_sign (.inl rfl)
  reads h := readsBefore_addendRule (.inl rfl) h

omit [Scalar K] in
/-- A minus sign between blanks, in front of a further product. -/
theorem isSign_minus : IsSign (K := K) (EndsProduct unlimitedBlock) (productRule unlimitedBlock)
    (addendRule unlimitedBlock) " - " .subtract where
  text := rfl
  follows := endsProduct_sign (.inr rfl)
  reads h := readsBefore_addendRule (.inr rfl) h

/-- Sums may be added to one another without parentheses. -/
theorem ReadsAsSum.plus (h : ReadsAsSum text tree operands)
    (h' : ReadsAsSum text' tree' operands') :
    ReadsAsSum (text ++ " + " ++ text') tree (operands ++ (.add, tree') :: operands') :=
  ReadsAsChain.join isSign_plus h h'

/-- The first product of a sum may be subtracted from another sum. -/
theorem ReadsAsSum.minus (h : ReadsAsSum text tree operands)
    (h' : ReadsAsSum text' tree' operands') :
    ReadsAsSum (text ++ " - " ++ text') tree (operands ++ (.subtract, tree') :: operands') :=
  ReadsAsChain.join isSign_minus h h'

/-- A sum is the content of a block. -/
theorem ReadsAsSum.exists_reads (h : ReadsAsSum text tree operands) :
    ∃ tokens : List (Token K), Spells (StartsWith ')') text tokens ∧ RefersToNone tokens ∧
      Reads unlimitedBlock (tokens ++ [.closeParen]) (ofOperands .sum .add tree operands) := by
  obtain ⟨head, tail, hholds, hnone, hhead, htail⟩ := h
  obtain ⟨-, before, after, hbefore, hafter, -, hspells⟩ := hholds
  refine ⟨before ++ (head ++ tail) ++ after, hspells, ?_, ?_⟩
  · exact (RefersToNone.of_areBlank hbefore).append hnone |>.append (.of_areBlank hafter)
  · rw [unlimitedBlock_eq]
    exact reads_contentRule_blanks hbefore hafter hhead htail

/-- A sum in parentheses is a value. -/
theorem ReadsAsSum.paren (h : ReadsAsSum text tree operands) :
    ReadsAsValue ("(" ++ text ++ ")") (ofOperands .sum .add tree operands) := by
  obtain ⟨tokens, hspells, hnone, hreads⟩ := h.exists_reads
  exact ⟨_, hspells.paren, RefersToNone.cons rfl (hnone.append (RefersToNone.singleton rfl)),
    fun rest => hreads rest⟩

/-! ## Sound values -/

/-- The text is read as a value over the given names. -/
def IsValueText (K : Type) [Scalar K] (names : List String) (text : String) : Prop :=
  ∃ tree : Expression K, ReadsAsValue text tree ∧ tree.IsSound names

/-- A name that may be used is the text of a value. -/
theorem isValueText_name {name : String} (hword : IsWord name = true)
    (h : isConstant name.toLower = true ∨ name.toLower ∈ names) : IsValueText K names name :=
  ⟨_, readsAsValue_name hword, isSound_symbol h⟩

/-- Every number has a text that is read as a value: the names of those that are not finite are
constants. -/
theorem isValueText_number (value : K) : IsValueText K names (Scalar.text value) := by
  cases hfinite : Scalar.isFinite value with
  | true => exact ⟨_, readsAsValue_number hfinite, isSound_number _⟩
  | false =>
    -- A number that is not finite is written by its name.
    have hnan : IsValueText K names "NaN" := isValueText_name rfl (.inl (by cbv))
    have hpositive : IsValueText K names "Infinity" := isValueText_name rfl (.inl (by cbv))
    have hnegative : IsValueText K names "-Infinity" := isValueText_name rfl (.inl (by cbv))
    unfold Scalar.isFinite at hfinite
    unfold Scalar.text
    cases hexact : Scalar.exact value with
    | nan negative => exact hnan
    | infinite negative =>
      cases negative with
      | true => exact hnegative
      | false => exact hpositive
    | finite negative magnitude =>
      rw [hexact] at hfinite
      cases hfinite

/-- A finite percentage is the text of a value. -/
theorem isValueText_percentage {value : K} (h : Scalar.isFinite value = true) :
    IsValueText K names (Scalar.text value ++ "%") :=
  ⟨_, readsAsValue_percentage h, isSound_percentage _⟩

/-- A finite number with a unit is the text of a value. -/
theorem isValueText_dimension {value : K} {unit : String} (h : Scalar.isFinite value = true)
    (hunit : IsUnit unit = true) : IsValueText K names (Scalar.text value ++ unit) :=
  ⟨_, readsAsValue_dimension h hunit, isSound_dimension _ _⟩

/-! ## Sound products -/

/-- The text is read as a product over the given names. -/
def IsProductText (K : Type) [Scalar K] (names : List String) (text : String) : Prop :=
  ∃ (tree : Expression K) (factors : List (Operator × Expression K)),
    ReadsAsProduct text tree factors ∧ tree.IsSound names ∧
      ∀ operand ∈ factors, operand.2.IsSound names

/-- A value is a product of one factor. -/
theorem IsValueText.product (h : IsValueText K names text) : IsProductText K names text := by
  obtain ⟨tree, hreads, htree⟩ := h
  exact ⟨tree, [], hreads.product, htree, fun _ h => nomatch h⟩

omit [Scalar K] in
/-- What holds of the operands of two chains and of the first operand of the second holds of all
further operands of the chain that joins them. -/
theorem forall_mem_joined {P : Expression K → Prop} {operator : Operator}
    (h : ∀ operand ∈ operands, P operand.2) (htree' : P tree')
    (h' : ∀ operand ∈ operands', P operand.2) :
    ∀ operand ∈ operands ++ (operator, tree') :: operands', P operand.2 :=
  List.forall_mem_append.2 ⟨h, List.forall_mem_cons.2 ⟨htree', h'⟩⟩

/-- The text of a product by a product. -/
theorem IsProductText.times (h : IsProductText K names text) (h' : IsProductText K names text') :
    IsProductText K names (text ++ " * " ++ text') := by
  obtain ⟨tree, factors, hreads, htree, hfactors⟩ := h
  obtain ⟨tree', factors', hreads', htree', hfactors'⟩ := h'
  exact ⟨tree, _, hreads.times hreads', htree, forall_mem_joined hfactors htree' hfactors'⟩

/-- The text of a product over a product. -/
theorem IsProductText.dividedBy (h : IsProductText K names text) (h' : IsProductText K names text') :
    IsProductText K names (text ++ " / " ++ text') := by
  obtain ⟨tree, factors, hreads, htree, hfactors⟩ := h
  obtain ⟨tree', factors', hreads', htree', hfactors'⟩ := h'
  exact ⟨tree, _, hreads.dividedBy hreads', htree, forall_mem_joined hfactors htree' hfactors'⟩

/-! ## Sound sums -/

/-- The text is read as a sum over the given names. -/
def IsSumText (K : Type) [Scalar K] (names : List String) (text : String) : Prop :=
  ∃ (tree : Expression K) (addends : List (Operator × Expression K)),
    ReadsAsSum text tree addends ∧ tree.IsSound names ∧
      ∀ operand ∈ addends, operand.2.IsSound names

/-- A product is a sum of one operand. -/
theorem IsProductText.sum (h : IsProductText K names text) : IsSumText K names text := by
  obtain ⟨tree, factors, hreads, htree, hfactors⟩ := h
  exact ⟨_, [], hreads.sum, isSound_ofOperands_product htree hfactors, fun _ h => nomatch h⟩

/-- The text of a sum plus a sum. -/
theorem IsSumText.plus (h : IsSumText K names text) (h' : IsSumText K names text') :
    IsSumText K names (text ++ " + " ++ text') := by
  obtain ⟨tree, addends, hreads, htree, haddends⟩ := h
  obtain ⟨tree', addends', hreads', htree', haddends'⟩ := h'
  exact ⟨tree, _, hreads.plus hreads', htree, forall_mem_joined haddends htree' haddends'⟩

/-- The text of a sum minus a sum. -/
theorem IsSumText.minus (h : IsSumText K names text) (h' : IsSumText K names text') :
    IsSumText K names (text ++ " - " ++ text') := by
  obtain ⟨tree, addends, hreads, htree, haddends⟩ := h
  obtain ⟨tree', addends', hreads', htree', haddends'⟩ := h'
  exact ⟨tree, _, hreads.minus hreads', htree, forall_mem_joined haddends htree' haddends'⟩

/-- A sum in parentheses is a value. -/
theorem IsSumText.paren (h : IsSumText K names text) :
    IsValueText K names ("(" ++ text ++ ")") := by
  obtain ⟨tree, addends, hreads, htree, haddends⟩ := h
  exact ⟨_, hreads.paren, isSound_ofOperands_sum htree haddends⟩

end Expression

end CssColor
