import CssColor.Proofs.Calc.Texts

/-!
# Rules for expressions are local

What the rules for expressions take off one list of tokens they take off any list that those tokens
are in front of, up to the blanks around them (`Expression.exists_of_contentRule`). So a text that
is read in a call of `calc()` is read as a sum wherever else it is split into the same tokens
(`Expression.exists_readsAsSum`).
-/

namespace CssColor

open Token Rule

namespace Token

variable {K : Type} {tokens tokens' : List (Token K)} {token : Token K}

/-- The tokens do not end with a blank, and refer to no property. -/
structure IsClean (tokens : List (Token K)) : Prop where
  solid : ∀ last ∈ tokens.getLast?, last.isWhitespace = false
  refersToNone : RefersToNone tokens

/-- No tokens are clean. -/
theorem isClean_nil : IsClean ([] : List (Token K)) :=
  ⟨fun _ h => (nomatch h), fun _ h => nomatch h⟩

/-- Clean tokens in front of clean tokens. -/
theorem IsClean.append (h : IsClean tokens) (h' : IsClean tokens') :
    IsClean (tokens ++ tokens') := by
  refine ⟨fun last hlast => ?_, h.refersToNone.append h'.refersToNone⟩
  rw [List.getLast?_append, Option.mem_def, Option.or_eq_some_iff] at hlast
  rcases hlast with hlast | ⟨-, hlast⟩
  · exact h'.solid last hlast
  · exact h.solid last hlast

/-- A single token is clean if it is neither a blank nor a reference. -/
theorem isClean_singleton (h : token.isWhitespace = false)
    (hnone : token.isFunction "var" = false) : IsClean [token] := by
  refine ⟨fun last hlast => ?_, RefersToNone.singleton hnone⟩
  rwa [← Option.some.inj hlast]

/-- A token that is neither a blank nor a reference, in front of clean tokens. -/
theorem IsClean.cons (h : token.isWhitespace = false) (hnone : token.isFunction "var" = false)
    (hrest : IsClean tokens) : IsClean (token :: tokens) :=
  (isClean_singleton h hnone).append hrest

/-- What the tokens end with decides. -/
theorem IsClean.prepend (hbefore : RefersToNone tokens) (h : IsClean tokens')
    (hne : tokens' ≠ []) : IsClean (tokens ++ tokens') := by
  refine ⟨fun last hlast => ?_, hbefore.append h.refersToNone⟩
  rw [List.getLast?_append_of_ne_nil _ hne] at hlast
  exact h.solid last hlast

end Token

namespace Rule

variable {K α : Type} {tokens rest : List (Token K)}

/-- The next token is the first one, whatever it is. -/
theorem next_eq_some_iff {token : Token K} : next tokens = (some token, rest) ↔
    tokens = token :: rest := by
  cases tokens with
  | nil => exact ⟨fun h => (nomatch h), fun h => nomatch h⟩
  | cons first tail =>
    constructor
    · intro h
      cases h
      rfl
    · rintro ⟨⟩
      rfl

/-- A blank is the first token, since none is skipped. -/
theorem blank_eq_some_iff : blank tokens = (some (), rest) ↔ tokens = whitespace :: rest := by
  unfold blank
  rw [bind_eq_some_iff]
  constructor
  · rintro ⟨token, left, hnext, hblank⟩
    rw [next_eq_some_iff.1 hnext]
    cases token with
    | whitespace =>
      cases hblank
      rfl
    | _ => cases hblank
  · rintro rfl
    exact ⟨whitespace, rest, rfl, rfl⟩

/-- Blanks in front of the parenthesis that closes a block are skipped. -/
theorem closeParen_eq_some_iff : closeParen tokens = (some (), rest) ↔
    ∃ before, AreBlank before ∧ tokens = before ++ Token.closeParen :: rest := by
  unfold closeParen nextWith
  rw [bind_eq_some_iff]
  constructor
  · rintro ⟨token, left, hsolid, hclose⟩
    obtain ⟨-, hbefore⟩ := nextSolid_eq_some_iff.1 hsolid
    cases token with
    | closeParen =>
      cases hclose
      exact hbefore
    | _ => cases hclose
  · intro hbefore
    exact ⟨Token.closeParen, rest, nextSolid_eq_some_iff.2 ⟨rfl, hbefore⟩, rfl⟩

/-- If what a rule takes is local, then so is what its repetition takes. -/
theorem exists_of_many {Follows : List (Token K) → Prop} {r : Rule K α} {size : ℕ}
    (h : ∀ tokens a rest, tokens.length ≤ size → r tokens = (some a, rest) → ∃ used,
      used ≠ [] ∧ tokens = used ++ rest ∧ IsClean used ∧ Repeats Follows r used [a])
    (hlength : tokens.length ≤ size) {as : List α} (hmany : many r tokens = (some as, rest)) :
    ∃ used, tokens = used ++ rest ∧ IsClean used ∧ Repeats Follows r used as := by
  have hrepeated : r.repeated tokens = (as, rest) := by
    cases hmany
    rfl
  clear hmany
  -- Each run takes at least one token, so the induction is on the length.
  induction hsize : tokens.length using Nat.strong_induction_on generalizing tokens as with
  | _ length ih =>
    subst hsize
    rw [repeated] at hrepeated
    rcases hr : r tokens with ⟨_ | a, left⟩
    · rw [hr] at hrepeated
      cases hrepeated
      exact ⟨[], rfl, isClean_nil, Repeats.nil⟩
    · rw [hr] at hrepeated
      obtain ⟨used, hne, rfl, hclean, hrepeats⟩ := h tokens a left hlength hr
      -- Since tokens were taken, the repetition goes on.
      have hshorter : left.length < (used ++ left).length := by
        rw [List.length_append]
        exact Nat.lt_add_of_pos_left (List.length_pos_iff.2 hne)
      dsimp only at hrepeated
      rw [if_pos hshorter] at hrepeated
      obtain ⟨rfl, hrest⟩ := Prod.mk.inj hrepeated
      obtain ⟨used', hleft, hclean', hrepeats'⟩ :=
        ih left.length hshorter (hshorter.le.trans hlength) (Prod.ext rfl hrest) rfl
      refine ⟨used ++ used', ?_, hclean.append hclean', hrepeats.append hrepeats'⟩
      rw [List.append_assoc, ← hleft]

end Rule

namespace Expression

variable {K : Type} {nested : Rule K (Expression K)} {size : ℕ} {used tokens rest : List (Token K)}
  {tree : Expression K} {operator : Operator}

/-! ## The rules -/

/-- What the rule takes off a list of fewer than `size` tokens it takes off any other list. -/
def IsLocal (size : ℕ) (nested : Rule K (Expression K)) : Prop :=
  ∀ tokens tree rest, tokens.length < size → nested tokens = (some tree, rest) → ∃ used,
    tokens = used ++ rest ∧ IsClean used ∧ Reads nested used tree

/-- The tokens are those of a value. -/
structure IsValue (nested : Rule K (Expression K)) (used : List (Token K)) (tree : Expression K) :
    Prop where
  starts : StartsSolid used
  clean : IsClean used
  reads : Reads (valueRule nested) used tree

/-- The tokens are those of a product. -/
structure IsProduct (nested : Rule K (Expression K)) (used : List (Token K))
    (tree : Expression K) : Prop where
  starts : StartsSolid used
  clean : IsClean used
  reads : ReadsBefore (EndsProduct nested) (productRule nested) used tree

/-- A value is a token, or a block behind the token that opens it. -/
theorem exists_of_valueRule (hnested : IsLocal size nested) (hlength : tokens.length ≤ size)
    (h : valueRule nested tokens = (some tree, rest)) : ∃ before used, AreBlank before ∧
      tokens = before ++ (used ++ rest) ∧ IsValue nested used tree := by
  obtain ⟨token, left, hnext, hrule⟩ := bind_eq_some_iff.1 h
  obtain ⟨hsolid, before, hbefore, rfl⟩ := nextSolid_eq_some_iff.1 hnext
  have hshorter : left.length < size := by
    rw [List.length_append, List.length_cons] at hlength
    omega
  -- It is enough to look at what follows the first token that is not a blank.
  suffices hused : ∃ used, left = used ++ rest ∧ IsClean used ∧
      (∀ rest, valueRule nested (token :: (used ++ rest)) = (some tree, rest)) ∧
      token.isFunction "var" = false by
    obtain ⟨used, rfl, hclean, hreads, hnone⟩ := hused
    exact ⟨before, token :: used, hbefore, rfl, ⟨token, used, rfl, hsolid⟩,
      hclean.cons hsolid hnone, hreads⟩
  cases token with
  | number value =>
    cases hrule
    exact ⟨[], rfl, isClean_nil, fun _ => rfl, rfl⟩
  | percentage value =>
    cases hrule
    exact ⟨[], rfl, isClean_nil, fun _ => rfl, rfl⟩
  | dimension value unit =>
    cases hrule
    exact ⟨[], rfl, isClean_nil, fun _ => rfl, rfl⟩
  | ident name =>
    cases hrule
    exact ⟨[], rfl, isClean_nil, fun _ => rfl, rfl⟩
  -- A parenthesis or a call opens a block, in which the rule is local by assumption.
  | openParen =>
    obtain ⟨used, hleft, hclean, hreads⟩ := hnested left tree rest hshorter hrule
    exact ⟨used, hleft, hclean, hreads, rfl⟩
  | function name =>
    have hname : name.toLower = "calc" := by
      by_contra hne
      dsimp only at hrule
      rw [if_neg hne] at hrule
      cases hrule
    dsimp only at hrule
    rw [if_pos hname] at hrule
    obtain ⟨used, hleft, hclean, hreads⟩ := hnested left tree rest hshorter hrule
    refine ⟨used, hleft, hclean, fun rest => ?_, ?_⟩
    · show (if name.toLower = "calc" then nested else fail : Rule K (Expression K)) _ = _
      rw [if_pos hname]
      exact hreads rest
    · rw [isFunction, hname]
      cbv
  | _ => cases hrule

/-- A further factor is a value behind a sign. -/
theorem exists_of_factorRule {operand : Operator × Expression K} (hnested : IsLocal size nested)
    (hlength : tokens.length ≤ size) (h : factorRule nested tokens = (some operand, rest)) :
    ∃ used, used ≠ [] ∧ tokens = used ++ rest ∧ IsClean used ∧
      Repeats (fun _ => True) (factorRule nested) used [operand] := by
  obtain ⟨token, left, hnext, hrule⟩ := bind_eq_some_iff.1 h
  obtain ⟨hsolid, before, hbefore, rfl⟩ := nextSolid_eq_some_iff.1 hnext
  have hshorter : left.length ≤ size := by
    rw [List.length_append, List.length_cons] at hlength
    omega
  -- Either sign goes on with a value.
  have hoperand : ∀ operator,
      (valueRule nested >>= fun tree => pure (operator, tree)) left = (some operand, rest) →
      (∀ rest, factorRule nested (token :: rest) =
        (valueRule nested >>= fun tree => pure (operator, tree)) rest) →
      token.isFunction "var" = false → ∃ used, used ≠ [] ∧
        before ++ token :: left = used ++ rest ∧ IsClean used ∧
        Repeats (fun _ => True) (factorRule nested) used [operand] := by
    intro operator hleft hreads hnone
    obtain ⟨tree, left', hvalue, hpure⟩ := bind_eq_some_iff.1 hleft
    cases hpure
    obtain ⟨before', used, hbefore', rfl, hused⟩ := exists_of_valueRule hnested hshorter hvalue
    obtain ⟨first, tail, rfl, -⟩ := hused.starts
    have hclean := (hused.clean.prepend (.of_areBlank hbefore') (List.cons_ne_nil _ _)).cons
      hsolid hnone
    -- The tokens of the factor are its sign and those of the value, with the blanks in front of
    -- both.
    have hne : before ++ token :: (before' ++ first :: tail) ≠ [] :=
      List.append_ne_nil_of_right_ne_nil _ (List.cons_ne_nil _ _)
    have hoperand : Reads (factorRule nested) (before ++ token :: (before' ++ first :: tail))
        (operator, tree) := by
      intro rest
      rw [List.append_assoc, skipsBlank_factorRule.append hbefore, List.cons_append, hreads,
        List.append_assoc, skipsBlank_valueRule.bind.append hbefore',
        bind_of_some (hused.reads rest)]
      rfl
    refine ⟨_, hne, by simp, hclean.prepend (.of_areBlank hbefore) (List.cons_ne_nil _ _),
      hoperand.before.repeats hne fun _ => trivial⟩
  split at hrule
  · exact hoperand .multiply hrule (fun _ => rfl) rfl
  · exact hoperand .divide hrule (fun _ => rfl) rfl
  · cases hrule

/-- A product is a value and the further factors behind it. -/
theorem exists_of_productRule (hnested : IsLocal size nested) (hlength : tokens.length ≤ size)
    (h : productRule nested tokens = (some tree, rest)) : ∃ before used, AreBlank before ∧
      tokens = before ++ (used ++ rest) ∧ IsProduct nested used tree := by
  obtain ⟨first, left, hvalue, hrule⟩ := bind_eq_some_iff.1 h
  obtain ⟨before, head, hbefore, rfl, hhead⟩ := exists_of_valueRule hnested hlength hvalue
  obtain ⟨operands, left', hmany, hpure⟩ := bind_eq_some_iff.1 hrule
  have hshorter : left.length ≤ size := by
    simp only [List.length_append] at hlength
    omega
  -- The factors behind the first value are read from what it leaves.
  obtain ⟨tail, rfl, hclean, hrepeats⟩ :=
    exists_of_many (fun _ _ _ => exists_of_factorRule hnested) hshorter hmany
  cases hpure
  obtain ⟨token, starting, rfl, htoken⟩ := hhead.starts
  refine ⟨before, token :: starting ++ tail, hbefore, by rw [List.append_assoc],
    ⟨⟨token, starting ++ tail, rfl, htoken⟩, hhead.clean.append hclean,
      readsBefore_productRule hhead.reads.before hrepeats⟩⟩

/-- A sign stands between two blanks. -/
theorem signRule_eq_some_iff : signRule tokens = (some operator, rest) ↔
    (operator = .add ∨ operator = .subtract) ∧ tokens = signTokens operator ++ rest := by
  constructor
  · intro h
    obtain ⟨⟨⟩, left, hblank, hrule⟩ := bind_eq_some_iff.1 h
    obtain ⟨token, left', hnext, hrule⟩ := bind_eq_some_iff.1 hrule
    rw [blank_eq_some_iff.1 hblank, next_eq_some_iff.1 hnext]
    -- A sign has a blank on either side, and no blank is skipped.
    split at hrule
    · obtain ⟨⟨⟩, left', hblank, hpure⟩ := bind_eq_some_iff.1 hrule
      rw [blank_eq_some_iff.1 hblank]
      cases hpure
      exact ⟨.inl rfl, rfl⟩
    · obtain ⟨⟨⟩, left', hblank, hpure⟩ := bind_eq_some_iff.1 hrule
      rw [blank_eq_some_iff.1 hblank]
      cases hpure
      exact ⟨.inr rfl, rfl⟩
    · cases hrule
  · rintro ⟨rfl | rfl, rfl⟩
    · rfl
    · rfl

/-- A further addend is a product behind a sign. -/
theorem exists_of_addendRule {operand : Operator × Expression K} (hnested : IsLocal size nested)
    (hlength : tokens.length ≤ size) (h : addendRule nested tokens = (some operand, rest)) :
    ∃ used, used ≠ [] ∧ tokens = used ++ rest ∧ IsClean used ∧
      Repeats (EndsProduct nested) (addendRule nested) used [operand] := by
  obtain ⟨operator, left, hsign, hrule⟩ := bind_eq_some_iff.1 h
  obtain ⟨hoperator, rfl⟩ := signRule_eq_some_iff.1 hsign
  obtain ⟨tree, left', hproduct, hpure⟩ := bind_eq_some_iff.1 hrule
  cases hpure
  have hshorter : left.length ≤ size := by
    rw [List.length_append] at hlength
    omega
  obtain ⟨before, used, hbefore, rfl, hused⟩ := exists_of_productRule hnested hshorter hproduct
  -- The blanks in front of the product belong to the addend.
  have hreads : ReadsBefore (EndsProduct nested) (productRule nested) (before ++ used) tree := by
    intro rest hrest
    rw [List.append_assoc, skipsBlank_productRule.append hbefore]
    exact hused.reads rest hrest
  have haddend := readsBefore_addendRule hoperator hreads
  refine ⟨signTokens operator ++ (before ++ used), List.cons_ne_nil _ _, by simp, ?_,
    haddend.repeats (List.cons_ne_nil _ _) fun rest => ?_⟩
  · obtain ⟨token, starting, rfl, htoken⟩ := hused.starts
    rw [← List.append_assoc]
    exact hused.clean.prepend ((refersToNone_signTokens _).append (.of_areBlank hbefore))
      (List.cons_ne_nil _ _)
  · rw [List.append_assoc]
    exact endsProduct_sign hoperator _

/-- The content of a block is a product and the further addends behind it, with blanks around them,
and a closing parenthesis. -/
theorem exists_of_contentRule (hnested : IsLocal size nested) (hlength : tokens.length ≤ size)
    (h : contentRule nested tokens = (some tree, rest)) :
    ∃ before head tail after first operands, AreBlank before ∧ AreBlank after ∧
      tokens = before ++ (head ++ tail) ++ after ++ Token.closeParen :: rest ∧
      IsProduct nested head first ∧ IsClean tail ∧
      Repeats (EndsProduct nested) (addendRule nested) tail operands ∧
      tree = ofOperands .sum .add first operands := by
  -- From back to front: the parenthesis, the addends and the first product.
  obtain ⟨tree', left, hsum, hrule⟩ := bind_eq_some_iff.1 h
  obtain ⟨⟨⟩, left', hclose, hpure⟩ := bind_eq_some_iff.1 hrule
  cases hpure
  obtain ⟨after, hafter, rfl⟩ := closeParen_eq_some_iff.1 hclose
  obtain ⟨first, left, hproduct, hrule⟩ := bind_eq_some_iff.1 hsum
  obtain ⟨operands, left', hmany, hpure⟩ := bind_eq_some_iff.1 hrule
  cases hpure
  obtain ⟨before, head, hbefore, rfl, hhead⟩ := exists_of_productRule hnested hlength hproduct
  have hshorter : left.length ≤ size := by
    simp only [List.length_append] at hlength
    omega
  obtain ⟨tail, rfl, hclean, hrepeats⟩ :=
    exists_of_many (fun _ _ _ => exists_of_addendRule hnested) hshorter hmany
  exact ⟨before, head, tail, after, first, operands, hbefore, hafter,
    by simp only [List.append_assoc], hhead, hclean, hrepeats, rfl⟩

/-- What a block takes off a list of tokens it takes off any other list. -/
theorem isLocal_unlimitedBlock (size : ℕ) :
    IsLocal size (unlimitedBlock : Rule K (Expression K)) := by
  induction size with
  | zero => exact fun _ _ _ hlength => absurd hlength (Nat.not_lt_zero _)
  | succ size ih =>
    -- The content of a block is shorter than the list it is read from, and its blocks are shorter
    -- still.
    intro tokens tree rest hlength h
    rw [unlimitedBlock_eq] at h
    obtain ⟨before, head, tail, after, first, operands, hbefore, hafter, rfl, hhead, hclean,
      hrepeats, rfl⟩ := exists_of_contentRule ih (Nat.le_of_lt_succ hlength) h
    have hreads := reads_contentRule_blanks hbefore hafter hhead.reads hrepeats
    rw [← unlimitedBlock_eq] at hreads
    refine ⟨_, by rw [List.append_assoc _ [Token.closeParen]]; rfl, ⟨?_, ?_⟩, hreads⟩
    · simp [isWhitespace]
    · exact (RefersToNone.of_areBlank hbefore).append (hhead.clean.append hclean).refersToNone
        |>.append (.of_areBlank hafter) |>.append (RefersToNone.singleton rfl)

/-! ## Texts -/

/-- A text that is read in a call of `calc()` and stands alone is read as a sum. -/
theorem exists_readsAsSum [Scalar K] {text : String} (halone : StandsAlone K text)
    (h : (rule maxBlockDepth).parse (scan ("calc(" ++ text ++ ")").toList) = some tree) :
    ∃ first operands, ReadsAsSum text first operands ∧
      tree = ofOperands .sum .add first operands := by
  obtain ⟨rest, hcall, hrest⟩ := parse_eq_some_iff.1 ((parse_rule_eq_some_iff _).1 h).1
  have htokens : collapse (scan ("calc(" ++ text ++ ")").toList) =
      Token.function "calc" :: (collapse (scan text.toList) ++ [.closeParen] : List (Token K)) :=
    (halone.spells.call (show IsWord "calc" = true from rfl)).spells.collapse_scan rfl
  rw [htokens, callRule_calc, unlimitedBlock_eq] at hcall
  obtain ⟨before, head, tail, after, first, operands, hbefore, hafter, heq, hhead, hclean,
    hrepeats, rfl⟩ := exists_of_contentRule (isLocal_unlimitedBlock _) le_rfl hcall
  -- Nothing follows the parenthesis, as it is the last token and what follows is blank.
  have hnil : rest = [] := by
    by_contra hne
    have hlast := congrArg List.getLast? heq
    rw [List.getLast?_concat, List.getLast?_append_of_ne_nil _ (List.cons_ne_nil _ _),
      List.getLast?_cons, List.getLast?_eq_some_getLast hne] at hlast
    have hblank := hrest _ (List.getLast_mem hne)
    have hclose : Token.closeParen = rest.getLast hne := Option.some.inj hlast
    rw [← hclose] at hblank
    cases hblank
  rw [hnil] at heq
  have htext := List.append_inj_left' heq rfl
  obtain ⟨token, starting, rfl, htoken⟩ := hhead.starts
  have hall := hhead.clean.append hclean
  refine ⟨first, operands, ⟨_, tail, ?_, hall.refersToNone, hhead.reads, hrepeats⟩, rfl⟩
  exact halone.holds hbefore hafter ⟨token, starting ++ tail, rfl, htoken⟩
    (fun h => Bool.noConfusion (hall.solid _ h)) htext

end Expression

end CssColor
