import CssColor.Number.Double
import CssColor.Proofs.Token.Nesting
import CssColor.Proofs.Value.Agreement

/-!
# The bound on nested blocks

A rule with a bound on the blocks fails where a block is nested too deeply, and a rule around it may
go on in another way. The bound only ever rejects: the grammar with it reads a list as the grammar
without it does where no block is nested too deeply, and nothing else.

The rules without a bound are `Expression.unlimitedBlock` and `ColorValue.unlimitedRule`. They allow
as many levels as there are tokens, and are the only rules that read nested blocks by themselves.
-/

namespace CssColor

open Rule Token

variable {K α : Type}

/-! ## Whole lists -/

section Parse

variable {r s : Rule K α} {tokens : List (Token K)}

/-- Rules that agree read the same whole lists. -/
theorem Rule.parse_eq_of_agreeAt {Q : List (Token K) → Prop}
    (h : AgreeAt Q r s (collapse tokens)) : r.parse tokens = s.parse tokens := by
  apply Option.ext
  intro a
  rw [parse_eq_some_iff, parse_eq_some_iff, h.same]

/-- What a bounded rule reads is nested as deeply as the bound allows. -/
theorem Rule.nesting_le_of_parse {limit : ℕ} {a : α}
    (h : ∀ all : List (Token K),
      Agree (SplitWithin limit all limit) (SplitWithin limit all limit) r s)
    (hparse : r.parse tokens = some a) : nesting tokens ≤ limit := by
  obtain ⟨rest, hr, hrest⟩ := parse_eq_some_iff.1 hparse
  have hsplit := (h _ _ (splitWithin_self limit (collapse tokens))).leaves hr
  have hle := hsplit.nesting_le hrest
  unfold nesting at hle ⊢
  rwa [nestingFrom_collapse] at hle

/-- A bounded rule reads a list of tokens as one with no bound does if no block in it is nested more
deeply than the bound, and rejects it otherwise. -/
theorem Rule.parse_eq_some_iff_of_agree {limit : ℕ} {a : α}
    (hagree : Agree (NestedWithin limit limit) (NestedWithin limit limit) r s)
    (hself : ∀ all : List (Token K),
      Agree (SplitWithin limit all limit) (SplitWithin limit all limit) r r) :
    r.parse tokens = some a ↔ s.parse tokens = some a ∧ nesting tokens ≤ limit := by
  have heq (hle : nesting tokens ≤ limit) : r.parse tokens = s.parse tokens := by
    refine parse_eq_of_agreeAt (hagree (collapse tokens) ?_)
    unfold NestedWithin
    rwa [Nat.sub_self, nestingFrom_collapse]
  constructor
  · intro h
    -- All tokens have been taken, and each block on the way has had its level.
    have hle := nesting_le_of_parse hself h
    exact ⟨(heq hle).symm.trans h, hle⟩
  · rintro ⟨h, hle⟩
    exact (heq hle).trans h

end Parse

/-! ## Expressions -/

namespace Expression

variable {P : ℕ → List (Token K) → Prop} {top levels : ℕ} {block : Rule K (Expression K)}

/-- A block is its content, with one level less for the blocks in it. -/
theorem blockRule_eq (levels : ℕ) :
    (blockRule levels : Rule K (Expression K)) = contentRule (Rule.nested levels blockRule) := by
  cases levels with
  | zero => rfl
  | succ levels => rfl

/-- Further levels make no difference to a block that does not need them. -/
theorem blockRule_agree_add (hP : Levelled top P)
    (hzero : ∀ token rest, token.opensBlock = true → ¬ P 0 (token :: rest)) (extra : ℕ)
    (hlevels : levels < top) : Agree (P levels) (P (levels + 1))
      (blockRule levels : Rule K (Expression K)) (blockRule (levels + extra)) := by
  refine blockRule_agree hP (fun levels => blockRule (levels + extra)) (blockRule_eq (0 + extra))
    (fun levels => ?_) (Agree.of_not_opened hzero) hlevels
  rw [Nat.succ_add]
  rfl

/-- A block that does not reach the bound is read as by a rule that reads nested blocks itself. -/
theorem blockRule_agree_of_fixed (hP : Levelled top P)
    (hzero : ∀ token rest, token.opensBlock = true → ¬ P 0 (token :: rest))
    (hblock : block = contentRule block) (hlevels : levels < top) :
    Agree (P levels) (P (levels + 1)) (blockRule levels) block :=
  blockRule_agree hP (fun _ => block) hblock (fun _ => hblock) (Agree.of_not_opened hzero) hlevels

/-- The same where the bound may forbid the block itself. -/
theorem nested_agree_of_fixed (hP : Levelled top P)
    (hzero : ∀ token rest, token.opensBlock = true → ¬ P 0 (token :: rest))
    (hblock : block = contentRule block) (hlevels : levels ≤ top) :
    Agree (Opened (P levels)) (P levels) (Rule.nested levels blockRule) block := by
  cases levels with
  | zero => exact Agree.of_not_opened hzero
  | succ levels => exact (blockRule_agree_of_fixed hP hzero hblock hlevels).opened hP

/-- A bounded block keeps a levelled property. -/
theorem nested_agree_self (hP : Levelled top P) (hlevels : levels ≤ top) :
    Agree (Opened (P levels)) (P levels) (Rule.nested levels blockRule : Rule K (Expression K))
      (Rule.nested levels blockRule) := by
  cases levels with
  | zero => exact Agree.fail
  | succ levels =>
    exact (blockRule_agree hP blockRule (blockRule_eq 0) (fun _ => blockRule_eq _) Agree.fail
      hlevels).opened hP

/-- The content of a block with no bound on the blocks in it. -/
def unlimitedBlock : Rule K (Expression K) := fun tokens => blockRule tokens.length tokens

/-- As many levels as there are tokens are enough. -/
theorem blockRule_agree_unlimitedBlock (levels : ℕ) :
    Agree (LengthWithin levels) (LengthWithin (levels + 1))
      (blockRule levels : Rule K (Expression K)) unlimitedBlock := by
  intro tokens htokens
  unfold LengthWithin at htokens
  -- From as many levels as there are tokens up to `levels`, nothing changes.
  have hself := blockRule_agree_add (K := K) (levelled_lengthWithin (levels + 1))
    not_lengthWithin_zero 0 (Nat.lt_succ_self levels) tokens htokens
  have hadd := blockRule_agree_add (levelled_lengthWithin (tokens.length + 1))
    not_lengthWithin_zero (levels - tokens.length) (Nat.lt_succ_self _) tokens le_rfl
  rw [Nat.add_sub_of_le htokens] at hadd
  exact ⟨hadd.same.symm, hself.leaves⟩

/-- The rule with no bound reads nested blocks by itself. -/
theorem unlimitedBlock_eq :
    (unlimitedBlock : Rule K (Expression K)) = contentRule unlimitedBlock := by
  funext tokens
  have hP := levelled_lengthWithin (K := K) (tokens.length + 2)
  -- One level more makes no difference, and with it the blocks inside have levels enough.
  have hnested := (blockRule_agree_unlimitedBlock tokens.length).opened hP
  have hcontent := contentRule_agree hP (Nat.lt_succ_self _) hnested tokens (Nat.le_succ _)
  have hadd := blockRule_agree_add hP not_lengthWithin_zero 1
    (Nat.lt_succ_of_lt (Nat.lt_succ_self _)) tokens le_rfl
  exact hadd.same.trans hcontent.same

/-- No other rule reads nested blocks by itself. -/
theorem eq_unlimitedBlock (hblock : block = contentRule block) : block = unlimitedBlock := by
  funext tokens
  exact (blockRule_agree_of_fixed (levelled_lengthWithin (tokens.length + 1))
    not_lengthWithin_zero hblock (Nat.lt_succ_self _) tokens le_rfl).same.symm

end Expression

/-! ## Colour values -/

namespace ColorValue

open Expression (unlimitedBlock)

variable [Scalar K] {P : ℕ → List (Token K) → Prop} {top levels : ℕ}
  {block : Rule K (Expression K)} {color : Rule K (ColorValue K)}

/-- Further levels make no difference to a colour value that does not need them. -/
theorem rule_agree_add (hP : Levelled top P)
    (hzero : ∀ token rest, token.opensBlock = true → ¬ P 0 (token :: rest)) (extra : ℕ)
    (hlevels : levels ≤ top) :
    Agree (P levels) (P levels) (rule levels : Rule K (ColorValue K)) (rule (levels + extra)) := by
  refine rule_agree hP (fun levels => Rule.nested (levels + extra) Expression.blockRule)
    (fun levels => rule (levels + extra)) (rule.eq_def (0 + extra)) (fun levels => ?_)
    (fun _ => Agree.of_not_opened hzero) (fun levels hlevels => ?_) hlevels
  · rw [Nat.succ_add]
    rfl
  · cases levels with
    | zero => exact Agree.of_not_opened hzero
    | succ levels =>
      rw [Nat.succ_add]
      exact (Expression.blockRule_agree_add hP hzero extra (Nat.lt_of_succ_lt hlevels)).opened hP

/-- A bounded colour value keeps a levelled property. -/
theorem rule_agree_self (hP : Levelled top P) (hlevels : levels ≤ top) :
    Agree (P levels) (P levels) (rule levels : Rule K (ColorValue K)) (rule levels) :=
  rule_agree hP (fun levels => Rule.nested levels Expression.blockRule) rule (rule.eq_def 0)
    (fun _ => rfl) (fun _ => Agree.fail)
    (fun _ hlevels => Expression.nested_agree_self hP hlevels.le) hlevels

/-- A colour value that does not reach the bound is read as by rules that read nested blocks and
colours by themselves. -/
theorem rule_agree_of_fixed (hP : Levelled top P)
    (hzero : ∀ token rest, token.opensBlock = true → ¬ P 0 (token :: rest))
    (hblock : block = Expression.contentRule block)
    (hcolor : color = ruleWith (callRule (Expression.callRule block) color))
    (hlevels : levels ≤ top) : Agree (P levels) (P levels) (rule levels) color :=
  rule_agree hP (fun _ => block) (fun _ => color) hcolor (fun _ => hcolor)
    (fun _ => Agree.of_not_opened hzero)
    (fun _ hlevels => Expression.nested_agree_of_fixed hP hzero hblock hlevels.le) hlevels

/-- A colour value with no bound on the blocks in it. -/
def unlimitedRule : Rule K (ColorValue K) := fun tokens => rule tokens.length tokens

/-- As many levels as there are tokens are enough. -/
theorem rule_agree_unlimitedRule (levels : ℕ) :
    Agree (LengthWithin levels) (LengthWithin levels) (rule levels : Rule K (ColorValue K))
      unlimitedRule := by
  intro tokens htokens
  unfold LengthWithin at htokens
  have hself := rule_agree_add (K := K) (levelled_lengthWithin levels)
    not_lengthWithin_zero 0 le_rfl tokens htokens
  have hadd := rule_agree_add (levelled_lengthWithin tokens.length)
    not_lengthWithin_zero (levels - tokens.length) le_rfl tokens le_rfl
  rw [Nat.add_sub_of_le htokens] at hadd
  exact ⟨hadd.same.symm, hself.leaves⟩

/-- The rule with no bound reads nested colours by itself. -/
theorem unlimitedRule_eq : (unlimitedRule : Rule K (ColorValue K)) =
    ruleWith (callRule (Expression.callRule unlimitedBlock) unlimitedRule) := by
  funext tokens
  have hP := levelled_lengthWithin (K := K) (tokens.length + 1)
  have hblock := Expression.nested_agree_of_fixed hP not_lengthWithin_zero
    Expression.unlimitedBlock_eq (Nat.le_succ tokens.length)
  have hcall := fun name => callRule_agree hP (Nat.lt_succ_self _)
    (Expression.callRule_agree hP hblock) (rule_agree_unlimitedRule tokens.length) name
  have hrule := ruleWith_agree hP (fun name => (hcall name).opened hP) tokens (Nat.le_succ _)
  have hadd := rule_agree_add hP not_lengthWithin_zero 1 (Nat.le_succ _) tokens le_rfl
  exact hadd.same.trans hrule.same

/-- No other rule reads nested colours by itself. -/
theorem eq_unlimitedRule
    (hcolor : color = ruleWith (callRule (Expression.callRule unlimitedBlock) color)) :
    color = unlimitedRule := by
  funext tokens
  exact (rule_agree_of_fixed (levelled_lengthWithin tokens.length) not_lengthWithin_zero
    Expression.unlimitedBlock_eq hcolor le_rfl tokens le_rfl).same.symm

end ColorValue

/-! ## The bound -/

variable {tokens : List (Token K)} {limit : ℕ}

/-- The bound on the blocks of an expression only ever rejects. -/
theorem Expression.parse_rule_eq_some_iff (value : Expression K) :
    (Expression.rule limit).parse tokens = some value ↔
      (callRule unlimitedBlock).parse tokens = some value ∧ nesting tokens ≤ limit := by
  refine parse_eq_some_iff_of_agree ?_ fun all => ?_
  · have hP := levelled_nestedWithin (K := K) limit
    exact callRule_agree hP
      (nested_agree_of_fixed hP (not_nestedWithin_zero limit) unlimitedBlock_eq le_rfl)
  · have hP := levelled_splitWithin limit all
    exact callRule_agree hP (nested_agree_self hP le_rfl)

/-- The bound on the blocks of a colour value only ever rejects. -/
theorem ColorValue.parse_rule_eq_some_iff [Scalar K] (value : ColorValue K) :
    (ColorValue.rule limit).parse tokens = some value ↔
      unlimitedRule.parse tokens = some value ∧ nesting tokens ≤ limit := by
  refine parse_eq_some_iff_of_agree ?_ fun all => ?_
  · exact rule_agree_of_fixed (levelled_nestedWithin limit) (not_nestedWithin_zero limit)
      Expression.unlimitedBlock_eq unlimitedRule_eq le_rfl
  · exact rule_agree_self (levelled_splitWithin limit all) le_rfl

/-- Colour values and calls of `calc()` with the bound on nested blocks, and the rules with no
bound. These are the only rules that read nested blocks and nested colours by themselves. A list of
tokens has a value with the bound if and only if it has that value with no bound and functions and
parentheses are nested at most `maxBlockDepth` deep in it; a list that is nested more deeply has
none. -/
theorem bounded_parse_eq_some_iff [Scalar K] :
    (∀ block : Rule K (Expression K),
      block = Expression.contentRule block ↔ block = Expression.unlimitedBlock) ∧
    (∀ color : Rule K (ColorValue K),
      color = ColorValue.ruleWith
          (ColorValue.callRule (Expression.callRule Expression.unlimitedBlock) color) ↔
        color = ColorValue.unlimitedRule) ∧
    ∀ tokens : List (Token K),
      (∀ value, ColorValue.ofTokens? tokens = some value ↔
        ColorValue.unlimitedRule.parse tokens = some value ∧ nesting tokens ≤ maxBlockDepth) ∧
      (∀ value, (Expression.rule maxBlockDepth).parse tokens = some value ↔
        (Expression.callRule Expression.unlimitedBlock).parse tokens = some value ∧
          nesting tokens ≤ maxBlockDepth) ∧
      (nesting tokens ≤ maxBlockDepth ∨
        ColorValue.ofTokens? tokens = none ∧
          (Expression.rule maxBlockDepth).parse tokens = none) := by
  refine ⟨fun block => ⟨Expression.eq_unlimitedBlock, ?_⟩,
    fun color => ⟨ColorValue.eq_unlimitedRule, ?_⟩, fun tokens => ⟨?_, ?_, ?_⟩⟩
  · rintro rfl
    exact Expression.unlimitedBlock_eq
  · rintro rfl
    exact ColorValue.unlimitedRule_eq
  · exact ColorValue.parse_rule_eq_some_iff
  · exact Expression.parse_rule_eq_some_iff
  · -- Every result is that of a list within the bound, so a deeper list has none.
    rcases Nat.lt_or_ge maxBlockDepth (nesting tokens) with hdeep | hle
    · refine Or.inr ⟨Option.eq_none_iff_forall_ne_some.2 fun value h => ?_,
        Option.eq_none_iff_forall_ne_some.2 fun value h => ?_⟩
      · exact absurd (ColorValue.parse_rule_eq_some_iff value |>.1 h).2 (Nat.not_le_of_lt hdeep)
      · exact absurd (Expression.parse_rule_eq_some_iff value |>.1 h).2 (Nat.not_le_of_lt hdeep)
    · exact Or.inl hle

/-- Parentheses that are nested 64 deep, together with those of the function, are read, and one
level more is not. -/
example :
    let tokens (parentheses : ℕ) : List (Token Double) :=
      .function "calc" :: (List.replicate parentheses .openParen ++ .number 1.0 ::
        List.replicate (parentheses + 1) .closeParen)
    nesting (tokens 63) = maxBlockDepth ∧
      (Expression.rule maxBlockDepth).parse (tokens 63) = some (.leaf (.number 1.0)) ∧
      nesting (tokens 64) = maxBlockDepth + 1 ∧
      (Expression.rule maxBlockDepth).parse (tokens 64) = none := by
  decide +kernel

end CssColor
