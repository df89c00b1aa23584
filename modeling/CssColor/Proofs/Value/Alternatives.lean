import CssColor.Number.Double
import CssColor.Proofs.Token.Recognition
import CssColor.Value.Grammar
import Mathlib

/-!
# The two notations of legacy colours

The functions of the legacy spaces have a notation with commas and one with blanks between the
arguments. No list of tokens is read in both: after the first argument, the one needs a comma, where
the other needs an argument, and a colour function with an origin starts with a name, which is no
argument of the notation with commas. So it does not matter for the value of a function which
notation is tried first (`ColorValue.functionRule_either_order`), and neither an origin nor an alpha
is lost where the notation with commas comes first.

A rule that fails leaves the tokens where it has failed. This is the only difference that the order
makes: where neither notation is read, the tokens are left where the one that was tried last has
failed.
-/

namespace CssColor

open Token Rule

variable {K α : Type}

/-! ## Ordered choice -/

namespace Rule

/-- The value of a rule, or the value of another one where it fails. A failing first rule takes
nothing. -/
def firstOf (r r' : Rule K α) : Rule K α := do
  match ← optional r with
  | some a => return a
  | none => r'

section FirstOf

variable {r r' : Rule K α} {tokens rest : List (Token K)} {a : α}

/-- If the first rule gives a value, the second one is not tried. -/
theorem firstOf_of_some (h : r tokens = (some a, rest)) :
    firstOf r r' tokens = (some a, rest) := by
  have hoptional : optional r tokens = (some (some a), rest) := by rw [optional, h]
  exact bind_of_some hoptional

/-- If the first rule fails, the second one reads from the same place. -/
theorem firstOf_of_fails (h : (r tokens).1 = none) : firstOf r r' tokens = r' tokens :=
  bind_of_some (optional_of_fails h)

/-- Of two rules that never have a value both, either may be tried first where one has a value.
Where none has, the one that is tried last says what is left. -/
theorem firstOf_swap (h : (r tokens).1 = none ∨ (r' tokens).1 = none) :
    (firstOf r r' tokens = firstOf r' r tokens ∧ (firstOf r r' tokens).1.isSome) ∨
      ((r tokens).1 = none ∧ (r' tokens).1 = none ∧
        firstOf r r' tokens = r' tokens ∧ firstOf r' r tokens = r tokens) := by
  -- If the first fails, the second gives the result in either order.
  rcases hr : r tokens with ⟨_ | a, rest⟩
  · have hfails : (r tokens).1 = none := congrArg Prod.fst hr
    rcases hr' : r' tokens with ⟨_ | b, rest'⟩
    · have hfails' : (r' tokens).1 = none := congrArg Prod.fst hr'
      rw [firstOf_of_fails hfails, firstOf_of_fails hfails', hr, hr']
      exact .inr ⟨rfl, rfl, rfl, rfl⟩
    · rw [firstOf_of_fails hfails, firstOf_of_some hr', hr']
      exact .inl ⟨rfl, rfl⟩
  · have hfails' : (r' tokens).1 = none := by
      rcases h with h | h
      · rw [hr] at h
        cases h
      · exact h
    rw [firstOf_of_fails hfails', firstOf_of_some hr, hr]
    exact .inl ⟨rfl, rfl⟩

end FirstOf

end Rule

/-! ## The first argument -/

variable {expression : Rule K (Expression K)} {color : Rule K (ColorValue K)}
  {tokens rest before : List (Token K)}

namespace Argument

/-- There is no argument in front of a comma. -/
theorem rule_comma_fails (hbefore : AreBlank before) :
    (rule expression (before ++ Token.comma :: rest)).1 = none := by
  have hcall : isCalling "calc" (before ++ Token.comma :: rest) =
      (some false, before ++ Token.comma :: rest) := isCalling_append hbefore rfl "calc" rest
  have hnext : nextSolid (before ++ Token.comma :: rest) = (some Token.comma, rest) :=
    nextSolid_eq_some_iff.2 ⟨rfl, before, hbefore, rfl⟩
  rw [rule, bind_of_some hcall, if_neg Bool.false_ne_true, tokenRule, bind_of_some hnext]
  rfl

/-- Whether a name stands in front, as the argument that is read there tells. -/
theorem isWord_of_isNaming {argument : Argument K} {name : String}
    (hname : isNaming name tokens = (some true, tokens))
    (h : rule expression tokens = (some argument, rest)) : argument.isWord = true := by
  obtain ⟨called, left, hcall, hread⟩ := bind_eq_some_iff.1 h
  have hcalled : called = (tokens.filter fun token => !token.isWhitespace)[0]?.any
    (isFunction "calc") ∧ left = tokens := by
    cases hcall
    exact ⟨rfl, rfl⟩
  obtain ⟨hcalled, rfl⟩ := hcalled
  have hnamed : (left.filter fun token => !token.isWhitespace)[0]?.any (isIdent name) = true := by
    have hfst := congrArg Prod.fst hname
    exact Option.some.inj hfst
  cases called with
  | true =>
    -- The token in front would be a name and the start of a call.
    obtain ⟨first, hfirst, hident⟩ := (Option.any_eq_true _ _).1 hnamed
    rw [hfirst] at hcalled
    cases first with
    | ident => cases hcalled
    | _ => cases hident
  | false =>
    obtain ⟨token, left', hnext, hargument⟩ := bind_eq_some_iff.1 hread
    obtain ⟨hsolid, before, hbefore, rfl⟩ := nextSolid_eq_some_iff.1 hnext
    rw [isNaming_append hbefore hsolid] at hname
    cases token with
    | ident text =>
      cases hargument
      split <;> rfl
    | _ => cases hname

end Argument

namespace ColorValue

/-! ## Both notations -/

variable {space : Space} {value : ColorValue K}

/-- What is read in the notation with commas starts with an argument that is no name and a comma. -/
theorem exists_of_legacyRule (h : legacyRule expression (.ofSpace space) tokens = (some value, rest)) :
    ∃ first before left, Argument.isWord first = false ∧ AreBlank before ∧
      Argument.rule expression tokens = (some first, before ++ Token.comma :: left) := by
  unfold legacyRule at h
  dsimp only at h
  split at h
  · obtain ⟨arguments, after, harguments, _⟩ := bind_eq_some_iff.1 h
    obtain ⟨first, left, hfirst, hnext⟩ := bind_eq_some_iff.1 harguments
    obtain ⟨⟨⟩, left', hcomma, _⟩ := bind_eq_some_iff.1 hnext
    obtain ⟨before, hbefore, rfl⟩ := comma_eq_some_iff.1 hcomma
    -- The first argument is no word, since the legacy syntax has no keywords.
    obtain ⟨argument, left'', hargument, hword⟩ := bind_eq_some_iff.1 hfirst
    cases hisWord : argument.isWord with
    | true =>
      rw [hisWord] at hword
      cases hword
    | false =>
      rw [hisWord] at hword
      cases hword
      exact ⟨first, before, left', hisWord, hbefore, hargument⟩
  · cases h

/-- What starts with an argument that is no name and a comma is not read in the notation with
blanks. -/
theorem modernRule_fails {first : Argument K} (hword : first.isWord = false)
    (hbefore : AreBlank before)
    (hfirst : Argument.rule expression tokens = (some first, before ++ Token.comma :: rest)) :
    (modernRule expression color (.ofSpace space) tokens).1 = none := by
  have harguments : (Arguments.modernRule expression tokens).1 = none := by
    -- The second argument would have to start at the comma.
    unfold Arguments.modernRule
    rw [bind_of_some hfirst]
    exact bind_fst_eq_none (Argument.rule_comma_fails hbefore)
  rcases hnaming : isNaming "from" tokens with ⟨_ | naming, left⟩
  · cases hnaming
  · have hleft : left = tokens := by
      cases hnaming
      rfl
    rw [hleft] at hnaming
    -- A colour behind `from` is announced by a word, and the first argument is none.
    cases naming with
    | true => cases hword.symm.trans (Argument.isWord_of_isNaming hnaming hfirst)
    | false =>
      have hspace : (spaceRule (.ofSpace space) : Rule K Space) tokens = (some space, tokens) := rfl
      rw [modernRule, bind_of_some hnaming, if_neg Bool.false_ne_true, bind_of_some hspace]
      exact bind_fst_eq_none harguments

/-- No list of tokens is read in both notations, whatever the rules for expressions and colours. -/
theorem legacyRule_or_modernRule_fails (expression : Rule K (Expression K))
    (color : Rule K (ColorValue K)) (space : Space) (tokens : List (Token K)) :
    (legacyRule expression (.ofSpace space) tokens).1 = none ∨
      (modernRule expression color (.ofSpace space) tokens).1 = none := by
  rcases h : legacyRule expression (.ofSpace space) tokens with ⟨_ | value, rest⟩
  · exact .inl rfl
  · obtain ⟨first, before, left, hword, hbefore, hfirst⟩ := exists_of_legacyRule h
    exact .inr (modernRule_fails hword hbefore hfirst)

/-- The content of a function of a known space is a choice of the two notations. -/
theorem functionRule_eq_firstOf {name : String} {function : FunctionName}
    (hname : FunctionName.ofText? name = some function) :
    functionRule expression color name =
      firstOf (legacyRule expression function) (modernRule expression color function) := by
  funext tokens
  unfold functionRule firstOf
  rw [hname, bind_of_some (show ofOption (some function) tokens = (some function, tokens) from rfl)]
  rcases h : optional (legacyRule expression function) tokens with ⟨_ | _ | value, left⟩
  · rw [bind_of_none h, bind_of_none h]
  · rw [bind_of_some h, bind_of_some h]
  · rw [bind_of_some h, bind_of_some h]

variable [Scalar K]

/-- In a function of a known space at most one of the two notations is read, and it is read
whichever of the two is tried first: the value is the same, and where there is one, the same tokens
are left. Where there is none, the tokens are left where the notation that was tried last has
failed, which makes no difference to a caller that puts them back. What either notation gives on its
own, with the origin and the alpha in it, is what the function gives. -/
theorem functionRule_either_order {name : String} {space : Space}
    (hname : FunctionName.ofText? name = some (.ofSpace space)) (levels : ℕ)
    (tokens : List (Token K)) :
    let commas : Rule K (ColorValue K) := legacyRule (Expression.rule levels) (.ofSpace space)
    let blanks := modernRule (Expression.rule levels) (rule levels) (.ofSpace space)
    let content := functionRule (Expression.rule levels) (rule levels) name
    ((commas tokens).1 = none ∨ (blanks tokens).1 = none) ∧
      (content tokens).1 = (firstOf blanks commas tokens).1 ∧
      ((content tokens).1.isSome → content tokens = firstOf blanks commas tokens) ∧
      ((content tokens).1 = none →
        content tokens = blanks tokens ∧ firstOf blanks commas tokens = commas tokens) ∧
      optional content tokens = optional (firstOf blanks commas) tokens ∧
      ∀ value rest, commas tokens = (some value, rest) ∨ blanks tokens = (some value, rest) →
        content tokens = (some value, rest) := by
  intro commas blanks content
  have hcontent : content = firstOf commas blanks := functionRule_eq_firstOf hname
  have hfails : (commas tokens).1 = none ∨ (blanks tokens).1 = none :=
    legacyRule_or_modernRule_fails _ _ space tokens
  rw [hcontent]
  refine ⟨hfails, ?_⟩
  rcases firstOf_swap hfails with ⟨hsame, hvalue⟩ | ⟨hcommas, hblanks, hlast, hlast'⟩
  · -- One of them is read, and whatever the one that is tried first has taken is put back.
    refine ⟨congrArg Prod.fst hsame, fun _ => hsame, fun hnone => ?_, ?_, ?_⟩
    · rw [hnone] at hvalue
      cases hvalue
    · unfold Rule.optional
      rw [hsame]
    · rintro value rest (h | h)
      · exact firstOf_of_some h
      · rw [hsame]
        exact firstOf_of_some h
  · have hnone : (firstOf commas blanks tokens).1 = none := by rw [hlast, hblanks]
    have hnone' : (firstOf blanks commas tokens).1 = none := by rw [hlast', hcommas]
    refine ⟨hnone.trans hnone'.symm, fun hvalue => ?_, fun _ => ⟨hlast, hlast'⟩, ?_, ?_⟩
    · rw [hnone] at hvalue
      cases hvalue
    · rw [optional_of_fails hnone, optional_of_fails hnone']
    · rintro value rest (h | h)
      · rw [h] at hcommas
        cases hcommas
      · rw [h] at hblanks
        cases hblanks

/-- A name in capitals, and an origin. -/
theorem functionRule_either_order_rgba :
    FunctionName.ofText? "RGBA" = some (.ofSpace .rgb) ∧
      (functionRule (Expression.rule 63) (rule 63) "RGBA" [Token.ident "from", .ident "currentcolor",
          .ident "none", .ident "none", .ident "none", .closeParen, .comma]).1 =
        (firstOf (modernRule (Expression.rule 63) (rule 63) (.ofSpace .rgb))
          (legacyRule (Expression.rule 63) (.ofSpace .rgb)) [Token.ident (K := Double) "from",
          .ident "currentcolor", .ident "none", .ident "none", .ident "none", .closeParen,
          .comma]).1 := by
  have hname : FunctionName.ofText? "RGBA" = some (.ofSpace .rgb) := by cbv
  exact ⟨hname, (functionRule_either_order hname 63 _).2.1⟩

omit [Scalar K] in
/-- Two arguments with a comma between them. The notation with blanks fails at the comma, and the
one with commas at the parenthesis. -/
theorem functionRule_twoArguments (expression : Rule K (Expression K))
    (color : Rule K (ColorValue K)) (first second : K) :
    functionRule expression color "rgb"
        [.number first, .comma, .whitespace, .number second, .closeParen] =
          (none, [.whitespace, .number second, .closeParen]) ∧
      firstOf (modernRule expression color (.ofSpace .rgb)) (legacyRule expression (.ofSpace .rgb))
        [.number first, .comma, .whitespace, .number second, .closeParen] = (none, []) :=
  ⟨by cbv, by cbv⟩

/-- Where neither notation is read, the tokens that are left do depend on the order. -/
theorem functionRule_order_matters_to_failures :
    functionRule (Expression.rule 63) (rule 63) "rgb"
        [Token.number (1.0 : Double), .comma, .whitespace, .number 2.0, .closeParen] ≠
      firstOf (modernRule (Expression.rule 63) (rule 63) (.ofSpace .rgb))
        (legacyRule (Expression.rule 63) (.ofSpace .rgb))
        [Token.number (1.0 : Double), .comma, .whitespace, .number 2.0, .closeParen] := by
  obtain ⟨hcontent, hswapped⟩ :=
    functionRule_twoArguments (Expression.rule 63) (rule 63) (1.0 : Double) 2.0
  rw [hcontent, hswapped]
  exact fun h => nomatch h

end ColorValue

end CssColor
