import CssColor.Number.Double
import CssColor.Proofs.Calc.LetterCase
import CssColor.Value.Grammar

/-!
# Letter case in colour values

Two texts that differ at most in the case of their ASCII letters write the same colour value, or
neither of them writes one (`ColorValue.ofText?_eq_of_toLower_eq`): each name, each digit and each
unit is read without regard to case, and what the tree keeps of a name is in lower case.
-/

namespace CssColor

open Rule Token

variable {K : Type} {expression : Rule K (Expression K)} {color : Rule K (ColorValue K)}

/-! ## Arguments -/

/-- Names are compared without regard to case. -/
theorem Text.sameIgnoringCase_toLower (a b : String) :
    sameIgnoringCase a.toLower b = sameIgnoringCase a b := by
  unfold sameIgnoringCase
  rw [toLower_toLower_text]

namespace Argument

/-- An argument of a single token is kept in lower case anyway. -/
theorem caseBlind_tokenRule : CaseBlind (tokenRule : Rule K (Argument K)) := by
  refine CaseBlind.nextSolid_bind (fun token => ?_) fun token => ?_
  · cases token with
    | ident name =>
      show (pure (if Text.sameIgnoringCase name.toLower "none" then missing
        else keyword name.toLower.toLower) : Rule K (Argument K)) = _
      rw [toLower_toLower_text, Text.sameIgnoringCase_toLower]
    | _ => rfl
  · cases token with
    | number => exact CaseBlind.pure _
    | percentage => exact CaseBlind.pure _
    | dimension => exact CaseBlind.pure _
    | ident => exact CaseBlind.pure _
    | _ => exact CaseBlind.fail

/-- An argument is a call of `calc()` or a single token. -/
theorem caseBlind_rule (h : CaseBlind expression) : CaseBlind (rule expression) :=
  (CaseBlind.isCalling "calc").bind fun _ =>
    CaseBlind.ite (h.bind fun _ => CaseBlind.pure _) caseBlind_tokenRule

/-- An argument between commas. -/
theorem caseBlind_legacyRule (h : CaseBlind expression) : CaseBlind (legacyRule expression) :=
  (caseBlind_rule h).bind fun _ => CaseBlind.ite CaseBlind.fail (CaseBlind.pure _)

end Argument

namespace Arguments

/-- Arguments with commas between them. -/
theorem caseBlind_legacyRule (h : CaseBlind expression) (space : Space) :
    CaseBlind (legacyRule expression space) := by
  have hargument := Argument.caseBlind_legacyRule h
  have halpha := (CaseBlind.comma.bind fun _ => hargument).optional
  exact hargument.bind fun _ => CaseBlind.comma.bind fun _ => hargument.bind fun _ =>
    CaseBlind.comma.bind fun _ => hargument.bind fun _ => halpha.bind fun _ =>
    CaseBlind.closeParen.bind fun _ => CaseBlind.ite (CaseBlind.pure _) CaseBlind.fail

/-- Arguments with blanks between them. -/
theorem caseBlind_modernRule (h : CaseBlind expression) : CaseBlind (modernRule expression) := by
  have hargument := Argument.caseBlind_rule h
  have halpha := ((CaseBlind.delim '/').bind fun _ => hargument).optional
  exact hargument.bind fun _ => hargument.bind fun _ => hargument.bind fun _ => halpha.bind fun _ =>
    CaseBlind.closeParen.bind fun _ => CaseBlind.pure _

end Arguments

namespace ColorValue

/-! ## Names and digits -/

/-- Two hexadecimal digits write the same byte in either case. -/
theorem byteOfDigits_toLower (high low : Char) :
    byteOfDigits high.toLower low.toLower = byteOfDigits high low := by
  unfold byteOfDigits
  rw [← hexNumber_foldCase [high, low]]
  rfl

/-- Hexadecimal digits write the same colour in either case. -/
theorem ofHexDigits?_foldCase (digits : List Char) :
    ofHexDigits? (foldCase digits) = ofHexDigits? digits := by
  have hall : (foldCase digits).all isHexDigit = digits.all isHexDigit := by
    rw [foldCase, List.all_map]
    simp only [Function.comp_def, isHexDigit_toLower]
  unfold ofHexDigits?
  rw [hall]
  split
  · -- Only the number of digits matters, which the spelling does not change.
    rcases digits with _ | ⟨_, _ | ⟨_, _ | ⟨_, _ | ⟨_, _ | ⟨_, _ | ⟨_, _ | ⟨_, _ | ⟨_, _ | ⟨_, _⟩⟩⟩⟩⟩⟩⟩⟩⟩
      <;> simp only [foldCase_cons, foldCase_nil, byteOfDigits_toLower]
  · rfl

/-- A keyword is looked up in lower case. -/
theorem ofKeyword?_toLower (name : String) :
    (ofKeyword? name.toLower : Option (ColorValue K)) = ofKeyword? name := by
  unfold ofKeyword?
  rw [toLower_toLower_text]

/-- The name of a function is looked up in lower case. -/
theorem FunctionName.ofText?_toLower (name : String) : ofText? name.toLower = ofText? name := by
  unfold ofText?
  rw [toLower_toLower_text]

end ColorValue

/-- The name of a predefined space is looked up in lower case. -/
theorem Space.ofPredefinedName?_toLower (name : String) :
    ofPredefinedName? name.toLower = ofPredefinedName? name := by
  unfold ofPredefinedName?
  rw [toLower_toLower_text]

/-- The name of a space to mix in is looked up in lower case. -/
theorem Space.ofInterpolationName?_toLower (name : String) :
    ofInterpolationName? name.toLower = ofInterpolationName? name := by
  unfold ofInterpolationName?
  rw [toLower_toLower_text]

/-- The name of an arc is looked up in lower case. -/
theorem HueArc.ofName?_toLower (name : String) : ofName? name.toLower = ofName? name := by
  unfold ofName?
  rw [toLower_toLower_text]

namespace ColorValue

/-! ## Colour functions -/

/-- The space of a colour function. -/
theorem caseBlind_spaceRule (name : FunctionName) : CaseBlind (spaceRule name : Rule K Space) := by
  cases name with
  | ofSpace space => exact CaseBlind.pure space
  | predefined =>
    refine CaseBlind.identifier_bind (fun name => ?_) fun _ => CaseBlind.ofOption _
    rw [Space.ofPredefinedName?_toLower]

/-- The content of a colour function with blanks between its arguments. -/
theorem caseBlind_modernRule (h : CaseBlind expression) (hcolor : CaseBlind color)
    (name : FunctionName) : CaseBlind (modernRule expression color name) := by
  have hspace : CaseBlind (spaceRule name : Rule K Space) := caseBlind_spaceRule name
  have harguments := Arguments.caseBlind_modernRule h
  refine (CaseBlind.isNaming "from").bind fun _ => CaseBlind.ite ?_ ?_
  · exact (CaseBlind.keyword "from").bind fun _ => hcolor.bind fun _ => hspace.bind fun _ =>
      harguments.bind fun _ => CaseBlind.pure _
  · exact hspace.bind fun _ => harguments.bind fun _ => CaseBlind.pure _

/-- The content of a colour function with commas between its arguments. -/
theorem caseBlind_legacyRule (h : CaseBlind expression) (name : FunctionName) :
    CaseBlind (legacyRule expression name) := by
  cases name with
  | ofSpace space =>
    exact CaseBlind.ite ((Arguments.caseBlind_legacyRule h space).bind fun _ => CaseBlind.pure _)
      CaseBlind.fail
  | predefined => exact CaseBlind.fail

/-- The content of a colour function, whichever notation it is in. -/
theorem caseBlind_functionRule (h : CaseBlind expression) (hcolor : CaseBlind color)
    (name : String) : CaseBlind (functionRule expression color name) := by
  refine (CaseBlind.ofOption _).bind fun name => (caseBlind_legacyRule h name).optional.bind ?_
  intro value
  cases value with
  | some value => exact CaseBlind.pure value
  | none => exact caseBlind_modernRule h hcolor name

/-! ## Mixes -/

/-- The arc of a hue. -/
theorem caseBlind_arcRule : CaseBlind (arcRule : Rule K HueArc) := by
  refine CaseBlind.identifier_bind (fun name => ?_) fun name => ?_
  · rw [HueArc.ofName?_toLower]
  · exact (CaseBlind.ofOption _).bind fun _ => (CaseBlind.keyword "hue").bind fun _ =>
      CaseBlind.pure _

variable [Scalar K]

/-- The share of a colour in a mix. -/
theorem caseBlind_shareRule (h : CaseBlind expression) : CaseBlind (shareRule expression) := by
  have hcheck : ∀ share : K,
      CaseBlind (if Number.isBetween 0.0 100.0 share then pure share else Rule.fail : Rule K K) :=
    fun share => CaseBlind.ite (CaseBlind.pure share) CaseBlind.fail
  refine (CaseBlind.isCalling "calc").bind fun _ => CaseBlind.ite ?_ ?_
  · refine h.bind fun value => ?_
    split
    · exact (CaseBlind.pure _).bind hcheck
    · exact CaseBlind.fail.bind hcheck
  · refine CaseBlind.nextSolid_bind (fun token => by cases token <;> rfl) fun token => ?_
    split
    · exact (CaseBlind.pure _).bind hcheck
    · exact CaseBlind.fail.bind hcheck

/-- A colour in a mix, with its share. -/
theorem caseBlind_ingredientRule (h : CaseBlind expression) (hcolor : CaseBlind color) :
    CaseBlind (ingredientRule expression color) := by
  have hshare := (caseBlind_shareRule h).optional
  refine hshare.bind fun leading => hcolor.bind fun value => ?_
  cases leading with
  | some share => exact CaseBlind.pure _
  | none => exact hshare.bind fun _ => CaseBlind.pure _

/-- The content of a mix. -/
theorem caseBlind_mixRule (h : CaseBlind expression) (hcolor : CaseBlind color) :
    CaseBlind (mixRule expression color) := by
  have hingredient := caseBlind_ingredientRule h hcolor
  refine (CaseBlind.keyword "in").bind fun _ => CaseBlind.identifier_bind (fun name => ?_)
    fun name => ?_
  · rw [Space.ofInterpolationName?_toLower]
  · refine (CaseBlind.ofOption _).bind fun space => caseBlind_arcRule.optional.bind fun arc =>
      CaseBlind.ite CaseBlind.fail ?_
    exact CaseBlind.comma.bind fun _ => hingredient.bind fun (_, _) => CaseBlind.comma.bind fun _ =>
      hingredient.bind fun (_, _) => CaseBlind.closeParen.bind fun _ => CaseBlind.pure _

/-! ## Colours -/

/-- The content of a function that gives a colour. -/
theorem caseBlind_callRule (h : CaseBlind expression) (hcolor : CaseBlind color) (name : String) :
    CaseBlind (callRule expression color name) :=
  CaseBlind.ite (caseBlind_mixRule h hcolor) (caseBlind_functionRule h hcolor name)

/-- Whether a function is a mix or a colour function is seen from its name in any case. -/
theorem callRule_toLower (name : String) :
    callRule expression color name.toLower = callRule expression color name := by
  unfold callRule functionRule
  rw [Text.sameIgnoringCase_toLower, FunctionName.ofText?_toLower]

omit [Scalar K] in
/-- A colour value, if the content of functions does not depend on the case. -/
theorem caseBlind_ruleWith {call : String → Rule K (ColorValue K)}
    (hlower : ∀ name, call name.toLower = call name) (h : ∀ name, CaseBlind (call name)) :
    CaseBlind (ruleWith call) := by
  -- What is done with a word, digits or a function does not depend on their case.
  refine CaseBlind.nextSolid_bind (fun token => ?_) fun token => ?_
  · cases token with
    | ident name =>
      show Rule.ofOption (ofKeyword? name.toLower) = _
      rw [ofKeyword?_toLower]
    | hash digits kind =>
      have hdigits : digits.toLower.toList = foldCase digits.toList := String.toList_map
      show (do return hex (← Rule.ofOption (ofHexDigits? digits.toLower.toList))) = _
      rw [hdigits, ofHexDigits?_foldCase]
    | function name => exact hlower name
    | _ => rfl
  · -- Nothing but the name and the digits is looked at.
    cases token with
    | ident name => exact CaseBlind.ofOption _
    | hash digits => exact (CaseBlind.ofOption _).bind fun _ => CaseBlind.pure _
    | function name => exact h name
    | _ => exact CaseBlind.fail

/-- Colour values are read in any case. -/
theorem caseBlind_rule (levels : ℕ) : CaseBlind (rule levels : Rule K (ColorValue K)) := by
  induction levels with
  | zero => exact caseBlind_ruleWith (fun _ => rfl) fun _ => CaseBlind.fail
  | succ levels ih =>
    exact caseBlind_ruleWith callRule_toLower
      (caseBlind_callRule (Expression.caseBlind_rule levels) ih)

/-- Texts that differ at most in the case of their ASCII letters write the same colour value, or
both write none. -/
theorem ofText?_eq_of_toLower_eq {a b : String} (h : a.toLower = b.toLower) :
    (ofText? a : Option (ColorValue K)) = ofText? b := by
  have hfold : foldCase a.toList = foldCase b.toList := toLower_eq_toLower_iff.1 h
  have htokens : (scan a.toList : List (Token K)).map lower = (scan b.toList).map lower := by
    rw [← scan_foldCase a.toList, ← scan_foldCase b.toList, hfold]
  exact (caseBlind_rule maxBlockDepth).parse_eq htokens

/-- A relative colour in capitals, with digits, an exponent and a unit in them: both texts write the
colour whose names are in lower case. -/
theorem ofText?_eq_of_toLower_eq_capitals :
    let turned : Expression Double :=
      .sum [(.add, .leaf (.symbol "h")), (.add, .leaf (.dimension 10.0 "turn"))]
    "LCH(FROM #ABC L C CALC(H + 1E1Turn))".toLower = "lch(from #abc l c calc(h + 1e1turn))".toLower ∧
      (ofText? "LCH(FROM #ABC L C CALC(H + 1E1Turn))" : Option (ColorValue Double)) =
        ofText? "lch(from #abc l c calc(h + 1e1turn))" ∧
      ofText? "lch(from #abc l c calc(h + 1e1turn))" = some (relative (hex ⟨170, 187, 204, 255⟩)
        .lch ⟨⟨.keyword "l", .keyword "c", .expression turned⟩, none⟩) :=
  ⟨toLower_eq_toLower_iff.2 (by decide),
    ofText?_eq_of_toLower_eq (toLower_eq_toLower_iff.2 (by decide)), by decide +kernel⟩

end ColorValue

end CssColor
