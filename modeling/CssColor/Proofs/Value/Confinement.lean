import CssColor.Proofs.Calc.Confinement

/-!
# Colour values inside of blocks

The rules for colour values look at no token behind the parenthesis that closes the block that they
are in, where the rules for the expressions and for the colours nested in it do so. The attempts at
other notations, which are put back where they fail, are no exception. A colour value is
self-contained (`ColorValue.isSelfContained_rule`).
-/

namespace CssColor

open Token Rule

variable {K : Type} {expression : Rule K (Expression K)} {color : Rule K (ColorValue K)} {depth : ℕ}

/-! ## Arguments -/

namespace Argument

/-- A single token does not leave the block. -/
theorem confined_tokenRule :
    Confined (depth + 1) (depth + 1) (tokenRule : Rule K (Argument K)) := by
  refine Confined.nextSolid_bind fun token rest htoken => ?_
  cases token with
  | number => exact Confined.pure _ rest (htoken.of_plain rfl rfl)
  | percentage => exact Confined.pure _ rest (htoken.of_plain rfl rfl)
  | dimension => exact Confined.pure _ rest (htoken.of_plain rfl rfl)
  | ident => exact Confined.pure _ rest (htoken.of_plain rfl rfl)
  | _ => exact .inr fun _ => rfl

/-- An argument does not leave the block. -/
theorem confined_rule (h : Confined (depth + 1) (depth + 1) expression) :
    Confined (depth + 1) (depth + 1) (rule expression) :=
  (Confined.isCalling "calc").bind fun _ =>
    Confined.ite (h.bind fun _ => Confined.pure _) confined_tokenRule

/-- An argument in the notation with commas does not leave the block. -/
theorem confined_legacyRule (h : Confined (depth + 1) (depth + 1) expression) :
    Confined (depth + 1) (depth + 1) (legacyRule expression) :=
  (confined_rule h).bind fun _ => Confined.ite Confined.fail (Confined.pure _)

end Argument

namespace Arguments

/-- The arguments in the notation with commas close the block. -/
theorem confined_legacyRule (h : Confined (depth + 1) (depth + 1) expression) (space : Space) :
    Confined (depth + 1) depth (legacyRule expression space) := by
  have hargument := Argument.confined_legacyRule h
  have hcomma : Confined (depth + 1) (depth + 1) (Rule.comma : Rule K Unit) := Confined.comma
  -- Whether there is an alpha does not depend on what follows either.
  have halpha := (hcomma.bind fun _ => hargument).optional
  exact hargument.bind fun _ => hcomma.bind fun _ => hargument.bind fun _ => hcomma.bind fun _ =>
    hargument.bind fun _ => halpha.bind fun _ => Confined.closeParen.bind fun _ =>
    Confined.ite (Confined.pure _) Confined.fail

/-- The arguments in the notation with blanks close the block. -/
theorem confined_modernRule (h : Confined (depth + 1) (depth + 1) expression) :
    Confined (depth + 1) depth (modernRule expression) := by
  have hargument := Argument.confined_rule h
  have halpha := ((Confined.delim '/').bind fun _ => hargument).optional
  exact hargument.bind fun _ => hargument.bind fun _ => hargument.bind fun _ => halpha.bind fun _ =>
    Confined.closeParen.bind fun _ => Confined.pure _

end Arguments

namespace ColorValue

/-! ## Colour functions -/

/-- The space does not leave the block. -/
theorem confined_spaceRule (name : FunctionName) :
    Confined (depth + 1) (depth + 1) (spaceRule name : Rule K Space) := by
  cases name with
  | ofSpace space => exact Confined.pure space
  | predefined => exact Confined.identifier.bind fun _ => Confined.ofOption _

/-- A colour function in the notation with blanks closes the block. -/
theorem confined_modernRule (h : Confined (depth + 1) (depth + 1) expression)
    (hcolor : Confined (depth + 1) (depth + 1) color) (name : FunctionName) :
    Confined (depth + 1) depth (modernRule expression color name) := by
  have hspace : Confined (depth + 1) (depth + 1) (spaceRule name : Rule K Space) :=
    confined_spaceRule name
  have harguments := Arguments.confined_modernRule h
  refine (Confined.isNaming "from").bind fun _ => Confined.ite ?_ ?_
  · exact (Confined.keyword "from").bind fun _ => hcolor.bind fun _ => hspace.bind fun _ =>
      harguments.bind fun _ => Confined.pure _
  · exact hspace.bind fun _ => harguments.bind fun _ => Confined.pure _

/-- A colour function in the notation with commas closes the block. -/
theorem confined_legacyRule (h : Confined (depth + 1) (depth + 1) expression)
    (name : FunctionName) : Confined (depth + 1) depth (legacyRule expression name) := by
  cases name with
  | ofSpace space =>
    exact Confined.ite ((Arguments.confined_legacyRule h space).bind fun _ => Confined.pure _)
      Confined.fail
  | predefined => exact Confined.fail

/-- The notation with commas is tried first, and put back where it fails. -/
theorem confined_functionRule (h : Confined (depth + 1) (depth + 1) expression)
    (hcolor : Confined (depth + 1) (depth + 1) color) (name : String) :
    Confined (depth + 1) depth (functionRule expression color name) :=
  (Confined.ofOption _).bind fun name => (confined_legacyRule h name).optional_bind
    (fun _ => Confined.pure _) (confined_modernRule h hcolor name)

/-! ## Mixes -/

/-- The arc does not leave the block. -/
theorem confined_arcRule : Confined (depth + 1) (depth + 1) (arcRule : Rule K HueArc) :=
  Confined.identifier.bind fun _ => (Confined.ofOption _).bind fun _ =>
    (Confined.keyword "hue").bind fun _ => Confined.pure _

variable [Scalar K]

/-- A share does not leave the block. -/
theorem confined_shareRule (h : Confined (depth + 1) (depth + 1) expression) :
    Confined (depth + 1) (depth + 1) (shareRule expression) := by
  have hcheck : ∀ share : K, Confined (depth + 1) (depth + 1)
      (if Number.isBetween 0.0 100.0 share then pure share else Rule.fail : Rule K K) :=
    fun share => Confined.ite (Confined.pure share) Confined.fail
  refine (Confined.isCalling "calc").bind fun _ => Confined.ite ?_ ?_
  · refine h.bind fun value => ?_
    split
    · exact (Confined.pure _).bind hcheck
    · exact Confined.fail.bind hcheck
  · refine Confined.nextSolid_bind fun token rest htoken => ?_
    split
    · exact ((Confined.pure _).bind hcheck) rest (htoken.of_plain rfl rfl)
    · exact .inr fun _ => rfl

/-- A colour of a mix does not leave the block. -/
theorem confined_ingredientRule (h : Confined (depth + 1) (depth + 1) expression)
    (hcolor : Confined (depth + 1) (depth + 1) color) :
    Confined (depth + 1) (depth + 1) (ingredientRule expression color) := by
  have hshare := (confined_shareRule h).optional
  refine hshare.bind fun leading => hcolor.bind fun value => ?_
  cases leading with
  | some share => exact Confined.pure _
  | none => exact hshare.bind fun _ => Confined.pure _

/-- A mix closes the block. -/
theorem confined_mixRule (h : Confined (depth + 1) (depth + 1) expression)
    (hcolor : Confined (depth + 1) (depth + 1) color) :
    Confined (depth + 1) depth (mixRule expression color) := by
  have hingredient := confined_ingredientRule h hcolor
  refine (Confined.keyword "in").bind fun _ => Confined.identifier.bind fun _ =>
    (Confined.ofOption _).bind fun _ => confined_arcRule.optional.bind fun _ =>
    Confined.ite Confined.fail ?_
  exact Confined.comma.bind fun _ => hingredient.bind fun (_, _) => Confined.comma.bind fun _ =>
    hingredient.bind fun (_, _) => Confined.closeParen.bind fun _ => Confined.pure _

/-! ## Colours -/

/-- Any function closes the block that its name has opened. -/
theorem confined_callRule (h : Confined (depth + 1) (depth + 1) expression)
    (hcolor : Confined (depth + 1) (depth + 1) color) (name : String) :
    Confined (depth + 1) depth (callRule expression color name) :=
  Confined.ite (confined_mixRule h hcolor) (confined_functionRule h hcolor name)

omit [Scalar K] in
/-- A colour does not leave the block: what a function opens it closes. -/
theorem confined_ruleWith {call : String → Rule K (ColorValue K)}
    (h : ∀ name, Confined (depth + 2) (depth + 1) (call name)) :
    Confined (depth + 1) (depth + 1) (ruleWith call) := by
  refine Confined.nextSolid_bind fun token rest htoken => ?_
  cases token with
  | ident => exact Confined.ofOption _ rest (htoken.of_plain rfl rfl)
  | hash =>
    exact ((Confined.ofOption _).bind fun _ => Confined.pure _) rest (htoken.of_plain rfl rfl)
  | function name => exact h name rest (htoken.of_opens rfl)
  | _ => exact .inr fun _ => rfl

/-- A colour value in a block, however many levels are allowed. -/
theorem confined_rule (levels : ℕ) :
    Confined (depth + 1) (depth + 1) (rule levels : Rule K (ColorValue K)) := by
  induction levels generalizing depth with
  | zero => exact confined_ruleWith fun _ => Confined.fail
  | succ levels ih =>
    exact confined_ruleWith (confined_callRule (Expression.confined_rule levels) ih)

omit [Scalar K] in
/-- A colour value is self-contained if the content of each function is. -/
theorem isSelfContained_ruleWith {call : String → Rule K (ColorValue K)}
    (hcall : ∀ name tokens a rest, call name tokens = (some a, rest) → ∃ used,
      tokens = used ++ rest ∧ Balanced (.function name :: used) ∧ Reads (call name) used a) :
    IsSelfContained (ruleWith call) := by
  -- A name and a hash are values on their own.
  have hsingle {token : Token K} (hopens : token.opensBlock = false)
      (hcloses : token.closesBlock = false) : Balanced [token] :=
    (balancedFrom_of_plain hopens hcloses).2 (balancedFrom_nil_iff.2 rfl)
  refine IsSelfContained.nextSolid_bind fun token tokens value rest h => ?_
  cases token with
  | ident name =>
    obtain ⟨hkeyword, rfl⟩ := ofOption_eq_some_iff.1 h
    refine ⟨[], rfl, hsingle rfl rfl, fun after => ?_⟩
    exact ofOption_eq_some_iff.2 ⟨hkeyword, rfl⟩
  | hash digits kind =>
    obtain ⟨bytes, left, hbytes, hvalue⟩ := bind_eq_some_iff.1 h
    obtain ⟨hdigits, rfl⟩ := ofOption_eq_some_iff.1 hbytes
    cases hvalue
    refine ⟨[], rfl, hsingle rfl rfl, fun after => ?_⟩
    exact bind_of_some (ofOption_eq_some_iff.2 ⟨hdigits, rfl⟩)
  | function name => exact hcall name tokens value rest h
  | _ => cases h

/-- A colour value takes balanced blocks, and the same off any list that starts with them. -/
theorem isSelfContained_rule (levels : ℕ) :
    IsSelfContained (rule levels : Rule K (ColorValue K)) := by
  cases levels with
  | zero =>
    -- Without a level no block is opened.
    refine isSelfContained_ruleWith fun name tokens value rest h => ?_
    cases h
  | succ levels =>
    refine isSelfContained_ruleWith fun name tokens value rest h => ?_
    let call : Rule K (ColorValue K) := callRule (Expression.rule levels) (rule levels) name
    have hconfined : Confined 1 0 call :=
      confined_callRule (Expression.confined_rule levels) (confined_rule levels) name
    -- The call gives the same result wherever the blocks have as many levels as it needs.
    have hagree {P : ℕ → List (Token K) → Prop} (hP : Levelled (levels + 1) P) :
        Agree (P levels) (P (levels + 1)) call call :=
      callRule_agree hP (Nat.lt_succ_self levels)
        (Expression.callRule_agree hP (Expression.nested_agree_self hP (Nat.le_succ levels)))
        (rule_agree_self hP (Nat.le_succ levels)) name
    exact hconfined.exists_content hagree rfl h

end ColorValue

end CssColor
