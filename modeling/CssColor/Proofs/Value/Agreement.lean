import CssColor.Proofs.Calc.Agreement
import CssColor.Value.Grammar

/-!
# Agreement of the rules for colour values

Each rule of the grammar of colour values agrees with itself when the rules for calls of `calc()`
and for colours in it are replaced by rules that agree with them. So a grammar with a bound on the
blocks agrees with any that goes on with other rules where the bound is reached, as long as it is
not reached (`ColorValue.rule_agree`).
-/

namespace CssColor

open Rule

variable {K : Type} {P : ℕ → List (Token K) → Prop} {top levels : ℕ}
  {expression expression' : Rule K (Expression K)} {color color' : Rule K (ColorValue K)}

/-! ## Arguments -/

/-- A single token is read without the rule for expressions. -/
theorem Argument.tokenRule_agree (hP : Levelled top P) :
    Agree (P levels) (P levels) (tokenRule : Rule K (Argument K)) tokenRule := by
  refine Agree.nextSolid_bind hP fun token rest htoken => ?_
  cases token with
  | number => exact AgreeAt.pure (hP.plain rfl rfl htoken)
  | percentage => exact AgreeAt.pure (hP.plain rfl rfl htoken)
  | dimension => exact AgreeAt.pure (hP.plain rfl rfl htoken)
  | ident => exact AgreeAt.pure (hP.plain rfl rfl htoken)
  | _ => exact AgreeAt.fail

/-- An argument is an expression or a single token. -/
theorem Argument.rule_agree (hP : Levelled top P)
    (h : Agree (P levels) (P levels) expression expression') :
    Agree (P levels) (P levels) (Argument.rule expression) (Argument.rule expression') :=
  (Agree.isCalling "calc").bind fun _ =>
    Agree.ite (h.bind fun _ => Agree.pure _) (Argument.tokenRule_agree hP)

/-- An argument in the notation with commas. -/
theorem Argument.legacyRule_agree (hP : Levelled top P)
    (h : Agree (P levels) (P levels) expression expression') :
    Agree (P levels) (P levels) (Argument.legacyRule expression)
      (Argument.legacyRule expression') :=
  (Argument.rule_agree hP h).bind fun _ => Agree.ite Agree.fail (Agree.pure _)

/-- The arguments in the notation with commas, up to the parenthesis that closes them. -/
theorem Arguments.legacyRule_agree (hP : Levelled top P) (hlevels : levels < top)
    (h : Agree (P levels) (P levels) expression expression') (space : Space) :
    Agree (P levels) (P (levels + 1)) (Arguments.legacyRule expression space)
      (Arguments.legacyRule expression' space) := by
  have hargument := Argument.legacyRule_agree hP h
  have hcomma : Agree (P levels) (P levels) Rule.comma Rule.comma := Agree.comma hP
  refine hargument.bind fun first => hcomma.bind fun _ => hargument.bind fun second =>
    hcomma.bind fun _ => hargument.bind fun third => ?_
  refine (Agree.optional (hcomma.bind fun _ => hargument)).bind fun alpha =>
    (Agree.closeParen hP hlevels).bind fun _ => ?_
  exact Agree.ite (Agree.pure _) Agree.fail

/-- The arguments in the notation with blanks, up to the parenthesis that closes them. -/
theorem Arguments.modernRule_agree (hP : Levelled top P) (hlevels : levels < top)
    (h : Agree (P levels) (P levels) expression expression') :
    Agree (P levels) (P (levels + 1)) (Arguments.modernRule expression)
      (Arguments.modernRule expression') := by
  have hargument := Argument.rule_agree hP h
  refine hargument.bind fun first => hargument.bind fun second => hargument.bind fun third => ?_
  refine (Agree.optional ((Agree.delim hP '/').bind fun _ => hargument)).bind fun alpha => ?_
  exact (Agree.closeParen hP hlevels).bind fun _ => Agree.pure _

/-! ## Functions -/

namespace ColorValue

/-- The space is a name at most. -/
theorem spaceRule_agree (hP : Levelled top P) (name : FunctionName) :
    Agree (P levels) (P levels) (spaceRule name : Rule K Space) (spaceRule name) := by
  cases name with
  | ofSpace space => exact Agree.pure space
  | predefined => exact (Agree.identifier hP).bind fun _ => Agree.ofOption _

/-- A colour function in the notation with commas. -/
theorem legacyRule_agree (hP : Levelled top P) (hlevels : levels < top)
    (h : Agree (P levels) (P levels) expression expression') (name : FunctionName) :
    Agree (P levels) (P (levels + 1)) (legacyRule expression name)
      (legacyRule expression' name) := by
  cases name with
  | ofSpace space =>
    exact Agree.ite ((Arguments.legacyRule_agree hP hlevels h space).bind fun _ => Agree.pure _)
      Agree.fail
  | predefined => exact Agree.fail

/-- A colour function in the notation with blanks. -/
theorem modernRule_agree (hP : Levelled top P) (hlevels : levels < top)
    (h : Agree (P levels) (P levels) expression expression')
    (hcolor : Agree (P levels) (P levels) color color') (name : FunctionName) :
    Agree (P levels) (P (levels + 1)) (modernRule expression color name)
      (modernRule expression' color' name) := by
  have hspace : Agree (P levels) (P levels) (spaceRule name) (spaceRule name) :=
    spaceRule_agree hP name
  have harguments := Arguments.modernRule_agree hP hlevels h
  refine (Agree.isNaming "from").bind fun _ => Agree.ite ?_ ?_
  · exact (Agree.keyword hP "from").bind fun _ => hcolor.bind fun _ => hspace.bind fun _ =>
      harguments.bind fun _ => Agree.pure _
  · exact hspace.bind fun _ => harguments.bind fun _ => Agree.pure _

/-- A colour function in either notation. -/
theorem functionRule_agree (hP : Levelled top P) (hlevels : levels < top)
    (h : Agree (P levels) (P levels) expression expression')
    (hcolor : Agree (P levels) (P levels) color color') (name : String) :
    Agree (P levels) (P (levels + 1)) (functionRule expression color name)
      (functionRule expression' color' name) :=
  (Agree.ofOption _).bind fun name =>
    (legacyRule_agree hP hlevels h name).optional_bind (fun _ => Agree.pure _)
      (modernRule_agree hP hlevels h hcolor name)

/-! ## Mixes -/

/-- The arc is two names at most. -/
theorem arcRule_agree (hP : Levelled top P) :
    Agree (P levels) (P levels) (arcRule : Rule K HueArc) arcRule :=
  (Agree.identifier hP).bind fun _ => (Agree.ofOption _).bind fun _ =>
    (Agree.keyword hP "hue").bind fun _ => Agree.pure _

variable [Scalar K]

/-- A share may be an expression. -/
theorem shareRule_agree (hP : Levelled top P)
    (h : Agree (P levels) (P levels) expression expression') :
    Agree (P levels) (P levels) (shareRule expression) (shareRule expression') := by
  have hcheck : ∀ share : K, Agree (P levels) (P levels)
      (if Number.isBetween 0.0 100.0 share then pure share else Rule.fail)
      (if Number.isBetween 0.0 100.0 share then pure share else Rule.fail) :=
    fun share => Agree.ite (Agree.pure share) Agree.fail
  refine (Agree.isCalling "calc").bind fun _ => Agree.ite ?_ ?_
  · -- The percentage that an expression reduces to depends on nothing else.
    refine h.bind fun value => ?_
    split
    · exact (Agree.pure _).bind hcheck
    · exact Agree.fail.bind hcheck
  · refine Agree.nextSolid_bind hP fun token rest htoken => ?_
    split
    · exact (AgreeAt.pure (hP.plain rfl rfl htoken)).bind fun share rest _ => hcheck share rest
    · exact AgreeAt.fail.bind fun share rest _ => hcheck share rest

/-- A colour of a mix with its share on either side. -/
theorem ingredientRule_agree (hP : Levelled top P)
    (h : Agree (P levels) (P levels) expression expression')
    (hcolor : Agree (P levels) (P levels) color color') :
    Agree (P levels) (P levels) (ingredientRule expression color)
      (ingredientRule expression' color') := by
  have hshare := (shareRule_agree hP h).optional
  refine hshare.bind fun leading => hcolor.bind fun value => ?_
  -- A percentage after the colour is read only if there was none before it.
  cases leading with
  | some share => exact Agree.pure _
  | none => exact hshare.bind fun _ => Agree.pure _

/-- A mix, up to the parenthesis that closes it. -/
theorem mixRule_agree (hP : Levelled top P) (hlevels : levels < top)
    (h : Agree (P levels) (P levels) expression expression')
    (hcolor : Agree (P levels) (P levels) color color') :
    Agree (P levels) (P (levels + 1)) (mixRule expression color) (mixRule expression' color') := by
  have hcomma : Agree (P levels) (P levels) Rule.comma Rule.comma := Agree.comma hP
  have hingredient := ingredientRule_agree hP h hcolor
  refine (Agree.keyword hP "in").bind fun _ => (Agree.identifier hP).bind fun _ =>
    (Agree.ofOption _).bind fun _ => (arcRule_agree hP).optional.bind fun _ => ?_
  refine Agree.ite Agree.fail ?_
  refine hcomma.bind fun _ => hingredient.bind fun (_, _) => hcomma.bind fun _ =>
    hingredient.bind fun (_, _) => ?_
  exact (Agree.closeParen hP hlevels).bind fun _ => Agree.pure _

/-! ## Colours -/

/-- A function of any name. -/
theorem callRule_agree (hP : Levelled top P) (hlevels : levels < top)
    (h : Agree (P levels) (P levels) expression expression')
    (hcolor : Agree (P levels) (P levels) color color') (name : String) :
    Agree (P levels) (P (levels + 1)) (callRule expression color name)
      (callRule expression' color' name) :=
  Agree.ite (mixRule_agree hP hlevels h hcolor) (functionRule_agree hP hlevels h hcolor name)

omit [Scalar K] in
/-- A colour, for which only the rules of functions may differ. -/
theorem ruleWith_agree (hP : Levelled top P) {call call' : String → Rule K (ColorValue K)}
    (h : ∀ name, Agree (Opened (P levels)) (P levels) (call name) (call' name)) :
    Agree (P levels) (P levels) (ruleWith call) (ruleWith call') := by
  refine Agree.nextSolid_bind hP fun token rest htoken => ?_
  cases token with
  | ident => exact Agree.ofOption _ rest (hP.plain rfl rfl htoken)
  | hash =>
    exact (Agree.ofOption _ rest (hP.plain rfl rfl htoken)).bind fun _ _ _ h => AgreeAt.pure h
  | function name => exact h name rest ⟨_, rfl, htoken⟩
  | _ => exact AgreeAt.fail

/-- A grammar that goes on with other rules where the bound on the blocks is reached. -/
theorem rule_agree (hP : Levelled top P) (block : ℕ → Rule K (Expression K))
    (other : ℕ → Rule K (ColorValue K)) {last : String → Rule K (ColorValue K)}
    (hzero : other 0 = ruleWith last)
    (hsucc : ∀ levels,
      other (levels + 1) = ruleWith (callRule (Expression.callRule (block levels)) (other levels)))
    (hlast : ∀ name, Agree (Opened (P 0)) (P 0) Rule.fail (last name))
    (hblock : ∀ levels, levels < top → Agree (Opened (P levels)) (P levels)
      (Rule.nested levels Expression.blockRule) (block levels))
    (hlevels : levels ≤ top) : Agree (P levels) (P levels) (rule levels) (other levels) := by
  induction levels with
  | zero =>
    rw [hzero]
    exact ruleWith_agree hP hlast
  | succ levels ih =>
    -- The function takes a level, and its closing parenthesis gives it back.
    rw [hsucc]
    have hcolor := ih (Nat.le_of_succ_le hlevels)
    have hexpression := Expression.callRule_agree hP (hblock levels hlevels)
    exact ruleWith_agree hP fun name =>
      (callRule_agree hP hlevels hexpression hcolor name).opened hP

end ColorValue

end CssColor
