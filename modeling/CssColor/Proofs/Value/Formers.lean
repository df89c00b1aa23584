import CssColor.Value.Grammar
import Mathlib.Data.Nat.Init

/-!
# Properties that the rule formers keep

The grammar is made of a few rule formers: rules one after the other, choices by what has been read,
rules that are put back where they fail, repetition, and blocks with a bound on their number of
levels. `Rule.KeptByFormers` says that a property is kept by each of them. Such a property holds for
expressions (`Rule.KeptByFormers.expression`) and for colour values (`Rule.KeptByFormers.color`).

A property is one of rules with the number of levels as a parameter, since what a rule does in a
block depends on how many levels are left there. `P n r` is about the rules `r levels` for up to `n`
levels, and to show it for a rule with blocks in it, `r` may be assumed to have the property for
fewer levels.
-/

namespace CssColor.Rule

variable {K : Type}

/-- A property of rules with up to `n` levels of blocks that the rule formers keep. -/
structure KeptByFormers (P : ∀ {α : Type}, ℕ → (ℕ → Rule K α) → Prop) : Prop where
  pure : ∀ {n : ℕ} {α : Type} (a : α), P n fun _ => pure a
  fail : ∀ {n : ℕ} {α : Type}, P n fun _ => (fail : Rule K α)
  bind : ∀ {n : ℕ} {α β : Type} {r : ℕ → Rule K α} {next : ℕ → α → Rule K β}, P n r →
    (∀ a, P n fun levels => next levels a) → P n fun levels => r levels >>= next levels
  optional : ∀ {n : ℕ} {α : Type} {r : ℕ → Rule K α}, P n r → P n fun levels => optional (r levels)
  many : ∀ {n : ℕ} {α : Type} {r : ℕ → Rule K α}, P n r → P n fun levels => many (r levels)
  next : ∀ {n : ℕ}, P n fun _ => next
  skipBlanks : ∀ {n : ℕ}, P n fun _ => skipBlanks
  peekAt : ∀ {n : ℕ} (index : ℕ), P n fun _ => peekAt index
  /-- One of the levels is used up in a block. -/
  nested : ∀ {n : ℕ} {α : Type} {r : ℕ → Rule K α}, (∀ m < n, P m r) →
    P n fun levels => nested levels r

namespace KeptByFormers

variable {P : ∀ {α : Type}, ℕ → (ℕ → Rule K α) → Prop} {α : Type} {n : ℕ}

/-! ## Tokens -/

/-- A value that may be missing takes nothing. -/
theorem ofOption (hP : KeptByFormers P) (value : Option α) : P n fun _ => ofOption value := by
  cases value with
  | none => exact hP.fail
  | some a => exact hP.pure a

/-- A choice that does not depend on the levels. -/
theorem ite {condition : Prop} [Decidable condition] {r r' : ℕ → Rule K α} (h : P n r)
    (h' : P n r') : P n fun levels => if condition then r levels else r' levels := by
  by_cases hcondition : condition
  · simpa only [if_pos hcondition] using h
  · simpa only [if_neg hcondition] using h'

/-- The next token that is not blank. -/
theorem nextSolid (hP : KeptByFormers P) : P n fun _ => nextSolid :=
  hP.bind hP.skipBlanks fun _ => hP.next

/-- A token that has to satisfy a condition. -/
theorem nextWith (hP : KeptByFormers P) (accepts : Token K → Bool) :
    P n fun _ => nextWith accepts :=
  hP.bind hP.nextSolid fun _ => ite (hP.pure ()) hP.fail

/-- An identifier, whatever its name. -/
theorem identifier (hP : KeptByFormers P) : P n fun _ => identifier := by
  refine hP.bind hP.nextSolid fun token => ?_
  cases token with
  | ident name => exact hP.pure name
  | _ => exact hP.fail

/-- A blank, which has to be there. -/
theorem blank (hP : KeptByFormers P) : P n fun _ => blank :=
  hP.bind hP.next fun _ => ite (hP.pure ()) hP.fail

/-- A look at the function that comes next. -/
theorem isCalling (hP : KeptByFormers P) (name : String) : P n fun _ => isCalling name :=
  hP.bind (hP.peekAt 0) fun _ => hP.pure _

/-- A look at the identifier that comes next. -/
theorem isNaming (hP : KeptByFormers P) (name : String) : P n fun _ => isNaming name :=
  hP.bind (hP.peekAt 0) fun _ => hP.pure _

/-! ## Expressions -/

section

variable {block : ℕ → Rule K (Expression K)}

/-- A value is a single token or a block. -/
theorem valueRule (hP : KeptByFormers P) (h : P n block) :
    P n fun levels => Expression.valueRule (block levels) := by
  refine hP.bind hP.nextSolid fun token => ?_
  cases token with
  | number value => exact hP.pure _
  | percentage value => exact hP.pure _
  | dimension value unit => exact hP.pure _
  | ident name => exact hP.pure _
  | openParen => exact h
  | function name => exact ite h hP.fail
  | _ => exact hP.fail

/-- A further factor starts with `*` or `/`. -/
theorem factorRule (hP : KeptByFormers P) (h : P n block) :
    P n fun levels => Expression.factorRule (block levels) := by
  have hvalue := hP.valueRule h
  refine hP.bind hP.nextSolid fun token => ?_
  cases token with
  | delim char =>
    by_cases hstar : char = '*'
    · subst hstar
      exact hP.bind hvalue fun _ => hP.pure _
    by_cases hslash : char = '/'
    · subst hslash
      exact hP.bind hvalue fun _ => hP.pure _
    simpa [hstar, hslash] using hP.fail
  | _ => exact hP.fail

/-- A product is a value and further factors. -/
theorem productRule (hP : KeptByFormers P) (h : P n block) :
    P n fun levels => Expression.productRule (block levels) :=
  hP.bind (hP.valueRule h) fun _ => hP.bind (hP.many (hP.factorRule h)) fun _ => hP.pure _

/-- A sign is `+` or `-` between blanks. -/
theorem signRule (hP : KeptByFormers P) : P n fun _ => Expression.signRule := by
  refine hP.bind hP.blank fun _ => hP.bind hP.next fun token => ?_
  split
  · exact hP.bind hP.blank fun _ => hP.pure _
  · exact hP.bind hP.blank fun _ => hP.pure _
  · exact hP.fail

/-- A further addend is a sign and a product. -/
theorem addendRule (hP : KeptByFormers P) (h : P n block) :
    P n fun levels => Expression.addendRule (block levels) :=
  hP.bind hP.signRule fun _ => hP.bind (hP.productRule h) fun _ => hP.pure _

/-- The content of a block is a sum and a closing parenthesis. -/
theorem contentRule (hP : KeptByFormers P) (h : P n block) :
    P n fun levels => Expression.contentRule (block levels) := by
  have hsum : P n fun levels => Expression.sumRule (block levels) :=
    hP.bind (hP.productRule h) fun _ => hP.bind (hP.many (hP.addendRule h)) fun _ => hP.pure _
  exact hP.bind hsum fun _ => hP.bind (hP.nextWith _) fun _ => hP.pure _

end

/-- The blocks in a block have one level less. -/
theorem expressionBlock (hP : KeptByFormers P) (n : ℕ) :
    P n (Expression.blockRule : ℕ → Rule K (Expression K)) := by
  have hunfold : (Expression.blockRule : ℕ → Rule K (Expression K)) = fun levels =>
      Expression.contentRule (Rule.nested levels Expression.blockRule) := by
    funext levels
    cases levels <;> rfl
  induction n using Nat.strong_induction_on with
  | _ n ih =>
    rw [hunfold]
    exact hP.contentRule (hP.nested ih)

/-- A property that the rule formers keep holds for calls of `calc()`. -/
theorem expression (hP : KeptByFormers P) (n : ℕ) :
    P n (Expression.rule : ℕ → Rule K (Expression K)) :=
  hP.bind (hP.nextWith _) fun _ => hP.nested fun m _ => hP.expressionBlock m

/-! ## Arguments -/

section

variable {expression : ℕ → Rule K (Expression K)} {color : ℕ → Rule K (ColorValue K)}

/-- An argument is a call of `calc()` or a single token. -/
theorem argument (hP : KeptByFormers P) (h : P n expression) :
    P n fun levels => Argument.rule (expression levels) := by
  refine hP.bind (hP.isCalling "calc") fun _ => ite ?_ ?_
  · exact hP.bind h fun _ => hP.pure _
  · refine hP.bind hP.nextSolid fun token => ?_
    cases token with
    | number value => exact hP.pure _
    | percentage value => exact hP.pure _
    | dimension value unit => exact hP.pure _
    | ident name => exact hP.pure _
    | _ => exact hP.fail

/-- Between commas, an argument may not be a name. -/
theorem legacyArgument (hP : KeptByFormers P) (h : P n expression) :
    P n fun levels => Argument.legacyRule (expression levels) :=
  hP.bind (hP.argument h) fun _ => ite hP.fail (hP.pure _)

/-- Three arguments with commas between them, and an alpha after a further comma. -/
theorem legacyArguments (hP : KeptByFormers P) (h : P n expression) (space : Space) :
    P n fun levels => Arguments.legacyRule (expression levels) space := by
  have hargument := hP.legacyArgument h
  have hcomma : P n fun _ => comma := hP.nextWith _
  have hclose : P n fun _ => closeParen := hP.nextWith _
  have halpha := hP.optional (hP.bind hcomma fun _ => hargument)
  exact hP.bind hargument fun _ => hP.bind hcomma fun _ => hP.bind hargument fun _ =>
    hP.bind hcomma fun _ => hP.bind hargument fun _ => hP.bind halpha fun _ =>
    hP.bind hclose fun _ => ite (hP.pure _) hP.fail

/-- Three arguments with blanks between them, and an alpha after a slash. -/
theorem modernArguments (hP : KeptByFormers P) (h : P n expression) :
    P n fun levels => Arguments.modernRule (expression levels) := by
  have hargument := hP.argument h
  have hclose : P n fun _ => closeParen := hP.nextWith _
  have halpha := hP.optional (hP.bind (hP.nextWith (Token.isDelim '/')) fun _ => hargument)
  exact hP.bind hargument fun _ => hP.bind hargument fun _ => hP.bind hargument fun _ =>
    hP.bind halpha fun _ => hP.bind hclose fun _ => hP.pure _

/-! ## Colour values -/

/-- The space of a colour function is given by its name or by an identifier. -/
theorem spaceRule (hP : KeptByFormers P) (name : ColorValue.FunctionName) :
    P n fun _ => ColorValue.spaceRule name := by
  cases name with
  | ofSpace space => exact hP.pure space
  | predefined => exact hP.bind hP.identifier fun _ => hP.ofOption _

/-- The content of a colour function with blanks, after an origin or without one. -/
theorem modernFunction (hP : KeptByFormers P) (h : P n expression) (hcolor : P n color)
    (name : ColorValue.FunctionName) :
    P n fun levels => ColorValue.modernRule (expression levels) (color levels) name := by
  have hspace : P n fun _ => ColorValue.spaceRule name := hP.spaceRule name
  have harguments := hP.modernArguments h
  refine hP.bind (hP.isNaming "from") fun _ => ite ?_ ?_
  · exact hP.bind (hP.nextWith _) fun _ => hP.bind hcolor fun _ => hP.bind hspace fun _ =>
      hP.bind harguments fun _ => hP.pure _
  · exact hP.bind hspace fun _ => hP.bind harguments fun _ => hP.pure _

/-- The content of a colour function with commas, which only the legacy spaces have. -/
theorem legacyFunction (hP : KeptByFormers P) (h : P n expression)
    (name : ColorValue.FunctionName) :
    P n fun levels => ColorValue.legacyRule (expression levels) name := by
  cases name with
  | ofSpace space =>
    exact ite (hP.bind (hP.legacyArguments h space) fun _ => hP.pure _) hP.fail
  | predefined => exact hP.fail

/-- The notation with commas is tried first. -/
theorem function (hP : KeptByFormers P) (h : P n expression) (hcolor : P n color)
    (name : String) :
    P n fun levels => ColorValue.functionRule (expression levels) (color levels) name := by
  refine hP.bind (hP.ofOption _) fun name =>
    hP.bind (hP.optional (hP.legacyFunction h name)) fun value => ?_
  cases value with
  | some value => exact hP.pure value
  | none => exact hP.modernFunction h hcolor name

/-- The arc of a hue is a name and a keyword. -/
theorem arcRule (hP : KeptByFormers P) : P n fun _ => ColorValue.arcRule :=
  hP.bind hP.identifier fun _ => hP.bind (hP.ofOption _) fun _ => hP.bind (hP.nextWith _) fun _ =>
    hP.pure _

variable [Scalar K]

/-- A share is a percentage, or an expression that gives one, within its bounds. -/
theorem shareRule (hP : KeptByFormers P) (h : P n expression) :
    P n fun levels => ColorValue.shareRule (expression levels) := by
  have hcheck (share : K) : P n fun _ =>
      (if Number.isBetween 0.0 100.0 share then Pure.pure share else Rule.fail : Rule K K) :=
    ite (hP.pure share) hP.fail
  refine hP.bind (hP.isCalling "calc") fun _ => ite ?_ ?_
  · refine hP.bind h fun value => ?_
    split
    · exact hP.bind (hP.pure _) hcheck
    · exact hP.bind hP.fail hcheck
  · refine hP.bind hP.nextSolid fun token => ?_
    split
    · exact hP.bind (hP.pure _) hcheck
    · exact hP.bind hP.fail hcheck

/-- A colour to be mixed has its share before it or after it. -/
theorem ingredientRule (hP : KeptByFormers P) (h : P n expression) (hcolor : P n color) :
    P n fun levels => ColorValue.ingredientRule (expression levels) (color levels) := by
  have hshare := hP.optional (hP.shareRule h)
  refine hP.bind hshare fun leading => hP.bind hcolor fun value => ?_
  cases leading with
  | some share => exact hP.pure _
  | none => exact hP.bind hshare fun _ => hP.pure _

/-- The content of a mix is a space, an arc and two colours with their shares. -/
theorem mixRule (hP : KeptByFormers P) (h : P n expression) (hcolor : P n color) :
    P n fun levels => ColorValue.mixRule (expression levels) (color levels) := by
  have hingredient := hP.ingredientRule h hcolor
  have hcomma : P n fun _ => comma := hP.nextWith _
  have hclose : P n fun _ => closeParen := hP.nextWith _
  refine hP.bind (hP.nextWith _) fun _ => hP.bind hP.identifier fun _ =>
    hP.bind (hP.ofOption _) fun _ => hP.bind (hP.optional hP.arcRule) fun _ => ite hP.fail ?_
  exact hP.bind hcomma fun _ => hP.bind hingredient fun (_, _) => hP.bind hcomma fun _ =>
    hP.bind hingredient fun (_, _) => hP.bind hclose fun _ => hP.pure _

omit [Scalar K] in
/-- A colour value is a word, digits, or a function whose content `call` reads. -/
theorem colorWith (hP : KeptByFormers P) {call : ℕ → String → Rule K (ColorValue K)}
    (h : ∀ name, P n fun levels => call levels name) :
    P n fun levels => ColorValue.ruleWith (call levels) := by
  refine hP.bind hP.nextSolid fun token => ?_
  cases token with
  | ident name => exact hP.ofOption _
  | hash digits isId => exact hP.bind (hP.ofOption _) fun _ => hP.pure _
  | function name => exact h name
  | _ => exact hP.fail

end

/-- A property that the rule formers keep holds for colour values. -/
theorem color [Scalar K] (hP : KeptByFormers P) (n : ℕ) :
    P n (ColorValue.rule : ℕ → Rule K (ColorValue K)) := by
  have hunfold : (ColorValue.rule : ℕ → Rule K (ColorValue K)) = fun levels =>
      ColorValue.ruleWith fun name => Rule.nested levels fun levels =>
        ColorValue.callRule (Expression.rule levels) (ColorValue.rule levels) name := by
    funext levels
    cases levels <;> rfl
  induction n using Nat.strong_induction_on with
  | _ n ih =>
    rw [hunfold]
    -- The functions in a function have one level less.
    refine hP.colorWith fun name => hP.nested fun m hm => ?_
    have hexpression : P m (Expression.rule : ℕ → Rule K (Expression K)) := hP.expression m
    exact ite (hP.mixRule hexpression (ih m hm)) (hP.function hexpression (ih m hm) name)

end KeptByFormers

end CssColor.Rule
