import CssColor.Proofs.Token.Recognition
import CssColor.Proofs.Token.Spelling
import CssColor.Proofs.Value.BlockDepth
import CssColor.Resolution
import Mathlib

/-!
# Texts that are read as values

A text is read as a colour value (`ColorValue.Writes`) if it is split into tokens that the grammar
recognises as the value, and has no references in it. This module puts together what the grammar
recognises as arguments and as the calls of colour functions.
-/

namespace CssColor

open Token Rule

variable {K : Type}

/-! ## Arguments -/

section Arguments

variable {expression : Rule K (Expression K)} {first second third alpha : Argument K}
  {tokens₁ tokens₂ tokens₃ tokens₄ : List (Token K)}

/-- Blanks in front of an argument are skipped, since an expression skips them, too. -/
theorem Argument.skipsBlank_rule (h : SkipsBlank expression) :
    SkipsBlank (Argument.rule expression) := by
  refine SkipsBlank.isCalling_bind fun isCalling => ?_
  cases isCalling with
  | true => exact h.bind
  | false => exact skipsBlank_nextSolid.bind

/-- A token in front that does not open a function is read alone. -/
theorem Argument.reads_token {token : Token K} (hblank : token.isWhitespace = false)
    (hcall : token.isFunction "calc" = false) {argument : Argument K}
    (h : ∀ rest, Argument.tokenRule (token :: rest) = (some argument, rest)) :
    Reads (Argument.rule expression) [token] argument := by
  refine Reads.after_look (a := false) (fun rest => ?_) h
  rw [← hcall]
  exact isCalling_cons hblank "calc" rest

/-- The tokens of three arguments with blanks between them, and of an alpha behind a slash. -/
def Arguments.tokens (first second third : List (Token K)) :
    Option (List (Token K)) → List (Token K)
  | none => first ++ [whitespace] ++ second ++ [whitespace] ++ third
  | some alpha => first ++ [whitespace] ++ second ++ [whitespace] ++ third
      ++ [whitespace, delim '/', whitespace] ++ alpha

/-- Three arguments with blanks between them, up to the parenthesis that closes them. -/
theorem Arguments.reads_modernRule (hskip : SkipsBlank expression)
    (h₁ : Reads (Argument.rule expression) tokens₁ first)
    (h₂ : Reads (Argument.rule expression) tokens₂ second)
    (h₃ : Reads (Argument.rule expression) tokens₃ third) :
    Reads (modernRule expression)
      (Arguments.tokens tokens₁ tokens₂ tokens₃ none ++ [.closeParen])
      ⟨⟨first, second, third⟩, none⟩ := by
  have hskip := Argument.skipsBlank_rule hskip
  have htokens : Arguments.tokens tokens₁ tokens₂ tokens₃ none ++ [.closeParen] =
      tokens₁ ++ (whitespace :: tokens₂ ++ (whitespace :: tokens₃ ++ [.closeParen])) := by
    simp only [Arguments.tokens, List.append_assoc, List.cons_append, List.nil_append]
  rw [htokens]
  refine h₁.bind ((h₂.blank hskip).bind ((h₃.blank hskip).bind ?_))
  exact Reads.after_look (fun rest => optional_of_fails rfl) (reads_closeParen.map fun _ => _)

/-- With an alpha behind a slash. -/
theorem Arguments.reads_modernRule_alpha (hskip : SkipsBlank expression)
    (h₁ : Reads (Argument.rule expression) tokens₁ first)
    (h₂ : Reads (Argument.rule expression) tokens₂ second)
    (h₃ : Reads (Argument.rule expression) tokens₃ third)
    (h₄ : Reads (Argument.rule expression) tokens₄ alpha) :
    Reads (modernRule expression)
      (Arguments.tokens tokens₁ tokens₂ tokens₃ (some tokens₄) ++ [.closeParen])
      ⟨⟨first, second, third⟩, some alpha⟩ := by
  have hskip := Argument.skipsBlank_rule hskip
  -- The alpha is optional, and here it is read together with its slash.
  have hslash : Reads (Rule.nextWith (Token.isDelim '/') : Rule K Unit)
      [whitespace, delim '/'] () :=
    (reads_nextWith rfl rfl).blank (skipsBlank_nextWith _)
  have htokens : Arguments.tokens tokens₁ tokens₂ tokens₃ (some tokens₄) ++ [.closeParen] =
      tokens₁ ++ (whitespace :: tokens₂ ++ (whitespace :: tokens₃ ++
        ([whitespace, delim '/'] ++ whitespace :: tokens₄ ++ [.closeParen]))) := by
    simp only [Arguments.tokens, List.append_assoc, List.cons_append, List.nil_append]
  rw [htokens]
  refine h₁.bind ((h₂.blank hskip).bind ((h₃.blank hskip).bind ?_))
  exact (hslash.bind (h₄.blank hskip)).optional.bind (reads_closeParen.map fun _ => _)

/-- Numbers between commas are the arguments of a legacy colour. -/
theorem Arguments.reads_legacyRule (red green blue : K) :
    Reads (legacyRule expression .rgb)
      [.number red, comma, whitespace, .number green, comma, whitespace, .number blue, .closeParen]
      ⟨⟨.number red, .number green, .number blue⟩, none⟩ := fun _ => rfl

/-- Four numbers with commas between them, the last of which is the alpha. -/
theorem Arguments.reads_legacyRule_alpha (red green blue alpha : K) :
    Reads (legacyRule expression .rgb)
      [.number red, comma, whitespace, .number green, comma, whitespace, .number blue, comma,
        whitespace, .number alpha, .closeParen]
      ⟨⟨.number red, .number green, .number blue⟩, some (.number alpha)⟩ := fun _ => rfl

end Arguments

/-! ## Colour functions -/

/-- The name of the function that writes the colours of a space. -/
def Space.functionName (space : Space) : String :=
  if space.isPredefined then "color" else space.name

/-- The name of a space is a word. -/
theorem Space.isWord_name (space : Space) : IsWord space.name = true := by
  cases space <;> rfl

/-- The name of the function of a space is a word. -/
theorem Space.isWord_functionName (space : Space) : IsWord space.functionName = true := by
  cases space <;> rfl

/-- No space has a function that is called like a mix. -/
theorem Space.functionName_not_mix (space : Space) :
    Text.sameIgnoringCase space.functionName "color-mix" = false := by
  cases space <;> cbv

/-- The function of a space is not a reference. -/
theorem Space.isFunction_var_functionName (space : Space) :
    (Token.function space.functionName : Token K).isFunction "var" = false := by
  cases space <;> cbv

/-- The name of a space is not the keyword in front of an origin. -/
theorem Space.isIdent_from_name (space : Space) :
    (Token.ident space.name : Token K).isIdent "from" = false := by
  cases space <;> cbv

/-- A predefined space is found under its own name. -/
theorem Space.ofPredefinedName?_name {space : Space} (h : space.isPredefined = true) :
    Space.ofPredefinedName? space.name = some space := by
  revert h
  cases space <;> decide +kernel

namespace ColorValue

/-- What the name of the function of a space says. -/
def FunctionName.ofFunction (space : Space) : FunctionName :=
  if space.isPredefined then .predefined else .ofSpace space

/-- The function of a space is found under its own name. -/
theorem FunctionName.ofText?_functionName (space : Space) :
    FunctionName.ofText? space.functionName = some (.ofFunction space) := by
  cases space <;> cbv

/-- The tokens that name a space in front of the arguments, where the function does not. -/
def spaceTokens (space : Space) : List (Token K) :=
  if space.isPredefined then [ident space.name, whitespace] else []

/-- The space is read from its tokens if there are any, and known from the function otherwise. -/
theorem reads_spaceRule_bind {α : Type} {next : Space → Rule K α} {space : Space}
    {tokens : List (Token K)} {a : α} (hskip : SkipsBlank (next space))
    (h : Reads (next space) tokens a) :
    Reads (spaceRule (.ofFunction space) >>= next) (spaceTokens space ++ tokens) a := by
  unfold FunctionName.ofFunction spaceTokens
  split
  · next hpredefined =>
    have hspace : Reads (spaceRule .predefined : Rule K Space) [ident space.name] space := by
      refine (reads_identifier space.name).bind (?_ : Reads _ [] space)
      rw [Space.ofPredefinedName?_name hpredefined]
      exact Reads.pure space
    exact hspace.bind (h.blank hskip)
  · exact h

/-- Blanks in front of a space are skipped, and so are those in front of what follows it. -/
theorem skipsBlank_spaceRule_bind {α : Type} {next : Space → Rule K α} {space : Space}
    (hskip : SkipsBlank (next space)) :
    SkipsBlank (spaceRule (.ofFunction space) >>= next) := by
  unfold FunctionName.ofFunction
  split
  · exact SkipsBlank.bind (SkipsBlank.bind skipsBlank_identifier)
  · exact hskip

section Functions

variable {expression : Rule K (Expression K)} {color : Rule K (ColorValue K)} {space : Space}
  {tokens origin : List (Token K)} {arguments : Arguments K} {value : ColorValue K}

/-- Blanks in front of the first argument are skipped. -/
theorem skipsBlank_modernRule (hskip : SkipsBlank expression) :
    SkipsBlank (Arguments.modernRule expression) :=
  (Argument.skipsBlank_rule hskip).bind

/-- The content of a colour function without an origin. -/
theorem reads_modernRule (hskip : SkipsBlank expression) {token : Token K}
    (hblank : token.isWhitespace = false) (hfrom : token.isIdent "from" = false)
    (h : Reads (Arguments.modernRule expression) (token :: tokens) arguments) :
    Reads (modernRule expression color (.ofFunction space))
      (spaceTokens space ++ token :: tokens) (function space arguments) := by
  have hrest : Reads (spaceRule (.ofFunction space) >>= fun space => do
      return function space (← Arguments.modernRule expression))
      (spaceTokens space ++ token :: tokens) (function space arguments) :=
    reads_spaceRule_bind (skipsBlank_modernRule hskip).bind (h.map _)
  -- The first token is not `from`, so no origin is looked for.
  refine Reads.after_look (a := false) (fun rest => ?_) hrest
  unfold spaceTokens
  split
  · have hname := isNaming_cons (show (ident space.name : Token K).isWhitespace = false from rfl)
      "from" (whitespace :: token :: tokens ++ rest)
    rwa [Space.isIdent_from_name] at hname
  · have htoken := isNaming_cons hblank "from" (tokens ++ rest)
    rwa [hfrom] at htoken

/-- The content of a colour function with an origin. -/
theorem reads_modernRule_relative (hskip : SkipsBlank expression) (hcolor : SkipsBlank color)
    (horigin : Reads color origin value)
    (h : Reads (Arguments.modernRule expression) tokens arguments) :
    Reads (modernRule expression color (.ofFunction space))
      (ident "from" :: whitespace :: origin ++ whitespace :: (spaceTokens space ++ tokens))
      (relative value space arguments) := by
  have hspace : Reads (spaceRule (.ofFunction space) >>= fun space => do
      return relative value space (← Arguments.modernRule expression))
      (spaceTokens space ++ tokens) (relative value space arguments) :=
    reads_spaceRule_bind (skipsBlank_modernRule hskip).bind (h.map _)
  have hfrom : ∀ rest : List (Token K),
      isNaming "from" (ident "from" :: rest) = (some true, ident "from" :: rest) := by
    intro rest
    rw [isNaming_cons rfl, Token.isIdent, beq_self_eq_true]
  -- The look at `from` leaves it to be read again.
  refine Reads.after_look (fun rest => hfrom _) ?_
  show Reads _ ([ident "from"] ++
    (whitespace :: origin ++ whitespace :: (spaceTokens space ++ tokens))) _
  exact (reads_keyword "from").bind ((horigin.blank hcolor).bind
    (hspace.blank (skipsBlank_spaceRule_bind (skipsBlank_modernRule hskip).bind)))

/-! ## Calls -/

/-- No space but the legacy ones has a notation with commas. -/
theorem legacyRule_of_not_isLegacy (h : space.isLegacy = false) :
    legacyRule expression (.ofFunction space) = Rule.fail := by
  cases space <;> first | rfl | cases h

/-- The notation with commas has no origin. -/
theorem legacyRule_from (space : Space) (rest : List (Token K)) :
    (legacyRule expression (.ofFunction space) (ident "from" :: rest)).1 = none := by
  cases hlegacy : space.isLegacy with
  | false =>
    rw [legacyRule_of_not_isLegacy hlegacy]
    rfl
  | true =>
    -- The keyword is taken for a word, and the legacy syntax has none.
    have hfirst : (Argument.legacyRule expression (ident "from" :: rest)).1 = none := by
      show ((if (if Text.sameIgnoringCase "from" "none" then Argument.missing
        else Argument.keyword "from".toLower : Argument K).isWord then Rule.fail
        else pure _) rest).1 = none
      split <;> rfl
    have hcontent : legacyRule expression (.ofFunction space) =
        (do return function space (← Arguments.legacyRule expression space)) := by
      cases space <;> first | rfl | cases hlegacy
    rw [hcontent]
    exact bind_fst_eq_none (bind_fst_eq_none hfirst)

/-- A colour function whose content is not in the notation with commas. -/
theorem reads_functionRule (hlegacy : ∀ rest,
      (legacyRule expression (.ofFunction space) (tokens ++ rest)).1 = none)
    (h : Reads (modernRule expression color (.ofFunction space)) tokens value) :
    Reads (functionRule expression color space.functionName) tokens value := by
  intro rest
  unfold functionRule
  rw [FunctionName.ofText?_functionName]
  show ((legacyRule expression (.ofFunction space)).optional >>= _) (tokens ++ rest) = _
  rw [bind_of_some (optional_of_fails (hlegacy rest))]
  exact h rest

end Functions

variable [Scalar K] {space : Space} {tokens origin : List (Token K)} {arguments : Arguments K}
  {value : ColorValue K}

/-- The call of a function is read by its content. -/
theorem reads_call {name : String}
    (h : Reads (callRule (Expression.callRule Expression.unlimitedBlock) unlimitedRule name) tokens
      value) : Reads unlimitedRule (Token.function name :: tokens) value := by
  rw [unlimitedRule_eq]
  have htoken : Reads nextSolid [(Token.function name : Token K)] (Token.function name) :=
    reads_nextSolid rfl
  exact htoken.bind h

omit [Scalar K] in
/-- Blanks in front of a call of a math function are skipped. -/
theorem skipsBlank_callRule : SkipsBlank (Expression.callRule (K := K) Expression.unlimitedBlock) :=
  (skipsBlank_nextWith _).bind

/-- Blanks in front of a colour are skipped. -/
theorem skipsBlank_unlimitedRule : SkipsBlank (unlimitedRule : Rule K (ColorValue K)) := by
  rw [unlimitedRule_eq]
  exact skipsBlank_nextSolid.bind

/-- A call of the function of a space, in the notation with blanks. The other notation is tried
first and has to fail. -/
theorem reads_spaceCall
    (hlegacy : ∀ rest, (legacyRule (Expression.callRule Expression.unlimitedBlock)
      (.ofFunction space) (tokens ++ rest)).1 = none)
    (h : Reads (modernRule (Expression.callRule Expression.unlimitedBlock) unlimitedRule
      (.ofFunction space)) tokens value) :
    Reads unlimitedRule (Token.function space.functionName :: tokens) value := by
  refine reads_call ?_
  unfold callRule
  rw [Space.functionName_not_mix]
  exact reads_functionRule hlegacy h

/-- A colour function without an origin. -/
theorem reads_plain (hspace : space.isLegacy = false) {token : Token K}
    (hblank : token.isWhitespace = false) (hfrom : token.isIdent "from" = false)
    (h : Reads (Arguments.modernRule (Expression.callRule Expression.unlimitedBlock))
      (token :: tokens) arguments) :
    Reads unlimitedRule
      (Token.function space.functionName :: (spaceTokens space ++ token :: tokens))
      (function space arguments) := by
  refine reads_spaceCall (fun rest => ?_) (reads_modernRule skipsBlank_callRule hblank hfrom h)
  rw [legacyRule_of_not_isLegacy hspace]
  rfl

/-- A colour function with an origin is not in the notation with commas. -/
theorem reads_relative (horigin : Reads unlimitedRule origin value)
    (h : Reads (Arguments.modernRule (Expression.callRule Expression.unlimitedBlock)) tokens
      arguments) :
    Reads unlimitedRule (Token.function space.functionName ::
      (ident "from" :: whitespace :: origin ++ whitespace :: (spaceTokens space ++ tokens)))
      (relative value space arguments) := by
  exact reads_spaceCall (fun rest => legacyRule_from space _)
    (reads_modernRule_relative skipsBlank_callRule skipsBlank_unlimitedRule horigin h)

/-! ## Texts -/

/-- A text is split into tokens that are read as a value. -/
structure Writes (text : String) (tokens : List (Token K)) (value : ColorValue K) : Prop where
  forms : Forms text tokens
  reads : Reads unlimitedRule tokens value
  no_reference : ∀ token ∈ tokens, token.isFunction "var" = false

/-- A keyword is read as its colour. -/
theorem writes_keyword {name : String} (hword : IsWord name = true)
    (h : ofKeyword? name = some value) : Writes name [Token.ident name] value where
  forms := forms_word hword
  reads := by
    rw [unlimitedRule_eq]
    have htoken : Reads nextSolid [(Token.ident name : Token K)] (Token.ident name) :=
      reads_nextSolid rfl
    refine htoken.bind (?_ : Reads _ [] _)
    intro rest
    show Rule.ofOption (ofKeyword? name) rest = _
    rw [h]
    rfl
  no_reference := by
    intro token htoken
    rw [List.mem_singleton.1 htoken]
    rfl

section Writes

variable {text : String} (h : Writes text tokens value)

include h

/-- The tokens of the text are those that are read. -/
theorem Writes.collapse_scan : collapse (scan text.toList) = tokens :=
  h.forms.spells.collapse_scan rfl

/-- No two of these tokens are blanks in a row. -/
theorem Writes.collapse_tokens : collapse tokens = tokens := by
  rw [← h.collapse_scan, collapse_collapse]

/-- The tokens are those of a value if their blocks are not nested too deeply. -/
theorem Writes.ofTokens?_eq (hnesting : Token.nesting tokens ≤ maxBlockDepth) :
    ofTokens? tokens = some value := by
  have hparse : unlimitedRule.parse tokens = some value := by
    refine parse_eq_some_iff.2 ⟨[], ?_, fun _ h => absurd h List.not_mem_nil⟩
    rw [h.collapse_tokens, ← List.append_nil tokens]
    exact h.reads []
  exact (parse_rule_eq_some_iff value).2 ⟨hparse, hnesting⟩

/-- A text that is read as a value is a colour as it stands if its blocks are not nested too
deeply. -/
theorem Writes.ofText?_eq (hnesting : Token.nesting tokens ≤ maxBlockDepth) :
    ofText? text = some value := by
  have hcollapsed : ofTokens? (scan text.toList) = (ofTokens? tokens : Option (ColorValue K)) := by
    show ((rule maxBlockDepth).complete (collapse (scan text.toList))).1 =
      ((rule maxBlockDepth).complete (collapse tokens)).1
    rw [h.collapse_scan, h.collapse_tokens]
  exact hcollapsed.trans (h.ofTokens?_eq hnesting)

/-- A text that is read as a value is a valid one if its blocks are not nested too deeply. -/
theorem Writes.ofValue?_eq (hnesting : Token.nesting tokens ≤ maxBlockDepth)
    (properties : Lookup String) : ofValue? properties text = some value := by
  have hsubstitute : Property.substitute properties text = some tokens := by
    unfold Property.substitute
    dsimp only
    -- There is no `var()`, so the value stands for its own tokens.
    rw [if_neg, h.collapse_scan]
    rw [List.any_eq_true]
    rintro ⟨token, htoken, hvar⟩
    have hsolid : token.isWhitespace = false := by
      cases token with
      | whitespace => cases hvar
      | _ => rfl
    have hmem := mem_collapse hsolid htoken
    rw [h.collapse_scan] at hmem
    rw [h.no_reference token hmem] at hvar
    cases hvar
  unfold ofValue?
  rw [hsubstitute]
  exact h.ofTokens?_eq hnesting

end Writes

end ColorValue

end CssColor
