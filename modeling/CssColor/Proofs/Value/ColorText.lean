import CssColor.Proofs.Number.Byte
import CssColor.Proofs.Value.Reading

/-!
# Texts of colours

The text of a colour is read as a plain colour function whose arguments are the components as they
are written: with the numbers that their texts read back as (`ColorValue.writes_text`), between
commas for a colour of a legacy space (`ColorValue.writes_legacyText`).
-/

namespace CssColor

open Token Rule

variable {K : Type} [Scalar K]

/-! ## Components -/

/-- The token that a component is written as. -/
def componentToken : Option K → Token K
  | some value => .number (Scalar.printed value)
  | none => .ident "none"

/-- The argument that the token of a component is read as. -/
def componentArgument : Option K → Argument K
  | some value => .number (Scalar.printed value)
  | none => .missing

section Components

variable {component : Option K}

/-- The text of a component is one token if its number is finite. -/
theorem forms_component (h : ∀ x ∈ component, Scalar.isFinite x = true) :
    Forms (componentText component) [componentToken component] := by
  cases component with
  | some x => exact forms_number (h x rfl)
  | none => exact forms_word (show IsWord "none" = true from rfl)

/-- The token of a component is not a blank. -/
theorem isWhitespace_componentToken : (componentToken component).isWhitespace = false := by
  cases component <;> rfl

/-- The token of a component is not the keyword in front of an origin. -/
theorem isIdent_from_componentToken : (componentToken component).isIdent "from" = false := by
  cases component with
  | some x => rfl
  | none => cbv

/-- The token of a component does not open a block. -/
theorem opensBlock_componentToken : (componentToken component).opensBlock = false := by
  cases component <;> rfl

/-- A component is read as an argument from its one token. -/
theorem reads_component (expression : Rule K (Expression K)) :
    Reads (Argument.rule expression) [componentToken component] (componentArgument component) := by
  cases component with
  | some x => exact Argument.reads_token rfl rfl fun _ => rfl
  | none =>
    refine Argument.reads_token rfl rfl fun rest => ?_
    show (some (if Text.sameIgnoringCase "none" "none" then Argument.missing
      else Argument.keyword "none".toLower), rest) = _
    rw [Text.sameIgnoringCase, beq_self_eq_true]
    rfl

end Components

/-- The alpha that the suffix of a colour writes; an opaque colour has none. -/
def writtenAlpha : Option K → Option (Option K)
  | some alpha => if 1.0 ≤ alpha then none else some (some (Number.max alpha 0.0))
  | none => some none

/-- The tokens of three components and a written alpha. -/
def componentTokens (components : Triple (Option K)) (alpha : Option (Option K)) : List (Token K) :=
  Arguments.tokens [componentToken components.first] [componentToken components.second]
    [componentToken components.third] (alpha.map fun alpha => [componentToken alpha])

/-- The arguments that they are read as. -/
def componentArguments (components : Triple (Option K)) (alpha : Option (Option K)) : Arguments K :=
  ⟨components.map componentArgument, alpha.map componentArgument⟩

/-- The list of components and alpha in the text of a colour. -/
def componentsText (components : Triple (Option K)) (alpha : Option K) : String :=
  componentText components.first ++ " " ++ componentText components.second ++ " "
    ++ componentText components.third ++ alphaSuffix alpha

section ComponentLists

variable {components : Triple (Option K)} {alpha : Option (Option K)}

/-- The text of three components, with an alpha that is not one, is split into their tokens. -/
theorem forms_components {alpha : Option K}
    (hcomponents : ∀ index, ∀ x ∈ components.get index, Scalar.isFinite x = true)
    (halpha : ∀ component ∈ writtenAlpha alpha, ∀ x ∈ component, Scalar.isFinite x = true) :
    Forms (componentsText components alpha) (componentTokens components (writtenAlpha alpha)) := by
  -- A blank in front of a component ends the component before it.
  have hblank : ∀ rest, EndsWord (" ".toList ++ rest) = true := fun _ => rfl
  have hlist := ((forms_component (hcomponents .first)).separated spells_blank hblank
    (forms_component (hcomponents .second))).separated spells_blank hblank
    (forms_component (hcomponents .third))
  -- The alpha is written where its token is among the tokens, and left out otherwise.
  have hsuffix : alphaSuffix alpha = (match writtenAlpha alpha with
      | none => ""
      | some component => " / " ++ componentText component) := by
    cases alpha with
    | none => rfl
    | some alpha =>
      rw [alphaSuffix, writtenAlpha]
      split <;> rfl
  unfold componentsText componentTokens
  rw [hsuffix]
  cases hwritten : writtenAlpha alpha with
  | none =>
    dsimp only
    rw [String.append_empty]
    exact hlist
  | some component =>
    have hall := hlist.separated spells_slash (fun _ => rfl)
      (forms_component (halpha component hwritten))
    dsimp only
    rw [← String.append_assoc]
    exact hall

variable (components alpha)

/-- The arguments of a colour function are read from the tokens of its components. -/
theorem reads_components :
    Reads (Arguments.modernRule (Expression.callRule Expression.unlimitedBlock))
      (componentTokens components alpha ++ [.closeParen]) (componentArguments components alpha) := by
  cases alpha with
  | none =>
    exact Arguments.reads_modernRule ColorValue.skipsBlank_callRule (reads_component _)
      (reads_component _) (reads_component _)
  | some alpha =>
    exact Arguments.reads_modernRule_alpha ColorValue.skipsBlank_callRule (reads_component _)
      (reads_component _) (reads_component _) (reads_component _)

/-- The first of the tokens is that of the first component. -/
theorem exists_componentTokens_eq_cons : ∃ tail,
    componentTokens components alpha = componentToken components.first :: tail := by
  cases alpha with
  | none => exact ⟨_, rfl⟩
  | some alpha => exact ⟨_, rfl⟩

variable {components alpha}

/-- No block is opened among the components. -/
theorem opensBlock_of_mem_componentTokens {token : Token K}
    (h : token ∈ componentTokens components alpha) : token.opensBlock = false := by
  cases alpha with
  | none =>
    simp only [componentTokens, Arguments.tokens, Option.map_none, List.mem_append,
      List.mem_singleton] at h
    rcases h with (((rfl | rfl) | rfl) | rfl) | rfl <;>
      first | exact opensBlock_componentToken | rfl
  | some alpha =>
    simp only [componentTokens, Arguments.tokens, Option.map_some, List.mem_append,
      List.mem_cons, List.not_mem_nil, or_false] at h
    rcases h with (((((rfl | rfl) | rfl) | rfl) | rfl) | rfl | rfl | rfl) | rfl <;>
      first | exact opensBlock_componentToken | rfl

end ComponentLists

/-! ## Colours -/

/-- The name of the space in front of the components, where the function does not tell. -/
def spaceText (space : Space) : String := if space.isPredefined then space.name ++ " " else ""

/-- The text of a modern colour is a call of the function of its space. -/
theorem Color.text_eq [Elementary K] {color : Color K} (h : color.space.isLegacy = false) :
    color.text = color.space.functionName ++ "(" ++
      (spaceText color.space ++ componentsText color.toFinite.components color.toFinite.alpha)
      ++ ")" := by
  obtain ⟨space, components, alpha⟩ := color
  have hpredefined : ∀ list : String, "color(" ++ space.name ++ " " ++ list ++ ")" =
      "color" ++ "(" ++ (space.name ++ " " ++ list) ++ ")" := by
    intro list
    rw [show "color(" = "color" ++ "(" from rfl]
    simp only [String.append_assoc]
  have hnamed : ∀ list : String,
      space.name ++ "(" ++ list ++ ")" = space.name ++ "(" ++ ("" ++ list) ++ ")" := by
    intro list
    rw [String.empty_append]
  -- The spaces without a function of their own are written as the first part of `color()`.
  cases space with
  | rgb | hsl | hwb => cases h
  | lab | lch | oklab | oklch => exact hnamed _
  | srgb | srgbLinear | displayP3 | a98Rgb | prophotoRgb | rec2020 | xyzD65 | xyzD50 =>
    exact hpredefined _

/-- Components made finite have values. -/
theorem Color.exists_hasValue_toFinite (color : Color Double) (index : Index) :
    ∀ x ∈ color.toFinite.components.get index, ∃ q, Double.HasValue x q := by
  intro x hx
  rw [Color.get_toFinite] at hx
  obtain ⟨y, -, rfl⟩ := Option.map_eq_some_iff.1 hx
  exact Double.hasValue_toFinite y

/-- What is written of a colour is finite: the numbers that are not were replaced before. -/
theorem Color.isFinite_toFinite (color : Color Double) (index : Index) :
    ∀ x ∈ color.toFinite.components.get index, Scalar.isFinite x = true := by
  intro x hx
  obtain ⟨q, hq⟩ := color.exists_hasValue_toFinite index x hx
  exact hq.isFinite

/-- So is the alpha, where it is written. -/
theorem Color.isFinite_writtenAlpha (color : Color Double) :
    ∀ component ∈ writtenAlpha color.toFinite.alpha, ∀ x ∈ component, Scalar.isFinite x = true := by
  have halpha : color.toFinite.alpha = color.alpha.map Scalar.toFinite := rfl
  rw [halpha]
  cases color.alpha with
  | none =>
    rintro component hcomponent x hx
    cases hcomponent
    cases hx
  | some alpha =>
    rintro component hcomponent x hx
    obtain ⟨q, hq⟩ := Double.hasValue_toFinite alpha
    rw [Option.map_some, writtenAlpha] at hcomponent
    -- An opaque colour is written without its alpha.
    split at hcomponent
    · cases hcomponent
    · cases hcomponent
      cases hx
      exact (hq.max Double.hasValue_zero).isFinite

namespace ColorValue

/-- The tokens of a colour in the notation of its space. -/
def colorTokens (color : Color Double) : List (Token Double) :=
  Token.function color.space.functionName :: (spaceTokens color.space ++
    (componentTokens color.toFinite.components (writtenAlpha color.toFinite.alpha) ++
      [.closeParen]))

/-- No block is opened inside of the call. -/
theorem opensBlock_of_mem_content {color : Color Double} {token : Token Double}
    (h : token ∈ spaceTokens color.space ++
      (componentTokens color.toFinite.components (writtenAlpha color.toFinite.alpha) ++
        [.closeParen])) : token.opensBlock = false := by
  rcases List.mem_append.1 h with h | h
  · unfold spaceTokens at h
    split at h
    · rcases List.mem_cons.1 h with rfl | h
      · rfl
      · rw [List.mem_singleton.1 h]
        rfl
    · cases h
  · rcases List.mem_append.1 h with h | h
    · exact opensBlock_of_mem_componentTokens h
    · rw [List.mem_singleton.1 h]
      rfl

/-- The text of a colour is read as a colour function of its components as they are written. -/
theorem writes_text {color : Color Double} (h : color.space.isLegacy = false) :
    Writes color.text (colorTokens color) (.function color.space
      -- The space is named only where the function does not tell it.
      (componentArguments color.toFinite.components (writtenAlpha color.toFinite.alpha))) where
  forms := by
    have hlist := forms_components color.isFinite_toFinite color.isFinite_writtenAlpha
    have hall : Forms (spaceText color.space ++
        componentsText color.toFinite.components color.toFinite.alpha)
        (spaceTokens color.space ++
          componentTokens color.toFinite.components (writtenAlpha color.toFinite.alpha)) := by
      unfold spaceText spaceTokens
      split
      · have hname := (forms_word (K := Double) color.space.isWord_name).separated spells_blank
          (fun _ => rfl) hlist
        exact hname
      · rw [String.empty_append]
        exact hlist
    have hcall := hall.call color.space.isWord_functionName
    rw [Color.text_eq h, colorTokens]
    rwa [List.append_assoc] at hcall
  -- The first component says that there is no origin.
  reads := by
    have harguments := reads_components color.toFinite.components
      (writtenAlpha color.toFinite.alpha)
    obtain ⟨tail, htail⟩ := exists_componentTokens_eq_cons color.toFinite.components
      (writtenAlpha color.toFinite.alpha)
    unfold colorTokens
    rw [htail] at harguments ⊢
    exact reads_plain h isWhitespace_componentToken isIdent_from_componentToken harguments
  -- Only the function itself could be a reference, since nothing else opens a block.
  no_reference := by
    intro token htoken
    rcases List.mem_cons.1 htoken with rfl | htoken
    · exact color.space.isFunction_var_functionName
    · exact isFunction_of_not_opens (opensBlock_of_mem_content htoken) "var"

/-! ## Legacy colours -/

end ColorValue

/-- The numbers that stand in the text of a legacy colour. -/
def Color.bytes [Elementary K] (color : Color K) : Triple K :=
  color.legacyValues.values.map fun value => Scalar.round (Number.clamp 0.0 255.0 value)

/-- The alpha in the text of a legacy colour. -/
def Color.byteAlpha [Elementary K] (color : Color K) : K :=
  alphaOfByte (Scalar.round (Number.clamp 0.0 1.0 (color.legacyValues.alpha.getD 0.0) * 255.0))

/-- The alpha of a legacy colour is left out if it would be written as one. -/
def writtenByteAlpha (alpha : K) : Option K := if Scalar.text alpha = "1" then none else some alpha

/-- The tokens of three numbers and an alpha with commas between them. -/
def legacyTokens (numbers : Triple K) (alpha : Option K) : List (Token K) :=
  [.number (Scalar.printed numbers.first)] ++ [.comma, .whitespace]
    ++ [.number (Scalar.printed numbers.second)] ++ [.comma, .whitespace]
    ++ [.number (Scalar.printed numbers.third)]
    ++ (match alpha with
      | some alpha => [.comma, .whitespace] ++ [.number (Scalar.printed alpha)]
      | none => [])

/-- The arguments that they are read as. -/
def legacyArguments (numbers : Triple K) (alpha : Option K) : Arguments K :=
  ⟨numbers.map fun number => .number (Scalar.printed number),
    alpha.map fun alpha => .number (Scalar.printed alpha)⟩

/-- The function that writes a legacy colour. -/
def legacyName (alpha : Option K) : String := if alpha.isSome then "rgba" else "rgb"

omit [Scalar K] in
/-- Both names of the legacy function are words. -/
theorem isWord_legacyName (alpha : Option K) : IsWord (legacyName alpha) = true := by
  unfold legacyName
  split <;> rfl

/-- The numbers of a legacy colour are bytes, since they are clamped and rounded. -/
theorem Color.isByte_bytes (color : Color Double) (index : Index) :
    (color.bytes.get index).IsByte := by
  have hbyte : ∃ x : Double, color.bytes.get index =
      Scalar.round (Number.clamp 0.0 255.0 (Scalar.toFinite x)) := by
    cases index <;> exact ⟨_, rfl⟩
  obtain ⟨x, hx⟩ := hbyte
  obtain ⟨q, hq⟩ := Double.hasValue_toFinite x
  rw [hx]
  exact hq.isByte_round_clamp

/-- Bytes are finite. -/
theorem Color.isFinite_bytes (color : Color Double) (index : Index) :
    Scalar.isFinite (color.bytes.get index) = true := (color.isByte_bytes index).isFinite

/-- The alpha of a legacy colour stands for a byte. -/
theorem Color.exists_byteAlpha_eq (color : Color Double) :
    ∃ byte : Double, byte.IsByte ∧ color.byteAlpha = alphaOfByte byte := by
  obtain ⟨x, hx⟩ : ∃ x : Double, color.legacyValues.alpha.getD 0.0 = Scalar.toFinite x := ⟨_, rfl⟩
  obtain ⟨q, hq⟩ := Double.hasValue_toFinite x
  refine ⟨_, hq.isByte_alpha, ?_⟩
  rw [byteAlpha, hx]

/-- The alpha of a legacy colour is finite, since it stands for a byte. -/
theorem Color.isFinite_byteAlpha (color : Color Double) :
    Scalar.isFinite color.byteAlpha = true := by
  obtain ⟨byte, hbyte, halpha⟩ := color.exists_byteAlpha_eq
  obtain ⟨q, hq⟩ := hbyte.exists_hasValue_alphaOfByte
  rw [halpha]
  exact hq.isFinite

/-- The list of numbers in the text of a legacy colour. -/
def legacyList (numbers : Triple K) (alpha : Option K) : String :=
  Scalar.text numbers.first ++ ", " ++ Scalar.text numbers.second ++ ", "
    ++ Scalar.text numbers.third
    ++ (match alpha with
      | some alpha => ", " ++ Scalar.text alpha
      | none => "")

/-- The text of a legacy colour is a call with commas between the numbers. -/
theorem Color.legacyText_eq [Elementary K] (color : Color K) : color.legacyText =
    legacyName (writtenByteAlpha color.byteAlpha) ++ "(" ++
      legacyList color.bytes (writtenByteAlpha color.byteAlpha) ++ ")" := by
  obtain ⟨list, hlist⟩ : ∃ list, Scalar.text color.bytes.first ++ ", " ++
      Scalar.text color.bytes.second ++ ", " ++ Scalar.text color.bytes.third = list := ⟨_, rfl⟩
  have htext : color.legacyText = if Scalar.text color.byteAlpha = "1" then "rgb(" ++ list ++ ")"
      else "rgba(" ++ list ++ ", " ++ Scalar.text color.byteAlpha ++ ")" := by
    unfold Color.legacyText
    dsimp only
    rw [legacyAlphaText_eq, ← hlist]
    rfl
  rw [htext]
  unfold writtenByteAlpha legacyList
  rw [hlist]
  -- The alpha is left out if it is written as one.
  split
  · dsimp only
    rw [String.append_empty]
    rfl
  · rw [show legacyName (some color.byteAlpha) = "rgba" from rfl, show "rgba(" = "rgba" ++ "(" from rfl]
    simp only [String.append_assoc]

/-- No block is opened among the numbers. -/
theorem opensBlock_of_mem_legacyTokens {numbers : Triple K} {alpha : Option K} {token : Token K}
    (h : token ∈ legacyTokens numbers alpha ++ [.closeParen]) : token.opensBlock = false := by
  cases alpha <;>
    simp only [legacyTokens, List.mem_append, List.mem_cons, List.not_mem_nil, or_false] at h
  · rcases h with ((((rfl | rfl | rfl) | rfl) | rfl | rfl) | rfl) | rfl <;> rfl
  · rcases h with (((((rfl | rfl | rfl) | rfl) | rfl | rfl) | rfl) | (rfl | rfl) | rfl) | rfl <;> rfl

namespace ColorValue

/-- A call of either of the two legacy functions is read in the notation with commas. -/
theorem reads_legacyCall {name : String} {tokens : List (Token K)} {arguments : Arguments K}
    (hname : name = "rgb" ∨ name = "rgba")
    (h : Reads (Arguments.legacyRule (Expression.callRule Expression.unlimitedBlock) .rgb) tokens
      arguments) :
    Reads unlimitedRule (Token.function name :: tokens) (function .rgb arguments) := by
  have hmix : Text.sameIgnoringCase name "color-mix" = false := by
    rcases hname with rfl | rfl <;> cbv
  have hfunction : FunctionName.ofText? name = some (.ofSpace .rgb) := by
    rcases hname with rfl | rfl <;> cbv
  refine reads_call ?_
  unfold callRule functionRule
  rw [hmix, hfunction]
  -- The legacy syntax is tried first, so the modern one is not looked at.
  have hcontent : Reads (legacyRule (Expression.callRule Expression.unlimitedBlock)
      (.ofSpace .rgb)) tokens (function .rgb arguments) := h.map _
  intro rest
  exact bind_of_some (hcontent.optional rest)

/-- The text of a legacy colour is read as a colour function of the numbers that stand in it. -/
theorem writes_legacyText [Elementary K] {color : Color K}
    (hbytes : ∀ index, Scalar.isFinite (color.bytes.get index) = true)
    (halpha : Scalar.isFinite color.byteAlpha = true) :
    Writes color.legacyText
      (Token.function (legacyName (writtenByteAlpha color.byteAlpha)) ::
        (legacyTokens color.bytes (writtenByteAlpha color.byteAlpha) ++ [.closeParen]))
      (.function .rgb (legacyArguments color.bytes (writtenByteAlpha color.byteAlpha))) where
  -- Each number ends in front of the comma that follows it.
  forms := by
    have hcomma : ∀ rest, EndsWord (", ".toList ++ rest) = true := fun _ => rfl
    have hnumber : ∀ index, Forms (Scalar.text (color.bytes.get index))
        [Token.number (Scalar.printed (color.bytes.get index))] :=
      fun index => forms_number (hbytes index)
    have hlist := ((hnumber .first).separated spells_comma hcomma (hnumber .second)).separated
      spells_comma hcomma (hnumber .third)
    have hall : Forms (legacyList color.bytes (writtenByteAlpha color.byteAlpha))
        (legacyTokens color.bytes (writtenByteAlpha color.byteAlpha)) := by
      unfold writtenByteAlpha
      split
      · show Forms (_ ++ "") (_ ++ [])
        rw [String.append_empty, List.append_nil]
        exact hlist
      · have h := hlist.separated spells_comma hcomma (forms_number halpha)
        unfold legacyList legacyTokens
        dsimp only
        rw [← String.append_assoc, ← List.append_assoc]
        exact h
    rw [Color.legacyText_eq]
    exact hall.call (isWord_legacyName _)
  -- The function is called by the longer of its names where there is an alpha.
  reads := by
    refine reads_legacyCall ?_ ?_
    · unfold legacyName
      split
      · exact .inr rfl
      · exact .inl rfl
    · cases writtenByteAlpha color.byteAlpha with
      | none => exact Arguments.reads_legacyRule _ _ _
      | some alpha => exact Arguments.reads_legacyRule_alpha _ _ _ _
  -- Neither of the two names is that of a reference.
  no_reference := by
    intro token htoken
    rcases List.mem_cons.1 htoken with rfl | htoken
    · have hname : ∀ alpha : Option K,
          (Token.function (legacyName alpha) : Token K).isFunction "var" = false := by
        intro alpha
        unfold legacyName
        split <;> cbv
      exact hname _
    · exact isFunction_of_not_opens (opensBlock_of_mem_legacyTokens htoken) "var"

end ColorValue

end CssColor
