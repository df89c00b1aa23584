import CssColor.Proofs.Value.ColorText
import CssColor.Resolution

/-!
# Resolved texts as values

The text of a resolved colour is a value itself, and resolving it gives the same text. Numbers are
read back as they were written, legacy colours byte by byte. A colour in the notation of another
space has to be settled (`Color.IsSettled`): what is written of its components stays within the
ranges that arguments are brought into, and what is written of an alpha below one is below one.
-/

namespace CssColor

open Token Rule

/-! ## Values of numbers -/

namespace Double.HasValue

open Binary Scalar

variable {x y : Double} {q : ℚ}

/-- The remainder of a hue by a full turn is what is over whole turns, under its sign. -/
theorem exists_remainder_fullTurn (h : HasValue x q) : ∃ negative magnitude,
    exact x = .finite negative magnitude ∧ 0 ≤ magnitude - 360 * ⌊magnitude / 360⌋ ∧
      magnitude - 360 * ⌊magnitude / 360⌋ < 360 ∧
      remainder x 360.0 = nearest negative (magnitude - 360 * ⌊magnitude / 360⌋) := by
  obtain ⟨negative, magnitude, hexact, -⟩ := h
  have hlow := Int.floor_le (magnitude / 360)
  have hhigh := Int.lt_floor_add_one (magnitude / 360)
  rw [le_div_iff₀ (by norm_num)] at hlow
  rw [div_lt_iff₀ (by norm_num)] at hhigh
  -- A turn is the number 360 without rounding, and the remainder is rounded only at the end.
  have hturn : Scalar.exact (360.0 : Double) = .finite false 360 := exact_literals.2.2.2.2.2.1
  have hfinite : Scalar.exact x = .finite negative magnitude := hexact
  refine ⟨negative, magnitude, hexact, by linarith, by linarith, ?_⟩
  rw [remainder, hfinite, hturn]
  dsimp only
  rw [if_neg (by norm_num)]
  rfl

/-- A hue within one turn stays as it is. -/
theorem normalizeHue_eq_self (h : HasValue x q) (hlow : 0 ≤ q) (hhigh : q < 360) :
    Cylinder.normalizeHue x = x := by
  have hremainder : remainder x 360.0 = x := by
    obtain ⟨negative, magnitude, hexact, -, -, hresult⟩ := h.exists_remainder_fullTurn
    have hshort := isShort_of_exact hexact
    -- The hue is not negative, so it is its own magnitude.
    have hmagnitude : magnitude = q := by
      rw [← abs_of_nonneg hlow, h.unique (hasValue_of_exact hexact), abs_signed hshort.nonneg]
    have hfloor : ⌊magnitude / 360⌋ = 0 := by
      rw [Int.floor_eq_zero_iff, hmagnitude]
      exact ⟨div_nonneg hlow (by norm_num), (div_lt_one (by norm_num)).2 hhigh⟩
    rw [hfloor, Int.cast_zero, mul_zero, sub_zero] at hresult
    -- A number that is already short enough is its own nearest.
    obtain ⟨r, hr, hnearest⟩ := exact_nearest negative hshort.nonneg
      (le_largestValue_of_exact hexact)
    rw [hr.eq_of_short hshort] at hnearest
    exact hresult.trans (eq_of_exact hnearest hexact)
  have hmodulo : modulo x 360.0 = x := by
    unfold modulo
    dsimp only
    rw [hremainder, if_neg]
    rw [h.lt_iff hasValue_zero]
    exact not_lt.2 hlow
  unfold Cylinder.normalizeHue
  dsimp only
  rw [hmodulo, if_neg]
  rw [hasValue_fullTurn.le_iff h]
  exact not_le.2 hhigh

end Double.HasValue

/-! ## Settled colours -/

/-- Whether a component is within the range that arguments of its space are brought into. -/
def Space.Allows (space : Space) (index : Index) (value : Double) : Prop :=
  match space, index with
  | .lab, .first | .lch, .first => 0.0 ≤ value ∧ value ≤ 100.0
  | .oklab, .first | .oklch, .first => 0.0 ≤ value ∧ value ≤ 1.0
  | .lch, .second | .oklch, .second | .hsl, .second => 0.0 ≤ value
  | .hsl, .first | .hwb, .first | .lch, .third | .oklch, .third => 0.0 ≤ value ∧ value < 360.0
  | _, _ => True

/-- What is written of a colour stays within the ranges of its space when it is read, and an alpha
below one is not written as one. -/
structure Color.IsSettled (color : Color Double) : Prop where
  components : ∀ index, ∀ value ∈ color.toFinite.components.get index,
    color.space.Allows index (Scalar.printed value)
  alpha : ∀ alpha ∈ color.toFinite.alpha, alpha < 1.0 → Scalar.printed alpha < 1.0

/-- A component within its range stays as it is. -/
theorem Space.clampComponent_eq_self {space : Space} {index : Index} {x : Double} {q : ℚ}
    (hx : x.HasValue q) (h : space.Allows index x) : space.clampComponent index x = x := by
  have hclamp : ∀ {bound : Double} {b : ℚ}, bound.HasValue b → 0.0 ≤ x ∧ x ≤ bound →
      Number.clamp 0.0 bound x = x := fun hbound hrange =>
    Double.HasValue.clamp_eq_self Double.hasValue_zero hbound hx
      ((Double.hasValue_zero.le_iff hx).1 hrange.1) ((hx.le_iff hbound).1 hrange.2)
  have hmax : 0.0 ≤ x → Number.max x 0.0 = x := fun hlow =>
    hx.max_eq_self Double.hasValue_zero ((Double.hasValue_zero.le_iff hx).1 hlow)
  have hturn : 0.0 ≤ x ∧ x < 360.0 → (let hue := Cylinder.normalizeHue x
      if Number.isNaN hue then 0.0 else hue : Double) = x := by
    intro hrange
    have hhue := hx.normalizeHue_eq_self ((Double.hasValue_zero.le_iff hx).1 hrange.1)
      ((hx.lt_iff Double.hasValue_fullTurn).1 hrange.2)
    dsimp only
    rw [hhue, hx.isNaN_eq, if_neg Bool.false_ne_true]
  -- Every bound has its case, and the value lies within it.
  unfold Space.clampComponent
  split
  · exact hclamp Double.hasValue_hundred h
  · exact hclamp Double.hasValue_hundred h
  · exact hclamp Double.hasValue_one h
  · exact hclamp Double.hasValue_one h
  · exact hmax h
  · exact hmax h
  · exact hmax h
  · exact hturn h
  · exact hturn h
  · exact hturn h
  · exact hturn h
  · rfl

/-! ## Reading a colour back -/

/-- The colour that the text of a colour gives when it is read and resolved. -/
def Color.reread (color : Color Double) : Color Double :=
  Color.clamp ⟨color.space,
    color.toFinite.components.map (·.map fun value => Scalar.toFinite (Scalar.printed value)),
    match writtenAlpha color.toFinite.alpha with
    | some alpha =>
      alpha.map fun value => Number.clamp 0.0 1.0 (Scalar.toFinite (Scalar.printed value))
    | none => some 1.0⟩

/-- A component that is read back is the one that was printed, clamped to its range. -/
theorem Color.get_reread (color : Color Double) (index : Index) :
    color.reread.components.get index = (color.toFinite.components.get index).map fun value =>
      color.space.clampComponent index (Scalar.toFinite (Scalar.printed value)) := by
  rw [reread, get_clamp, Triple.get_map, Option.map_map]
  rfl

/-- An alpha that is left out of the text is read back as one. -/
theorem Color.alpha_reread_of_none {color : Color Double}
    (h : writtenAlpha color.toFinite.alpha = none) : color.reread.alpha = some 1.0 := by
  simp only [reread, clamp, h]

/-- An alpha that is written is read back as the one that was printed. -/
theorem Color.alpha_reread_of_some {color : Color Double} {alpha : Option Double}
    (h : writtenAlpha color.toFinite.alpha = some alpha) : color.reread.alpha = alpha.map fun value =>
      Number.clamp 0.0 1.0 (Scalar.toFinite (Scalar.printed value)) := by
  simp only [reread, clamp, h]

/-- The argument of a component resolves to the number that was printed, or to nothing if it is
missing. -/
theorem Argument.resolve_componentArgument {K : Type} [Scalar K] (scope : Scope K)
    (component : Option K) : (componentArgument component).resolve scope =
      some (component.map fun value => Scalar.toFinite (Scalar.printed value)) := by
  cases component <;> rfl

/-- The arguments of a colour resolve to the colour that is read back. -/
theorem Arguments.resolve_componentArguments (color : Color Double)
    (bindings : List (String × Option Double)) (dimensions : Lookup Double) :
    (componentArguments color.toFinite.components (writtenAlpha color.toFinite.alpha)).resolve
      color.space bindings (some 1.0) dimensions = some color.reread := by
  unfold Arguments.resolve Color.reread componentArguments
  dsimp only [Triple.map]
  simp only [Argument.resolve_componentArgument]
  cases writtenAlpha color.toFinite.alpha with
  | none => rfl
  | some alpha =>
    simp only [Option.map_some, Argument.resolve_componentArgument]
    cases alpha <;> rfl

section Settled

variable {color : Color Double}

/-- The components that are read back are written as before. -/
theorem Color.componentText_reread (h : color.IsSettled) (index : Index) :
    componentText (color.reread.toFinite.components.get index) =
      componentText (color.toFinite.components.get index) := by
  rw [Color.get_toFinite, Color.get_reread]
  cases hvalue : color.toFinite.components.get index with
  | none => rfl
  | some value =>
    obtain ⟨q, hq⟩ := color.exists_hasValue_toFinite index value hvalue
    obtain ⟨-, r, hr⟩ := hq.exists_hasValue_printed
    show Scalar.text (Scalar.toFinite (color.space.clampComponent index
      (Scalar.toFinite (Scalar.printed value)))) = Scalar.text value
    rw [hr.toFinite_eq, Space.clampComponent_eq_self hr (h.components index value hvalue),
      hr.toFinite_eq, hq.text_printed]

/-- The alpha that is read back is written as before. -/
theorem Color.alphaSuffix_reread (h : color.IsSettled) :
    alphaSuffix color.reread.toFinite.alpha = alphaSuffix color.toFinite.alpha := by
  have hread : color.reread.toFinite.alpha = color.reread.alpha.map Scalar.toFinite := rfl
  rw [hread]
  cases halpha : color.toFinite.alpha with
  | none =>
    have hwritten : writtenAlpha color.toFinite.alpha = some none := by
      rw [halpha]
      rfl
    rw [alpha_reread_of_some hwritten]
    rfl
  | some alpha =>
    obtain ⟨q, hq⟩ : ∃ q, alpha.HasValue q := by
      obtain ⟨x, -, rfl⟩ := Option.map_eq_some_iff.1 halpha
      exact Double.hasValue_toFinite x
    -- An alpha from one on is left out, and is read back as one.
    by_cases hopaque : 1.0 ≤ alpha
    · have hwritten : writtenAlpha color.toFinite.alpha = none := by
        rw [halpha]
        exact if_pos hopaque
      rw [alpha_reread_of_none hwritten, Option.map_some, Double.hasValue_one.toFinite_eq,
        alphaSuffix, alphaSuffix, if_pos hopaque,
        if_pos ((Double.hasValue_one.le_iff Double.hasValue_one).2 le_rfl)]
    · have hwritten : writtenAlpha color.toFinite.alpha = some (some (Number.max alpha 0.0)) := by
        rw [halpha]
        exact if_neg hopaque
      have hlt : q < 1 := not_le.1 fun hle => hopaque ((Double.hasValue_one.le_iff hq).2 hle)
      -- The alpha is written without a negative sign.
      have hmax := hq.max Double.hasValue_zero
      obtain ⟨r, hr, hlow, hbound⟩ := hmax.exists_printed (le_max_right q 0)
      -- Rounding does not lead to one for a settled colour, and what is negative is written as
      -- zero.
      have hhigh : r < 1 := by
        rcases le_total 0 q with hnonneg | hneg
        · have hsame : Scalar.printed (Number.max alpha 0.0) = Scalar.printed alpha := by
            rw [max_eq_left hnonneg] at hmax
            rw [Scalar.printed, Scalar.printed, hmax.decimal_congr hq]
          have hprinted := h.alpha alpha halpha ((hq.lt_iff Double.hasValue_one).2 hlt)
          rw [← hsame] at hprinted
          exact (hr.lt_iff Double.hasValue_one).1 hprinted
        · have hzero := hbound 0 (Nat.zero_le _) (by rw [max_eq_right hneg, Nat.cast_zero])
          rw [Nat.cast_zero] at hzero
          linarith
      rw [alpha_reread_of_some hwritten, Option.map_some, Option.map_some, hr.toFinite_eq,
        Double.HasValue.clamp_eq_self Double.hasValue_zero Double.hasValue_one hr hlow hhigh.le,
        hr.toFinite_eq, alphaSuffix, alphaSuffix, if_neg hopaque, if_neg]
      · have hmax' := hr.max Double.hasValue_zero
        rw [max_eq_left hlow] at hmax'
        rw [hmax'.text_congr hr, hmax.text_printed]
      · rw [Double.hasValue_one.le_iff hr]
        exact not_le.2 hhigh

/-- The text of a colour that is settled is read back as a colour with the same text. -/
theorem Color.text_reread (hlegacy : color.space.isLegacy = false) (h : color.IsSettled) :
    color.reread.text = color.text := by
  have hspace : color.reread.space = color.space := rfl
  rw [Color.text_eq hlegacy, Color.text_eq (hspace ▸ hlegacy), hspace]
  unfold componentsText
  have hcomponent := Color.componentText_reread h
  rw [alphaSuffix_reread h]
  have h₁ := hcomponent .first
  have h₂ := hcomponent .second
  have h₃ := hcomponent .third
  dsimp only [Triple.get] at h₁ h₂ h₃
  rw [h₁, h₂, h₃]

end Settled

/-! ## Reading a legacy colour back -/

/-- The colour that the text of a legacy colour gives when it is read and resolved. -/
def Color.rereadLegacy {K : Type} [Scalar K] [Elementary K] (color : Color K) : Color K :=
  Color.clamp ⟨.rgb,
    color.bytes.map fun value => some (Scalar.toFinite (Scalar.printed value)),
    match writtenByteAlpha color.byteAlpha with
    | some alpha => some (Number.clamp 0.0 1.0 (Scalar.toFinite (Scalar.printed alpha)))
    | none => some 1.0⟩

/-- The arguments of a legacy colour resolve to the colour that is read back. -/
theorem Arguments.resolve_legacyArguments {K : Type} [Scalar K] [Elementary K] (color : Color K)
    (bindings : List (String × Option K)) (dimensions : Lookup K) :
    (legacyArguments color.bytes (writtenByteAlpha color.byteAlpha)).resolve .rgb bindings
      (some 1.0) dimensions = some color.rereadLegacy := by
  unfold Arguments.resolve Color.rereadLegacy legacyArguments
  cases writtenByteAlpha color.byteAlpha <;> rfl

/-- The bytes that are read back are written as before. -/
theorem Color.text_bytes_rereadLegacy (color : Color Double) (index : Index) :
    Scalar.text (color.rereadLegacy.toFinite.bytes.get index) =
      Scalar.text (color.bytes.get index) := by
  have hread : color.rereadLegacy.toFinite.bytes.get index = Scalar.round (Number.clamp 0.0 255.0
      (Scalar.toFinite (Scalar.toFinite (Scalar.toFinite
        (Scalar.printed (color.bytes.get index)))))) := by
    cases index <;> rfl
  have hbyte := color.isByte_bytes index
  obtain ⟨n, -, hvalue⟩ := hbyte.exists_hasValue
  obtain ⟨-, r, hr⟩ := hvalue.exists_hasValue_printed
  have hbyte' := color.rereadLegacy.toFinite.isByte_bytes index
  rw [Scalar.text_eq_decimal_text hbyte'.isFinite, Scalar.text_eq_decimal_text hbyte.isFinite,
    hread, hr.toFinite_eq, hr.toFinite_eq, hr.toFinite_eq, hbyte.decimal_printed]

/-- The alpha that is written of a colour of the space `rgb`. -/
theorem Color.byteAlpha_rgb (components : Triple (Option Double)) (alpha : Double) :
    (Color.clamp ⟨.rgb, components, some alpha⟩).toFinite.byteAlpha = alphaOfByte (Scalar.round
      (Number.clamp 0.0 1.0 (Scalar.toFinite (Scalar.toFinite alpha)) * 255.0)) := rfl

/-- The alpha that is read back is written as before. -/
theorem Color.text_byteAlpha_rereadLegacy (color : Color Double) :
    Scalar.text color.rereadLegacy.toFinite.byteAlpha = Scalar.text color.byteAlpha := by
  by_cases hopaque : Scalar.text color.byteAlpha = "1"
  · have hread : color.rereadLegacy.toFinite.byteAlpha = alphaOfByte (Scalar.round
        (Number.clamp 0.0 1.0 (Scalar.toFinite (Scalar.toFinite 1.0)) * 255.0)) := by
      unfold rereadLegacy writtenByteAlpha
      rw [if_pos hopaque]
      exact byteAlpha_rgb _ _
    rw [hread, hopaque]
    decide +kernel
  · -- The byte is printed as a fraction, read, and rounded to the same byte.
    have hread : color.rereadLegacy.toFinite.byteAlpha = alphaOfByte (Scalar.round
        (Number.clamp 0.0 1.0 (Scalar.toFinite (Scalar.toFinite (Number.clamp 0.0 1.0
          (Scalar.toFinite (Scalar.printed color.byteAlpha))))) * 255.0)) := by
      unfold rereadLegacy writtenByteAlpha
      rw [if_neg hopaque]
      exact byteAlpha_rgb _ _
    have hfinite := color.rereadLegacy.toFinite.isFinite_byteAlpha
    obtain ⟨byte, hbyte, halpha⟩ := color.exists_byteAlpha_eq
    obtain ⟨q, hq⟩ := hbyte.exists_hasValue_alphaOfByte
    rw [halpha] at hread
    obtain ⟨-, r, hr⟩ := hq.exists_hasValue_printed
    obtain ⟨p, hp, -, -⟩ := hr.exists_clamp Double.hasValue_one zero_le_one
    rw [hr.toFinite_eq, hp.toFinite_eq, hp.toFinite_eq] at hread
    rw [Scalar.text_eq_decimal_text hfinite, Scalar.text_eq_decimal_text color.isFinite_byteAlpha,
      hread, halpha, hbyte.decimal_printed_alpha]

/-- The text of a legacy colour is read back as a legacy colour with the same text. -/
theorem Color.text_rereadLegacy (color : Color Double) :
    color.rereadLegacy.text = color.legacyText := by
  have htext : color.rereadLegacy.text = color.rereadLegacy.toFinite.legacyText := rfl
  have hbyte := color.text_bytes_rereadLegacy
  have h₁ := hbyte .first
  have h₂ := hbyte .second
  have h₃ := hbyte .third
  dsimp only [Triple.get] at h₁ h₂ h₃
  have halpha := color.text_byteAlpha_rereadLegacy
  rw [htext, legacyText_eq, legacyText_eq]
  unfold legacyName legacyList writtenByteAlpha
  rw [halpha, h₁, h₂, h₃]
  by_cases hopaque : Scalar.text color.byteAlpha = "1"
  · simp only [if_pos hopaque]
  · simp only [if_neg hopaque, Option.isSome_some, halpha]

/-! ## Texts of resolved values -/

section Functions

variable {K : Type} [Scalar K] [Elementary K]

/-- A legacy colour is written with commas. -/
theorem Color.text_of_isLegacy {color : Color K} (h : color.space.isLegacy = true) :
    color.text = color.toFinite.legacyText := by
  obtain ⟨space, components, alpha⟩ := color
  cases space <;> first | rfl | cases h

variable {options : Options K}

/-- The key changes no text. -/
theorem asText?_resolve (value : String) :
    (resolve value options).asText? = (resolveUnkeyed value options).asText? := by
  unfold resolve
  cases options.key <;> rfl

/-- The text of a colour function is read as a function, which resolves to the colour that its
arguments give. -/
theorem resolve_of_writes {text : String} {tokens : List (Token K)} {space : Space}
    {arguments : Arguments K} {color : Color K}
    (hwrites : ColorValue.Writes text tokens (.function space arguments))
    (hnesting : nesting tokens ≤ maxBlockDepth)
    (harguments : arguments.resolve space [] (some 1.0) options.dimensions = some color) :
    ColorValue.ofValue? options.properties text = some (.function space arguments) ∧
      (ColorValue.function space arguments).resolve options = some ⟨color, space.isLegacy⟩ := by
  refine ⟨hwrites.ofValue?_eq hnesting options.properties, ?_⟩
  show Resolved.ofFunction? space arguments options.dimensions = _
  rw [Resolved.ofFunction?, harguments]
  rfl

end Functions

section Outputs

variable {options : Options Double} {text : String} {tokens : List (Token Double)}

/-- The text of a colour function resolves to the text of the colour that its arguments give. -/
theorem resolveUnkeyed_of_writes {space : Space} {arguments : Arguments Double}
    {color : Color Double} (hformat : options.format = .computed)
    (hwrites : ColorValue.Writes text tokens (.function space arguments))
    (hnesting : nesting tokens ≤ maxBlockDepth)
    (harguments : arguments.resolve space [] (some 1.0) options.dimensions = some color) :
    resolveUnkeyed text options = .text color.text := by
  obtain ⟨hvalue, hcolor⟩ := resolve_of_writes hwrites hnesting harguments
  unfold resolveUnkeyed
  rw [hvalue]
  show (Format.output? options (.function space arguments) options.format).getD _ = _
  rw [hformat]
  show (((ColorValue.function space arguments).resolve options).map _).getD _ = _
  rw [hcolor]
  rfl

/-- The call of a legacy colour opens one block. -/
theorem nesting_legacyCall {K : Type} [Scalar K] (numbers : Triple K) (alpha : Option K) :
    nesting (Token.function (legacyName alpha) ::
      (legacyTokens numbers alpha ++ [Token.closeParen])) = 1 := by
  unfold nesting
  rw [nestingFrom_of_opens rfl]
  exact nestingFrom_of_not_opens (fun _ => opensBlock_of_mem_legacyTokens) 1

/-- The call of any other colour opens one block. -/
theorem ColorValue.nesting_colorTokens (color : Color Double) :
    Token.nesting (colorTokens color) = 1 := by
  unfold Token.nesting colorTokens
  rw [nestingFrom_of_opens rfl]
  exact nestingFrom_of_not_opens (fun _ => opensBlock_of_mem_content) 1

/-- The text of a legacy colour resolves to itself. -/
theorem resolveUnkeyed_legacyText (hformat : options.format = .computed) (color : Color Double) :
    resolveUnkeyed color.legacyText options = .text color.legacyText := by
  rw [resolveUnkeyed_of_writes hformat
    (ColorValue.writes_legacyText color.isFinite_bytes color.isFinite_byteAlpha)
    (by rw [nesting_legacyCall]; decide)
    (Arguments.resolve_legacyArguments color [] options.dimensions), color.text_rereadLegacy]

/-- The text of a colour of a modern notation resolves to the text that it is read back with. -/
theorem resolveUnkeyed_text_eq_reread (hformat : options.format = .computed) {color : Color Double}
    (hlegacy : color.space.isLegacy = false) :
    resolveUnkeyed color.text options = .text color.reread.text :=
  resolveUnkeyed_of_writes hformat (ColorValue.writes_text hlegacy)
    (by rw [ColorValue.nesting_colorTokens]; decide)
    (Arguments.resolve_componentArguments color [] options.dimensions)

/-- The text of a settled colour resolves to itself. -/
theorem resolveUnkeyed_text (hformat : options.format = .computed) {color : Color Double}
    (h : color.space.isLegacy = false → color.IsSettled) :
    resolveUnkeyed color.text options = .text color.text := by
  cases hlegacy : color.space.isLegacy with
  | true =>
    rw [Color.text_of_isLegacy hlegacy]
    exact resolveUnkeyed_legacyText hformat _
  | false =>
    rw [resolveUnkeyed_text_eq_reread hformat hlegacy, Color.text_reread hlegacy (h hlegacy)]

/-- What stands for a value that is not valid is the text of transparent black. -/
theorem resolveUnkeyed_placeholder (hformat : options.format = .computed) :
    resolveUnkeyed "rgba(0, 0, 0, 0)" options = .text "rgba(0, 0, 0, 0)" := by
  have htransparent : (Color.transparent .rgb : Color Double).legacyText = "rgba(0, 0, 0, 0)" := by
    decide +kernel
  rw [← htransparent]
  exact resolveUnkeyed_legacyText hformat _

/-- The keyword of the current colour is read as it. -/
theorem ColorValue.writes_currentColor :
    Writes "currentcolor" [Token.ident "currentcolor"] (currentColor : ColorValue Double) :=
  writes_keyword rfl (by cbv)

/-- The keyword without a value resolves to itself. -/
theorem resolveUnkeyed_currentColor (hformat : options.format = .computed)
    (hnone : options.currentColor = none) :
    resolveUnkeyed "currentcolor" options = .text "currentcolor" := by
  have hnesting : nesting [(Token.ident "currentcolor" : Token Double)] ≤ maxBlockDepth := by decide
  have hvalue : ColorValue.ofValue? options.properties "currentcolor" =
      some (.currentColor : ColorValue Double) :=
    ColorValue.writes_currentColor.ofValue?_eq hnesting _
  unfold resolveUnkeyed
  rw [hvalue]
  dsimp only
  rw [hnone, hformat]
  rfl

end Outputs

/-- Resolving gives a text that resolves to itself, if the resolved colour is of a legacy space or
settled. -/
theorem exists_text_resolve_eq_resolve (value : String) (options : Options Double)
    (hformat : options.format = .computed)
    (hsettled : ∀ color, color? value options = some color → color.space.isLegacy = false →
      color.IsSettled) :
    ∃ text, (resolve value options).asText? = some text ∧
      resolve text options = resolve value options := by
  -- The key is the same for both.
  suffices h : ∃ text, resolveUnkeyed value options = .text text ∧
      resolveUnkeyed text options = .text text by
    obtain ⟨text, hfirst, hsecond⟩ := h
    refine ⟨text, by rw [asText?_resolve, hfirst]; rfl, ?_⟩
    unfold resolve
    rw [hfirst, hsecond]
  have hplaceholder := resolveUnkeyed_placeholder hformat
  -- A value that is not valid is written as transparent black.
  cases hvalue : (ColorValue.ofValue? options.properties value : Option (ColorValue Double)) with
  | none =>
    refine ⟨_, ?_, hplaceholder⟩
    unfold resolveUnkeyed
    rw [hvalue, hformat]
    rfl
  | some tree =>
    -- The current colour is written as a keyword where it is not known.
    by_cases hkeyword : (tree.isCurrentColor && options.currentColor.isNone) = true
    · rw [Bool.and_eq_true, Option.isNone_iff_eq_none] at hkeyword
      refine ⟨_, ?_, resolveUnkeyed_currentColor hformat hkeyword.2⟩
      unfold resolveUnkeyed
      rw [hvalue]
      dsimp only
      rw [hkeyword.1, hkeyword.2, hformat]
      rfl
    · have houtput : resolveUnkeyed value options =
          ((tree.resolve options).map fun resolved => Output.text resolved.color.text).getD
            (Format.placeholder .computed) := by
        unfold resolveUnkeyed
        rw [hvalue]
        dsimp only
        rw [if_neg hkeyword, hformat]
        rfl
      cases hresolved : tree.resolve options with
      | none =>
        rw [hresolved] at houtput
        exact ⟨_, houtput, hplaceholder⟩
      -- Any other value is written as the colour it resolves to.
      | some resolved =>
        rw [hresolved] at houtput
        refine ⟨_, houtput, resolveUnkeyed_text hformat (hsettled _ ?_)⟩
        unfold color?
        rw [hvalue]
        show (do let resolved ← tree.resolve options; return resolved.color) = _
        rw [hresolved]
        rfl

/-- A colour with a hue below a full turn and an alpha below one that stay so when written. -/
theorem exists_text_resolve_eq_resolve_lch :
    ∃ text, (resolve "lch(50 10 359.5 / 0.5)" ({} : Options Double)).asText? = some text ∧
      resolve text ({} : Options Double) = resolve "lch(50 10 359.5 / 0.5)" {} := by
  refine exists_text_resolve_eq_resolve _ _ rfl fun color hcolor _ => ?_
  have hvalue : color? "lch(50 10 359.5 / 0.5)" ({} : Options Double) =
      some ⟨.lch, ⟨some 50.0, some 10.0, some 359.5⟩, some 0.5⟩ := by decide +kernel
  rw [hvalue, Option.some.injEq] at hcolor
  subst hcolor
  refine ⟨fun index component hcomponent => ?_, fun alpha halpha _ => ?_⟩
  · -- The components are those of the colour that was read.
    cases index with
    | first =>
      rw [show component = Scalar.toFinite 50.0 from (Option.some.inj hcomponent).symm]
      show 0.0 ≤ _ ∧ _ ≤ 100.0
      decide +kernel
    | second =>
      rw [show component = Scalar.toFinite 10.0 from (Option.some.inj hcomponent).symm]
      show 0.0 ≤ _
      decide +kernel
    | third =>
      rw [show component = Scalar.toFinite 359.5 from (Option.some.inj hcomponent).symm]
      show 0.0 ≤ _ ∧ _ < 360.0
      decide +kernel
  · rw [show alpha = Scalar.toFinite 0.5 from (Option.some.inj halpha).symm]
    decide +kernel

/-- A hue just below a full turn is written as the full turn, which is read as zero. -/
theorem resolve_fullTurn_ne : ¬ ∀ (value : String) (options : Options Double),
    options.format = .computed → ∀ text, (resolve value options).asText? = some text →
      resolve text options = resolve value options := by
  intro h
  have hfirst : resolve "lch(50 10 359.9999999)" ({} : Options Double) =
      .text "lch(50 10 360)" := by decide +kernel
  have hsecond : resolve "lch(50 10 360)" ({} : Options Double) = .text "lch(50 10 0)" := by
    decide +kernel
  have heq := h "lch(50 10 359.9999999)" {} rfl "lch(50 10 360)" (by rw [hfirst]; rfl)
  rw [hfirst, hsecond] at heq
  exact absurd heq (by decide)

end CssColor
