import CssColor.Number.Double
import CssColor.Resolution

/-!
# Formats of one colour

A value has a colour or it has none (`color?`), and that decides what it gives in every format but
the specified one (`resolveUnkeyed_of_ne_specified`), as hexadecimal digits and in a space. So each
of them can be told from the output as a colour (`resolve_formats`): it is a way to write that
colour, or what stands for a value without one.
-/

namespace CssColor

variable {K : Type} [Scalar K] [Elementary K]

/-- The output of a colour in a format. As a specified value it has none of its own. -/
def Color.output (color : Color K) : Format → Output K
  | .computed => .text color.text
  | .specified => .null
  | .mix => .color color
  | .hex => .ofText? (color.hex? false)
  | .hexAlpha => .ofText? (color.hex? true)

/-- Whether a value is the keyword `currentcolor`, which the options give no value. -/
def IsBareKeyword (value : String) (options : Options K) : Prop :=
  ColorValue.ofValue? options.properties value = some (.currentColor : ColorValue K) ∧
    options.currentColor = none

/-! ## Values with and without a colour -/

section Colors

variable {value : String} {options : Options K}

omit [Scalar K] [Elementary K] in
/-- Only one value is the current colour. -/
theorem ColorValue.eq_currentColor {value : ColorValue K} (h : value.isCurrentColor = true) :
    value = .currentColor := by
  cases value <;> first | rfl | cases h

/-- The keyword has no colour without a value. -/
theorem color?_of_isBareKeyword (h : IsBareKeyword value options) : color? value options = none := by
  obtain ⟨hvalue, hnone⟩ := h
  have hresolve : ColorValue.resolve options .currentColor = none := by
    show ColorValue.resolveCurrentColor options maxNestingDepth = none
    unfold ColorValue.resolveCurrentColor
    rw [hnone]
    rfl
  unfold color?
  rw [hvalue]
  show (do let resolved ← ColorValue.resolve options .currentColor; return resolved.color) = none
  rw [hresolve]
  rfl

/-- The keyword without a value has an output of its own in every format. -/
theorem resolveUnkeyed_of_isBareKeyword (h : IsBareKeyword value options) :
    resolveUnkeyed value options = options.format.keywordOutput := by
  unfold resolveUnkeyed
  rw [h.1]
  dsimp only
  rw [h.2]
  rfl

/-- What a value gives in a format is decided by its colour. -/
theorem resolveUnkeyed_of_ne_specified (hformat : options.format ≠ .specified)
    (h : ¬ IsBareKeyword value options) : resolveUnkeyed value options =
      match color? value options with
      | some color => color.output options.format
      | none => options.format.placeholder := by
  unfold resolveUnkeyed color?
  cases hvalue : (ColorValue.ofValue? options.properties value : Option (ColorValue K)) with
  | none => rfl
  | some tree =>
    have hkeyword : (tree.isCurrentColor && options.currentColor.isNone) = false := by
      rw [Bool.eq_false_iff]
      intro hboth
      rw [Bool.and_eq_true, Option.isNone_iff_eq_none] at hboth
      exact h ⟨hvalue.trans (congrArg some (ColorValue.eq_currentColor hboth.1)), hboth.2⟩
    dsimp only
    rw [hkeyword, if_neg Bool.false_ne_true]
    show (Format.output? options tree options.format).getD _ =
      match (do let resolved ← tree.resolve options; return resolved.color) with
      | some color => color.output options.format
      | none => options.format.placeholder
    -- The remaining formats all go through the colour.
    unfold Format.output?
    generalize options.format = format at hformat ⊢
    cases format with
    | specified => exact absurd rfl hformat
    | computed | mix | hex | hexAlpha => cases tree.resolve options <;> rfl

end Colors

/-! ## Formats -/

/-- A colour is a text of hexadecimal digits unless a component is missing. -/
theorem Color.ofText?_hex? (color : Color K) (withAlpha : Bool) :
    (Output.ofText? (color.hex? withAlpha) : Output K) =
      if color.hasMissing = true then .null else .text (color.hex withAlpha) := by
  unfold Color.hex?
  split <;> rfl

/-- If the output as a colour is a colour, all other outputs are that colour: as text, as
hexadecimal digits unless a component is missing, and in any space with zeros for what is missing.
If it is null, the others are those of a value without a colour, and the text is `currentcolor` if
the value is that keyword and has no value. -/
theorem resolve_formats (value : String) (options : Options K) :
    let output := fun format => resolve value { options with format, key := none }
    let digits := fun format => hexDigits? value { options with format }
    (∃ color, output .mix = .color color ∧
      output .computed = .text color.text ∧
      output .hex = (if color.hasMissing = true then .null else .text (color.hex false)) ∧
      output .hexAlpha = (if color.hasMissing = true then .null else .text (color.hex true)) ∧
      (∀ format, Output.ofText? (digits format) =
        output (if format = .hexAlpha then .hexAlpha else .hex)) ∧
      ∀ space, colorIn space value options = (color.toSpace space).concrete) ∨
    (output .mix = .null ∧ output .hex = .null ∧ output .hexAlpha = .null ∧
      (∀ format, digits format = none) ∧
      (∀ space, colorIn space value options = .transparent space) ∧
      (IsBareKeyword value options ∧ output .computed = .text "currentcolor" ∨
        ¬ IsBareKeyword value options ∧ output .computed = .text "rgba(0, 0, 0, 0)")) := by
  intro output digits
  -- Neither the format nor the key decides about the colour.
  have hcolor : ∀ format key, color? value { options with format, key } = color? value options :=
    fun _ _ => rfl
  have hdigits : ∀ format, digits format =
      (color? value options).bind (Color.hex? (format == .hexAlpha)) := fun _ => rfl
  have hspace : ∀ space, colorIn space value options =
      match color? value options with
      | some color => (color.toSpace space).concrete
      | none => .transparent space := fun _ => rfl
  by_cases hkeyword : IsBareKeyword value options
  · have houtput : ∀ format, output format = format.keywordOutput := by
      intro format
      have hsame : IsBareKeyword value { options with format, key := none } := hkeyword
      exact resolveUnkeyed_of_isBareKeyword hsame
    have hnone := color?_of_isBareKeyword hkeyword
    refine .inr ⟨houtput .mix, houtput .hex, houtput .hexAlpha, fun format => ?_, fun space => ?_,
      .inl ⟨hkeyword, houtput .computed⟩⟩
    · rw [hdigits, hnone]
      rfl
    · rw [hspace, hnone]
  · have houtput : ∀ format, format ≠ .specified → output format =
        match color? value options with
        | some color => color.output format
        | none => format.placeholder := by
      intro format hformat
      have hsame : ¬ IsBareKeyword value { options with format, key := none } := hkeyword
      exact resolveUnkeyed_of_ne_specified hformat hsame
    have hmix := houtput .mix (by decide)
    have hcomputed := houtput .computed (by decide)
    have hhex := houtput .hex (by decide)
    have hhexAlpha := houtput .hexAlpha (by decide)
    cases h : color? value options with
    | some color =>
      rw [h] at hmix hcomputed hhex hhexAlpha
      refine .inl ⟨color, hmix, hcomputed, hhex.trans (color.ofText?_hex? false),
        hhexAlpha.trans (color.ofText?_hex? true), fun format => ?_, fun space => ?_⟩
      · rw [hdigits, h]
        cases format with
        | hexAlpha => exact hhexAlpha.symm
        | computed | specified | mix | hex => exact hhex.symm
      · rw [hspace, h]
    | none =>
      rw [h] at hmix hcomputed hhex hhexAlpha
      refine .inr ⟨hmix, hhex, hhexAlpha, fun format => ?_, fun space => ?_,
        .inr ⟨hkeyword, hcomputed⟩⟩
      · rw [hdigits, h]
        rfl
      · rw [hspace, h]

/-- A mix of two names. The colour is the same in all formats. -/
example :
    let value := "color-mix(in srgb, red, blue 25%)"
    let output := fun format => resolve value ({ format } : Options Double)
    output .mix = .color ⟨.rgb, ⟨some 191.25, some 0.0, some 63.75⟩, some 1.0⟩ ∧
      output .computed = .text "rgb(191, 0, 64)" ∧ output .hex = .text "#bf0040" ∧
      output .hexAlpha = .text "#bf0040ff" ∧
      colorIn .srgb value {} = ⟨.srgb, ⟨some 0.75, some 0.0, some 0.25⟩, some (1.0 : Double)⟩ := by
  decide +kernel

end CssColor
