import CssColor.Proofs.Value.Formats
import CssColor.Proofs.Value.ReadBack

/-!
# Texts that resolve to themselves

The condition on the texts that resolve to themselves is no wider than it has to be: the text of a
resolved colour of a modern notation resolves to itself exactly if the colour is settled
(`resolve_text_eq_iff`). A component that is written outside of the range of its space is brought
into it when the text is read, and then written as something else; an alpha below one that is
written as one is left out.
-/

namespace CssColor

open Token

section Components

open Double Scalar

variable {space : Space} {index : Index} {x : Double} {q : ℚ}

/-- A number that is brought between two bounds and then written as before has been between them. -/
theorem Double.clamp_eq_self_of_printed {bound : Double} (hbound : printed bound = bound)
    (h : printed (Number.clamp 0.0 bound x) = x) : Number.clamp 0.0 bound x = x := by
  revert h
  unfold Number.clamp
  split
  · exact fun h => printed_zero.symm.trans h
  · split
    · exact fun h => hbound.symm.trans h
    · exact fun _ => rfl

/-- A number that is raised to zero and then written as before has not been below it. -/
theorem Double.max_eq_self_of_printed (h : printed (Number.max x 0.0) = x) :
    Number.max x 0.0 = x := by
  revert h
  unfold Number.max
  split
  · exact fun h => printed_zero.symm.trans h
  · split
    · exact fun _ => rfl
    · split
      · exact fun h => printed_zero.symm.trans h
      · exact fun _ => rfl

/-- A hue that is brought into one turn and then written as before has been within it. -/
theorem Double.HasValue.normalizeHue_eq_self_of_printed (hx : x.HasValue q)
    (h : printed (Cylinder.normalizeHue x) = x) : Cylinder.normalizeHue x = x := by
  obtain ⟨r, hr, hlow, hhigh⟩ := hx.exists_normalizeHue
  obtain ⟨s, hs, hnonneg, hbound⟩ := hr.exists_printed hlow
  rw [h] at hs
  obtain rfl := hx.unique hs
  refine hx.normalizeHue_eq_self hnonneg (lt_of_le_of_ne (hbound 360 (by norm_num) hhigh.le) ?_)
  -- A full turn would have become zero, which is written as zero.
  rintro rfl
  have hturn : x = 360.0 := hx.eq_of_ne_zero hasValue_fullTurn (by norm_num)
  rw [hturn, normalizeHue_fullTurn, printed_zero] at h
  exact absurd ((h ▸ hasValue_zero).unique hasValue_fullTurn) (by norm_num)

/-- A component that is brought into the range of its space and then written as before has been
within it. -/
theorem Space.clampComponent_eq_self_of_printed (hx : x.HasValue q)
    (h : printed (space.clampComponent index x) = x) : space.clampComponent index x = x := by
  -- The hue is the one case that is not a clamp.
  have hturn : printed (let hue := Cylinder.normalizeHue x
      if Number.isNaN hue then 0.0 else hue) = x →
      (let hue := Cylinder.normalizeHue x
        if Number.isNaN hue then 0.0 else hue : Double) = x := by
    obtain ⟨r, hr, -, -⟩ := hx.exists_normalizeHue
    dsimp only
    rw [hr.isNaN_eq, if_neg Bool.false_ne_true]
    exact hx.normalizeHue_eq_self_of_printed
  revert h
  unfold Space.clampComponent
  split
  · exact clamp_eq_self_of_printed printed_hundred
  · exact clamp_eq_self_of_printed printed_hundred
  · exact clamp_eq_self_of_printed printed_one
  · exact clamp_eq_self_of_printed printed_one
  · exact max_eq_self_of_printed
  · exact max_eq_self_of_printed
  · exact max_eq_self_of_printed
  · exact hturn
  · exact hturn
  · exact hturn
  · exact hturn
  · exact fun _ => rfl

/-- A number that is brought into the range of a component stays finite. -/
theorem Space.exists_hasValue_clampComponent (space : Space) (index : Index) (hx : x.HasValue q) :
    ∃ r, (space.clampComponent index x).HasValue r := by
  have hclamp : ∀ {bound : Double} {b : ℚ}, bound.HasValue b → 0 ≤ b →
      ∃ r, (Number.clamp 0.0 bound x).HasValue r := fun hbound hb =>
    (hx.exists_clamp hbound hb).imp fun _ h => h.1
  have hmax : ∃ r, (Number.max x 0.0).HasValue r := ⟨_, hx.max hasValue_zero⟩
  have hturn : ∃ r, (let hue := Cylinder.normalizeHue x
      if Number.isNaN hue then 0.0 else hue : Double).HasValue r := by
    obtain ⟨r, hr, -, -⟩ := hx.exists_normalizeHue
    dsimp only
    rw [hr.isNaN_eq, if_neg Bool.false_ne_true]
    exact ⟨r, hr⟩
  unfold Space.clampComponent
  split
  · exact hclamp hasValue_hundred (by norm_num)
  · exact hclamp hasValue_hundred (by norm_num)
  · exact hclamp hasValue_one (by norm_num)
  · exact hclamp hasValue_one (by norm_num)
  · exact hmax
  · exact hmax
  · exact hmax
  · exact hturn
  · exact hturn
  · exact hturn
  · exact hturn
  · exact ⟨q, hx⟩

end Components

/-! ## Numbers below zero -/

/-- A number that is not above zero is read back as one that is not. -/
theorem Double.HasValue.exists_printed_of_nonpos {x : Double} {q : ℚ} (h : x.HasValue q)
    (hq : q ≤ 0) : ∃ r, (Scalar.printed x).HasValue r ∧ r ≤ 0 := by
  have hshort := h.isShort_abs
  have hle := h.abs_le_largestValue
  rw [abs_of_nonpos hq] at hshort hle
  -- The number is printed as the negation of its magnitude.
  have hdecimal : Scalar.decimal x = Decimal.ofMagnitude true (-q) := by
    refine decimal_eq true ?_ (neg_nonneg.2 hq)
    show x.HasValue (- -q)
    rw [neg_neg]
    exact h
  obtain ⟨r, hr, hvalue⟩ := Decimal.exists_isNearest_toNumber true hshort hle
  rw [← hdecimal] at hvalue
  refine ⟨_, hvalue, ?_⟩
  rw [hdecimal]
  rcases Decimal.ofMagnitude_cases true (-q) with hzero | ⟨-, -, htrim⟩
  · rw [hzero, Decimal.magnitude_zero] at hr
    rw [hzero]
    exact (hr.eq_of_short Binary.isShort_zero).le
  · rw [htrim, Decimal.trim_places]
    exact neg_nonpos.2 hr.short.nonneg

/-! ## Colours that are read back with the same text -/

section Colors

variable {color : Color Double}

/-- The arguments in the text of a colour are those in the text that is read back, if the two texts
are the same. -/
theorem Color.componentArguments_reread (hlegacy : color.space.isLegacy = false)
    (h : color.reread.text = color.text) :
    componentArguments color.reread.toFinite.components
        (writtenAlpha color.reread.toFinite.alpha) =
      componentArguments color.toFinite.components (writtenAlpha color.toFinite.alpha) := by
  have hread (other : Color Double) (hother : other.space.isLegacy = false) :
      ColorValue.ofText? other.text = some (.function other.space
        (componentArguments other.toFinite.components (writtenAlpha other.toFinite.alpha))) := by
    refine (ColorValue.writes_text hother).ofText?_eq ?_
    rw [ColorValue.nesting_colorTokens]
    decide
  have hsame := hread color.reread hlegacy
  rw [h, hread color hlegacy, Option.some.injEq, ColorValue.function.injEq] at hsame
  exact hsame.2.symm

/-- A component that is written as it is read back is written within the range of its space. -/
theorem Color.allows_of_componentArgument {index : Index} {value : Double}
    (hvalue : value ∈ color.toFinite.components.get index)
    (h : componentArgument (color.reread.toFinite.components.get index) =
      componentArgument (color.toFinite.components.get index)) :
    color.space.Allows index (Scalar.printed value) := by
  obtain ⟨q, hq⟩ := color.exists_hasValue_toFinite index value hvalue
  obtain ⟨-, r, hr⟩ := hq.exists_hasValue_printed
  rw [Color.get_toFinite, Color.get_reread, Option.mem_def.1 hvalue, Option.map_some,
    Option.map_some, hr.toFinite_eq] at h
  obtain ⟨t, ht⟩ := color.space.exists_hasValue_clampComponent index hr
  rw [ht.toFinite_eq] at h
  refine (Space.clampComponent_eq_self_iff hr).1 (Space.clampComponent_eq_self_of_printed hr ?_)
  exact Argument.number.inj h

/-- An alpha below one that is written as it is read back is not written as one. -/
theorem Color.printed_lt_of_writtenAlpha {alpha : Double} (halpha : alpha ∈ color.toFinite.alpha)
    (hlt : alpha < 1.0)
    (h : (writtenAlpha color.reread.toFinite.alpha).map componentArgument =
      (writtenAlpha color.toFinite.alpha).map componentArgument) :
    Scalar.printed alpha < 1.0 := by
  obtain ⟨q, hq⟩ : ∃ q, alpha.HasValue q := by
    obtain ⟨x, -, rfl⟩ := Option.map_eq_some_iff.1 halpha
    exact Double.hasValue_toFinite x
  rcases le_total q 0 with hneg | hnonneg
  · obtain ⟨r, hr, hle⟩ := hq.exists_printed_of_nonpos hneg
    exact (hr.lt_iff Double.hasValue_one).2 (hle.trans_lt one_pos)
  · obtain ⟨r, hr, hlow, hbound⟩ := hq.exists_printed hnonneg
    have hhigh : r ≤ 1 := by
      have hle := ((hq.lt_iff Double.hasValue_one).1 hlt).le
      exact_mod_cast hbound 1 (by norm_num) (by exact_mod_cast hle)
    rw [hr.lt_iff Double.hasValue_one]
    refine lt_of_le_of_ne hhigh ?_
    -- An alpha that is written as one is read back as one, which is not written.
    rintro rfl
    have hopaque : ¬ (1.0 : Double) ≤ alpha := by
      rw [Double.hasValue_one.le_iff hq]
      exact not_le.2 ((hq.lt_iff Double.hasValue_one).1 hlt)
    have hwritten : writtenAlpha color.toFinite.alpha = some (some alpha) := by
      rw [Option.mem_def.1 halpha, writtenAlpha, if_neg hopaque,
        hq.max_eq_self Double.hasValue_zero hnonneg]
    have hread : color.reread.toFinite.alpha = some (Scalar.printed alpha) := by
      show color.reread.alpha.map Scalar.toFinite = _
      rw [alpha_reread_of_some hwritten, Option.map_some, Option.map_some, hr.toFinite_eq,
        Double.HasValue.clamp_eq_self Double.hasValue_zero Double.hasValue_one hr zero_le_one le_rfl,
        hr.toFinite_eq]
    rw [hwritten, hread, writtenAlpha, if_pos ((Double.hasValue_one.le_iff hr).2 le_rfl)] at h
    cases h

/-- A colour that is read back with the same text is settled. -/
theorem Color.isSettled_of_text_reread (hlegacy : color.space.isLegacy = false)
    (h : color.reread.text = color.text) : color.IsSettled := by
  have harguments := Color.componentArguments_reread hlegacy h
  rw [componentArguments, componentArguments, Arguments.mk.injEq] at harguments
  obtain ⟨hcomponents, halphas⟩ := harguments
  refine ⟨fun index value hvalue => allows_of_componentArgument hvalue ?_, fun alpha halpha hlt =>
    printed_lt_of_writtenAlpha halpha hlt halphas⟩
  have hcomponent := congrArg (Triple.get · index) hcomponents
  simpa only [Triple.get_map] using hcomponent

/-- The text of a colour that is read back is the same exactly if the colour is settled. -/
theorem Color.text_reread_eq_iff (hlegacy : color.space.isLegacy = false) :
    color.reread.text = color.text ↔ color.IsSettled :=
  ⟨isSettled_of_text_reread hlegacy, text_reread hlegacy⟩

end Colors

/-- The text of a value with a colour of a modern notation is that of the colour, and it resolves to
itself if and only if the colour is settled. -/
theorem resolve_text_eq_iff {value : String} {options : Options Double} {color : Color Double}
    (hformat : options.format = .computed) (hcolor : color? value options = some color)
    (hlegacy : color.space.isLegacy = false) :
    (resolve value options).asText? = some color.text ∧
      (resolve color.text options = resolve value options ↔ color.IsSettled) := by
  have hkeyword : ¬ IsBareKeyword value options := by
    intro hkeyword
    rw [color?_of_isBareKeyword hkeyword] at hcolor
    cases hcolor
  have hvalue : resolveUnkeyed value options = .text color.text := by
    rw [resolveUnkeyed_of_ne_specified (by rw [hformat]; decide) hkeyword, hcolor, hformat]
    rfl
  refine ⟨by rw [asText?_resolve, hvalue]; rfl, ?_⟩
  -- Two outputs agree if and only if their texts do.
  rw [← Color.text_reread_eq_iff hlegacy, resolve, resolve, hvalue,
    resolveUnkeyed_text_eq_reread hformat hlegacy, Output.withKey_inj, Output.text.injEq]

end CssColor
