import CssColor.Proofs.Number.Exact
import CssColor.Proofs.Value.FixedPoint

/-!
# Colours read back from their texts

The text of a colour in a modern notation is a colour of the same space. Its components are the
numbers that the texts of the components stand for, and missing where they are missing
(`ColorValue.resolve_text`). Only a hue that is written as a full turn becomes zero.
-/

namespace CssColor

open Token Rule

/-! ## Numbers read back -/

section Numbers

open Double Scalar

/-- A number is read back as another one. -/
def Scalar.ReadsBack (x y : Double) : Prop := ofText (text x) = .ok y

variable {x : Double} {q : ℚ}

/-- A finite number is read back as the number that was printed. -/
theorem Double.HasValue.readsBack (h : HasValue x q) : ReadsBack x (printed x) :=
  ofText_text h.isFinite

/-- One is read back as one. -/
theorem one_readsBack : ReadsBack 1.0 1.0 := by
  simpa only [printed_one] using hasValue_one.readsBack

/-- A full turn is read back as a full turn. -/
theorem fullTurn_readsBack : ReadsBack 360.0 360.0 := by
  simpa only [printed_fullTurn] using hasValue_fullTurn.readsBack

/-- What is read back of a number that is written as a full turn is the full turn. -/
theorem Double.HasValue.printed_of_text (h : HasValue x q) (htext : text x = "360") :
    printed x = 360.0 := by
  have hsame : ReadsBack x 360.0 := by
    rw [ReadsBack, htext, ← text_fullTurn]
    exact fullTurn_readsBack
  rw [ReadsBack, h.readsBack] at hsame
  exact Except.ok.inj hsame

/-- What is read back of a number below a full turn is below it if the number is not written as the
full turn. -/
theorem Double.HasValue.printed_lt (h : HasValue x q) (hlow : 0 ≤ q) (hhigh : q < 360)
    (htext : text x ≠ "360") : ∃ r, HasValue (printed x) r ∧ 0 ≤ r ∧ r < 360 := by
  obtain ⟨r, hr, hnonneg, hbound⟩ := h.exists_printed hlow
  refine ⟨r, hr, hnonneg, lt_of_le_of_ne (hbound 360 (by norm_num) hhigh.le) ?_⟩
  rintro rfl
  rw [← h.text_printed, hr.text_congr hasValue_fullTurn] at htext
  exact htext text_fullTurn

end Numbers

/-! ## Ranges that change nothing -/

section Ranges

open Binary Double Scalar

variable {x : Double} {q : ℚ}

/-- A hue that is brought into one turn is within it. -/
theorem Double.HasValue.exists_normalizeHue (h : HasValue x q) :
    ∃ r, HasValue (Cylinder.normalizeHue x) r ∧ 0 ≤ r ∧ r < 360 := by
  have hmodulo : ∃ r, HasValue (modulo x 360.0) r ∧ 0 ≤ r := by
    obtain ⟨negative, magnitude, hexact, hlow, hhigh, hremainder⟩ := h.exists_remainder_fullTurn
    obtain ⟨rest, hrest⟩ : ∃ rest, magnitude - 360 * ⌊magnitude / 360⌋ = rest := ⟨_, rfl⟩
    rw [hrest] at hlow hhigh hremainder
    have hbound : ∀ n : ℕ, n ≤ 720 → (n : ℚ) ≤ Extended.largestValue := fun n hn =>
      natCast_le_largestValue (hn.trans (by norm_num))
    -- The remainder is rounded, which may lead to a full turn but not past it.
    obtain ⟨r, hr, hnearest⟩ :=
      exact_nearest negative hlow (hhigh.le.trans (by exact_mod_cast hbound 360 (by norm_num)))
    rw [← hremainder] at hnearest
    have hvalue := hasValue_of_exact hnearest
    have hnonneg := hr.short.nonneg
    have hsize : r ≤ (360 : ℕ) :=
      hr.le_of_le (isShort_natCast (by norm_num)) (by exact_mod_cast hhigh.le)
    push_cast at hsize
    unfold modulo
    dsimp only
    split
    · -- A negative remainder is not below a negative full turn.
      have hsum : 0 ≤ signed negative r + 360 ∧ signed negative r + 360 ≤ 720 := by
        cases negative with
        | true =>
          show 0 ≤ -r + 360 ∧ -r + 360 ≤ 720
          constructor <;> linarith
        | false =>
          show 0 ≤ r + 360 ∧ r + 360 ≤ 720
          constructor <;> linarith
      have habs : Scalar.abs (360.0 : Double) = 360.0 := by
        have hnegative : Scalar.isNegative (360.0 : Double) = false :=
          congrArg Exact.isNegative exact_literals.2.2.2.2.2.1
        rw [Scalar.abs, hnegative, if_neg Bool.false_ne_true]
      have hle : |signed negative r + 360| ≤ Extended.largestValue := by
        rw [abs_of_nonneg hsum.1]
        exact hsum.2.trans (by exact_mod_cast hbound 720 le_rfl)
      obtain ⟨t, ht, hresult⟩ := exists_of_nonneg hsum.1 (hvalue.add hasValue_fullTurn hle)
      rw [habs]
      exact ⟨t, hresult, ht.short.nonneg⟩
    · next hneg =>
      rw [hvalue.lt_iff hasValue_zero] at hneg
      exact ⟨_, hvalue, not_lt.1 hneg⟩
  obtain ⟨r, hr, hnonneg⟩ := hmodulo
  unfold Cylinder.normalizeHue
  dsimp only
  split
  · exact ⟨0, hasValue_zero, le_rfl, by norm_num⟩
  · next hlt =>
    rw [hasValue_fullTurn.le_iff hr] at hlt
    exact ⟨r, hr, hnonneg, not_le.1 hlt⟩

/-- The ranges of a space leave exactly the components within them unchanged. -/
theorem Space.clampComponent_eq_self_iff {space : Space} {index : Index} (hx : x.HasValue q) :
    space.clampComponent index x = x ↔ space.Allows index x := by
  refine ⟨fun h => ?_, clampComponent_eq_self hx⟩
  -- A number that a range leaves alone lies in it.
  have hclamp : ∀ {bound : Double} {b : ℚ}, bound.HasValue b → 0 ≤ b →
      Number.clamp 0.0 bound x = x → 0.0 ≤ x ∧ x ≤ bound := by
    intro bound b hbound hb hsame
    obtain ⟨r, hr, hlow, hhigh⟩ := hx.exists_clamp hbound hb
    rw [hsame] at hr
    exact ⟨(hasValue_zero.le_iff hr).2 hlow, (hr.le_iff hbound).2 hhigh⟩
  have hmax : Number.max x 0.0 = x → 0.0 ≤ x := by
    intro hsame
    have hvalue := hx.max hasValue_zero
    rw [hsame] at hvalue
    exact (hasValue_zero.le_iff hvalue).2 (le_max_right q 0)
  have hturn : (let hue := Cylinder.normalizeHue x
      if Number.isNaN hue then 0.0 else hue : Double) = x → 0.0 ≤ x ∧ x < 360.0 := by
    intro hsame
    obtain ⟨r, hr, hlow, hhigh⟩ := hx.exists_normalizeHue
    dsimp only at hsame
    rw [hr.isNaN_eq, if_neg Bool.false_ne_true] at hsame
    rw [hsame] at hr
    exact ⟨(hasValue_zero.le_iff hr).2 hlow, (hr.lt_iff hasValue_fullTurn).2 hhigh⟩
  -- One of these is the range of the component, or there is none.
  unfold Space.Allows
  split
  · exact hclamp hasValue_hundred (by norm_num) h
  · exact hclamp hasValue_hundred (by norm_num) h
  · exact hclamp hasValue_one (by norm_num) h
  · exact hclamp hasValue_one (by norm_num) h
  · exact hmax h
  · exact hmax h
  · exact hmax h
  · exact hturn h
  · exact hturn h
  · exact hturn h
  · exact hturn h
  · trivial

end Ranges

/-! ## Components read back -/

/-- A component is read back as another one: a hue that is written as a full turn as zero, and all
others as the numbers that they are written as. -/
def Space.ReadsBack (space : Space) (index : Index) (x y : Double) : Prop :=
  if space.hueIndex? = some index ∧ Scalar.text x = "360" then y = 0.0 else Scalar.ReadsBack x y

section Components

variable {space : Space} {index : Index} {x : Double} {q : ℚ}

/-- What is read back of a component within its range is within it, unless it is a hue that is
written as a full turn. -/
theorem Space.allows_printed (hx : x.HasValue q) (h : space.Allows index x)
    (hturn : ¬ (space.hueIndex? = some index ∧ Scalar.text x = "360")) :
    space.Allows index (Scalar.printed x) := by
  -- The bounds of ranges are printed exactly, so that rounding does not lead past them.
  have hrange : ∀ {bound : Double} {n : ℕ}, bound.HasValue n → n ≤ 2 ^ 53 → 0.0 ≤ x ∧ x ≤ bound →
      0.0 ≤ Scalar.printed x ∧ Scalar.printed x ≤ bound := by
    intro bound n hbound hn hx'
    obtain ⟨r, hr, hnonneg, hle⟩ :=
      hx.exists_printed ((Double.hasValue_zero.le_iff hx).1 hx'.1)
    exact ⟨(Double.hasValue_zero.le_iff hr).2 hnonneg,
      (hr.le_iff hbound).2 (hle n hn ((hx.le_iff hbound).1 hx'.2))⟩
  have hlow : 0.0 ≤ x → 0.0 ≤ Scalar.printed x := by
    intro hx'
    obtain ⟨r, hr, hnonneg, -⟩ := hx.exists_printed ((Double.hasValue_zero.le_iff hx).1 hx')
    exact (Double.hasValue_zero.le_iff hr).2 hnonneg
  -- A hue may be printed as a full turn, which is out of its range.
  have hhue : space.hueIndex? = some index → 0.0 ≤ x ∧ x < 360.0 →
      0.0 ≤ Scalar.printed x ∧ Scalar.printed x < 360.0 := by
    intro hindex hx'
    obtain ⟨r, hr, hnonneg, hlt⟩ := hx.printed_lt ((Double.hasValue_zero.le_iff hx).1 hx'.1)
      ((hx.lt_iff Double.hasValue_fullTurn).1 hx'.2) fun htext => hturn ⟨hindex, htext⟩
    exact ⟨(Double.hasValue_zero.le_iff hr).2 hnonneg, (hr.lt_iff Double.hasValue_fullTurn).2 hlt⟩
  have hhundred : (100.0 : Double).HasValue (100 : ℕ) := by exact_mod_cast Double.hasValue_hundred
  have hone : (1.0 : Double).HasValue (1 : ℕ) := by exact_mod_cast Double.hasValue_one
  unfold Space.Allows at h ⊢
  split at h
  · exact hrange hhundred (by norm_num) h
  · exact hrange hhundred (by norm_num) h
  · exact hrange hone (by norm_num) h
  · exact hrange hone (by norm_num) h
  · exact hlow h
  · exact hlow h
  · exact hlow h
  · exact hhue rfl h
  · exact hhue rfl h
  · exact hhue rfl h
  · exact hhue rfl h
  · trivial

/-- A full turn is the hue zero. -/
theorem Double.normalizeHue_fullTurn : Cylinder.normalizeHue (360.0 : Double) = 0.0 := by
  decide +kernel

/-- A full turn of hue is brought back to zero. -/
theorem Space.clampComponent_fullTurn (h : space.hueIndex? = some index) :
    space.clampComponent index (360.0 : Double) = 0.0 := by
  have hturn : (let hue := Cylinder.normalizeHue (360.0 : Double)
      if Number.isNaN hue then 0.0 else hue : Double) = 0.0 := by
    dsimp only
    rw [Double.normalizeHue_fullTurn, ite_self]
  cases space <;> cases h <;> exact hturn

/-- A component within its range is read back from its text. -/
theorem Space.readsBack_clampComponent (hx : x.HasValue q) (h : space.Allows index x) :
    space.ReadsBack index x
      (space.clampComponent index (Scalar.toFinite (Scalar.printed (Scalar.toFinite x)))) := by
  obtain ⟨-, r, hr⟩ := hx.exists_hasValue_printed
  rw [hx.toFinite_eq, hr.toFinite_eq, Space.ReadsBack]
  split
  · next hturn => rw [hx.printed_of_text hturn.2, clampComponent_fullTurn hturn.1]
  · next hturn =>
    rw [clampComponent_eq_self hr (allows_printed hx h hturn)]
    exact hx.readsBack

end Components

/-! ## Colours read back -/

/-- An alpha between zero and one is read back from its suffix. -/
theorem Color.exists_alpha_reread {color : Color Double} {alpha : Double} {q : ℚ}
    (halpha : color.toFinite.alpha = some alpha) (h : alpha.HasValue q) (hlow : 0 ≤ q)
    (hhigh : q ≤ 1) : ∃ y, color.reread.alpha = some y ∧ Scalar.ReadsBack alpha y := by
  -- An opaque colour is written without its alpha, and one is read for it.
  by_cases hopaque : 1.0 ≤ alpha
  · have hone : q = 1 := le_antisymm hhigh ((Double.hasValue_one.le_iff h).1 hopaque)
    have hsame : alpha = 1.0 := h.eq_of_ne_zero (hone ▸ Double.hasValue_one) (by rw [hone]; norm_num)
    refine ⟨1.0, alpha_reread_of_none (by rw [halpha, writtenAlpha, if_pos hopaque]), ?_⟩
    rw [hsame]
    exact one_readsBack
  · -- The alpha is less than one, and reading it again does not lead past one.
    obtain ⟨r, hr, hnonneg, hle⟩ := h.exists_printed hlow
    have hclamp := Double.HasValue.clamp_eq_self Double.hasValue_zero Double.hasValue_one hr hnonneg
      (by exact_mod_cast hle 1 (by norm_num) (by exact_mod_cast hhigh))
    have hwritten : writtenAlpha color.toFinite.alpha = some (some alpha) := by
      rw [halpha, writtenAlpha, if_neg hopaque, h.max_eq_self Double.hasValue_zero hlow]
    refine ⟨Scalar.printed alpha, ?_, h.readsBack⟩
    rw [alpha_reread_of_some hwritten, Option.map_some, hr.toFinite_eq, hclamp]

/-- A colour is read back as another one of its space: component by component, with the same ones
missing, and likewise the alpha. -/
structure Color.ReadsBack (color result : Color Double) : Prop where
  space : result.space = color.space
  components : ∀ index, Option.Rel (color.space.ReadsBack index) (color.components.get index)
    (result.components.get index)
  alpha : Option.Rel (fun x y => Scalar.ReadsBack x y ∧ ((x == 1.0) = true → y = 1.0)) color.alpha
    result.alpha

section Colors

variable {color : Color Double}
  (hfinite : ∀ index, ∀ x ∈ color.components.get index, Scalar.isFinite x = true)
  (hclamp : color.clamp = color) (halpha : ∀ alpha ∈ color.alpha, 0.0 ≤ alpha ∧ alpha ≤ 1.0)

include hclamp in
/-- A component of a colour that clamping leaves alone lies in its range. -/
theorem Color.clampComponent_eq_self {index : Index} {x : Double}
    (hx : x ∈ color.components.get index) : color.space.clampComponent index x = x := by
  have hget := congrArg (fun clamped : Color Double => clamped.components.get index) hclamp
  rw [Color.get_clamp, Option.mem_def.1 hx, Option.map_some] at hget
  exact Option.some.inj hget

include hfinite hclamp halpha

/-- The colour that the text of a colour resolves to is the colour as it is written. -/
theorem Color.readsBack_reread : color.ReadsBack color.reread where
  space := rfl
  components := by
    intro index
    rw [Color.get_reread, Color.get_toFinite, Option.map_map]
    cases hcomponent : color.components.get index with
    | none => exact .none
    | some x =>
      obtain ⟨q, hq⟩ := Double.exists_hasValue_of_isFinite (hfinite index x hcomponent)
      have hallows := (Space.clampComponent_eq_self_iff hq).1
        (color.clampComponent_eq_self hclamp hcomponent)
      exact .some (Space.readsBack_clampComponent hq hallows)
  alpha := by
    -- An alpha that is left out is read back as one, which it then is.
    have hstored : color.toFinite.alpha = color.alpha.map Scalar.toFinite := rfl
    cases hvalue : color.alpha with
    | none =>
      rw [hvalue] at hstored
      have hwritten : writtenAlpha color.toFinite.alpha = some none := by
        rw [hstored]
        rfl
      rw [alpha_reread_of_some hwritten]
      exact .none
    | some alpha =>
      have hbetween : Number.isBetween 0.0 1.0 alpha = true := by
        obtain ⟨hlow, hhigh⟩ := halpha alpha hvalue
        rw [Number.isBetween, decide_eq_true hlow, decide_eq_true hhigh]
        rfl
      obtain ⟨q, hq, hlow, hhigh⟩ := Double.exists_hasValue_of_isBetween Double.hasValue_zero
        Double.hasValue_one hbetween
      rw [hvalue, Option.map_some, hq.toFinite_eq] at hstored
      obtain ⟨y, hy, hreads⟩ := exists_alpha_reread hstored hq hlow hhigh
      rw [hy]
      refine .some ⟨hreads, fun hone => ?_⟩
      rw [hq.beq_iff Double.hasValue_one] at hone
      have hsame : alpha = 1.0 :=
        hq.eq_of_ne_zero (hone ▸ Double.hasValue_one) (by rw [hone]; norm_num)
      rw [hsame] at hreads
      exact (Except.ok.inj (hreads.symm.trans one_readsBack))

/-- The text of a colour of a modern notation, whose components are within the ranges of its space,
is read as a value that resolves to the colour as it is written. -/
theorem ColorValue.resolve_readsBack (hlegacy : color.space.isLegacy = false) :
    ∃ value result, ofText? color.text = some value ∧
      (∀ options, ofValue? options.properties color.text = some value ∧
        value.resolve options = some ⟨result, false⟩) ∧
      color.ReadsBack result := by
  have hwrites := ColorValue.writes_text hlegacy
  have hnesting : Token.nesting (colorTokens color) ≤ maxBlockDepth := by
    rw [nesting_colorTokens]
    decide
  refine ⟨_, color.reread, hwrites.ofText?_eq hnesting, fun options => ?_,
    color.readsBack_reread hfinite hclamp halpha⟩
  rw [← hlegacy]
  exact resolve_of_writes hwrites hnesting
    (Arguments.resolve_componentArguments color [] options.dimensions)

end Colors

/-- A colour with a missing chroma and a hue just below a full turn. -/
theorem ColorValue.resolve_readsBack_oklch :
    let color : Color Double := ⟨.oklch, ⟨some 0.5, none, some 359.9999999⟩, some 0.25⟩
    ∃ value result, ofText? "oklch(0.5 none 360 / 0.25)" = some value ∧
      (∀ options, ofValue? options.properties "oklch(0.5 none 360 / 0.25)" = some value ∧
        value.resolve options = some ⟨result, false⟩) ∧
      color.ReadsBack result := by
  intro color
  have htext : color.text = "oklch(0.5 none 360 / 0.25)" := by decide +kernel
  rw [← htext]
  refine resolve_readsBack (fun index x hx => ?_) (by decide +kernel) (fun alpha h => ?_) rfl
  · cases index with
    | first =>
      rw [show x = 0.5 from (Option.some.inj hx).symm]
      decide +kernel
    | second => cases hx
    | third =>
      rw [show x = 359.9999999 from (Option.some.inj hx).symm]
      decide +kernel
  · rw [show alpha = 0.25 from (Option.some.inj h).symm]
    decide +kernel

end CssColor
