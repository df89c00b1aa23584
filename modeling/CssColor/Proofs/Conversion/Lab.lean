import CssColor.Conversion.Lab
import CssColor.Proofs.Number.Real
import Mathlib.Tactic.FieldSimp

/-!
# Lab and XYZ undo each other

On real numbers the Lab curve is a cube root above `216 / 24389` and a straight line below
(`Lab.relativeLightness`, with the inverse `Lab.relativeComponent`). Both parts are at `6 / 29`
where they meet, so the curve and its inverse choose the same part, also for negative numbers. The
inverse is written with a test on the lightness for one of the components; it is the same test
(`Lab.toXyzD50_real`). So a Lab colour and an XYZ colour are recovered from each other
(`Lab.ofXyzD50_toXyzD50_and_inverse`).
-/

namespace CssColor.Lab

open ExactReal

/-! ## The curve -/

/-- The curve from a component relative to the white point. -/
noncomputable def relativeLightness (component : ℝ) : ℝ :=
  if 216 / 24389 < component then cubeRoot component else (24389 / 27 * component + 16) / 116

/-- The component relative to the white point. -/
noncomputable def relativeComponent (lightness : ℝ) : ℝ :=
  if 6 / 29 < lightness then lightness ^ 3 else (116 * lightness - 16) / (24389 / 27)

/-- The straight part ends at `6 / 29`. -/
theorem lt_cube_iff (f : ℝ) : 216 / 24389 < f ^ 3 ↔ 6 / 29 < f := by
  have hend : (216 / 24389 : ℝ) = (6 / 29) ^ 3 := by norm_num
  rw [hend, Odd.pow_lt_pow (n := 3) (by decide)]

/-- From a point of the curve to its component and back. -/
theorem relativeLightness_relativeComponent (f : ℝ) :
    relativeLightness (relativeComponent f) = f := by
  unfold relativeComponent
  split_ifs with hf
  · -- A cube above the end of the straight part is on the part of the cube root.
    rw [relativeLightness, if_pos ((lt_cube_iff f).2 hf), cubeRoot_cube]
  · have hline : (116 * f - 16) / (24389 / 27) ≤ 216 / 24389 := by
      rw [div_le_iff₀ (by norm_num)]
      linarith
    rw [relativeLightness, if_neg (not_lt.2 hline)]
    field_simp
    ring

/-- From a component to the curve and back. -/
theorem relativeComponent_relativeLightness (component : ℝ) :
    relativeComponent (relativeLightness component) = component := by
  unfold relativeLightness
  split_ifs with hcomponent
  · have hroot : 6 / 29 < cubeRoot component := by rwa [← lt_cube_iff, cube_cubeRoot]
    rw [relativeComponent, if_pos hroot, cube_cubeRoot]
  · have hline : (24389 / 27 * component + 16) / 116 ≤ 6 / 29 := by
      rw [div_le_iff₀ (by norm_num)]
      linarith
    rw [relativeComponent, if_neg (not_lt.2 hline)]
    field_simp
    ring

/-- The curve is that of the source, in real numbers. -/
theorem curve_real (component : ℝ) :
    curve (real component) = real (relativeLightness component) := by
  unfold curve kappa epsilon relativeLightness
  simp only [literal_eq, real_div, real_lt_iff, real_mul, real_add, cbrt_real, ← apply_ite real]
  norm_num

/-- So is its inverse. -/
theorem uncurve_real (f : ℝ) : uncurve (real f) = real (relativeComponent f) := by
  unfold uncurve kappa epsilon relativeComponent
  simp only [literal_eq, real_div, real_lt_iff, real_mul, real_sub, cube_real, ← apply_ite real,
    ← lt_cube_iff]
  norm_num

/-! ## Colours -/

/-- The curve is applied to the components relative to the white point. -/
theorem ofXyzD50_real (x y z : ℝ) : ofXyzD50 ⟨real x, real y, real z⟩ =
    ⟨real (116 * relativeLightness y - 16),
      real (500 * (relativeLightness (x / (3457 / 3585)) - relativeLightness y)),
      real (200 * (relativeLightness y - relativeLightness (z / (2958 / 3585))))⟩ := by
  unfold ofXyzD50 Matrix3.d50White
  simp only [literal_eq, real_div, real_sub, real_mul, curve_real]
  norm_num

/-- The test on the lightness is the one of the inverse curve. -/
theorem toXyzD50_real (lightness a b : ℝ) : toXyzD50 ⟨real lightness, real a, real b⟩ =
    ⟨real (relativeComponent (a / 500 + (lightness + 16) / 116) * (3457 / 3585)),
      real (relativeComponent ((lightness + 16) / 116)),
      real (relativeComponent ((lightness + 16) / 116 - b / 200) * (2958 / 3585))⟩ := by
  have hlightness : relativeComponent ((lightness + 16) / 116) =
      if 8 < lightness then ((lightness + 16) / 116) ^ 3 else lightness / (24389 / 27) := by
    have hiff : 6 / 29 < (lightness + 16) / 116 ↔ 8 < lightness := by
      rw [lt_div_iff₀ (by norm_num)]
      constructor <;> intro h <;> linarith
    -- Below, the straight part is the lightness over its factor.
    unfold relativeComponent
    simp only [hiff]
    congr 2
    ring
  rw [hlightness]
  unfold toXyzD50 Matrix3.d50White kappa epsilon
  simp only [literal_eq, real_div, real_sub, real_add, real_mul, real_lt_iff, cube_real,
    uncurve_real, ← apply_ite real]
  norm_num

/-- A Lab colour that is converted to XYZ is the same when it is converted back. -/
theorem ofXyzD50_toXyzD50 (lab : Triple ExactReal) : ofXyzD50 (toXyzD50 lab) = lab := by
  obtain ⟨⟨lightness⟩, ⟨a⟩, ⟨b⟩⟩ := lab
  rw [toXyzD50_real, ofXyzD50_real, mul_div_cancel_right₀ _ (by norm_num),
    mul_div_cancel_right₀ _ (by norm_num), relativeLightness_relativeComponent,
    relativeLightness_relativeComponent, relativeLightness_relativeComponent]
  congr 2
  · ring
  · ring
  · ring

/-- A colour of XYZ that is converted to Lab is the same when it is converted back. -/
theorem toXyzD50_ofXyzD50 (xyz : Triple ExactReal) : toXyzD50 (ofXyzD50 xyz) = xyz := by
  obtain ⟨⟨x⟩, ⟨y⟩, ⟨z⟩⟩ := xyz
  have hmiddle (f : ℝ) : (116 * f - 16 + 16) / 116 = f := by ring
  have hfirst (f g : ℝ) : 500 * (f - g) / 500 + g = f := by ring
  have hthird (f g : ℝ) : g - 200 * (g - f) / 200 = f := by ring
  rw [ofXyzD50_real, toXyzD50_real, hmiddle, hfirst, hthird,
    relativeComponent_relativeLightness, relativeComponent_relativeLightness,
    relativeComponent_relativeLightness, div_mul_cancel₀ _ (by norm_num),
    div_mul_cancel₀ _ (by norm_num)]

/-- A Lab colour is recovered from its XYZ components relative to D50, and these from it. -/
theorem ofXyzD50_toXyzD50_and_inverse :
    (∀ lab : Triple ExactReal, ofXyzD50 (toXyzD50 lab) = lab) ∧
      ∀ xyz : Triple ExactReal, toXyzD50 (ofXyzD50 xyz) = xyz :=
  ⟨ofXyzD50_toXyzD50, toXyzD50_ofXyzD50⟩

end CssColor.Lab
