import CssColor.Conversion.Primaries
import CssColor.Conversion.Cylinder

/-!
# Lab and OKLab

Lab is defined by XYZ relative to D50, OKLab by XYZ relative to D65. Both have a polar form with a
chroma and a hue.
-/

namespace CssColor.Lab

variable {K : Type}

section Rectangular

variable [Number K]

/-- The slope of the straight part of the Lab curve. -/
def kappa : K := 24389.0 / 27.0

/-- The relative component at which the straight part of the Lab curve ends. -/
def epsilon : K := 216.0 / 24389.0

/-- The curve from a component relative to the white point. -/
def curve [Elementary K] (value : K) : K :=
  if epsilon < value then Elementary.cbrt value else (kappa * value + 16.0) / 116.0

/-- The component relative to the white point. -/
def uncurve (f : K) : K :=
  if epsilon < Number.cube f then Number.cube f else (116.0 * f - 16.0) / kappa

/-- XYZ relative to D50 as Lab. -/
def ofXyzD50 [Elementary K] (xyz : Triple K) : Triple K :=
  let white : Triple K := Matrix3.d50White
  let f0 := curve (xyz.first / white.first)
  let f1 := curve (xyz.second / white.second)
  let f2 := curve (xyz.third / white.third)
  ⟨116.0 * f1 - 16.0, 500.0 * (f0 - f1), 200.0 * (f1 - f2)⟩

/-- Lab as XYZ relative to D50. -/
def toXyzD50 (lab : Triple K) : Triple K :=
  let white : Triple K := Matrix3.d50White
  let f1 := (lab.first + 16.0) / 116.0
  let f0 := lab.second / 500.0 + f1
  let f2 := f1 - lab.third / 200.0
  let y := if kappa * epsilon < lab.first then Number.cube f1 else lab.first / kappa
  ⟨uncurve f0 * white.first, y * white.second, uncurve f2 * white.third⟩

/-- XYZ relative to D65 as OKLab. -/
def oklabOfXyz [Elementary K] (xyz : Triple K) : Triple K :=
  Matrix3.lmsToOklab.apply ((Matrix3.xyzToLms.apply xyz).map Elementary.cbrt)

/-- OKLab as XYZ relative to D65. -/
def oklabToXyz (oklab : Triple K) : Triple K :=
  Matrix3.lmsToXyz.apply ((Matrix3.oklabToLms.apply oklab).map Number.cube)

/-- The rectangular form of a polar colour. -/
def toRectangular [Elementary K] (lch : Triple K) : Triple K :=
  let angle := Number.toRadians lch.third
  ⟨lch.first, lch.second * Elementary.cos angle, lch.second * Elementary.sin angle⟩

end Rectangular

/-- The polar form of a rectangular colour. -/
def toPolar [Scalar K] [Elementary K] (lab : Triple K) : Triple K :=
  ⟨lab.first, Elementary.hypot lab.second lab.third,
    Cylinder.normalizeHue (Number.toDegrees (Elementary.atan2 lab.third lab.second))⟩

end CssColor.Lab
