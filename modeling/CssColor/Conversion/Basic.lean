import CssColor.Conversion.Lab
import CssColor.Conversion.Transfer

/-!
# Conversion between spaces

Every space converts to and from XYZ relative to D65. Spaces with a simpler base in common convert
through that: the sRGB family through sRGB, the rectangular and polar forms of Lab and OKLab
directly. Nothing is clamped.
-/

namespace CssColor.Conversion

variable {K : Type} [Scalar K] [Elementary K]

/-- The sRGB components of a space of the sRGB family. -/
def toSrgb? (space : Space) (values : Triple K) : Option (Triple K) :=
  match space with
  | .rgb => some (values.map (· / 255.0))
  | .srgb => some values
  | .hsl => some (Cylinder.hslToSrgb values)
  | .hwb => some (Cylinder.hwbToSrgb values)
  | _ => none

/-- The components in a space of the sRGB family of sRGB components. -/
def ofSrgb? (space : Space) (srgb : Triple K) : Option (Triple K) :=
  match space with
  | .rgb => some (srgb.map (· * 255.0))
  | .srgb => some srgb
  | .hsl => some (Cylinder.srgbToHsl srgb)
  | .hwb => some (Cylinder.srgbToHwb srgb)
  | _ => none

/-- The components as XYZ relative to D65. -/
def toXyz (space : Space) (values : Triple K) : Triple K :=
  match space with
  | .rgb | .srgb | .hsl | .hwb =>
    Matrix3.srgbToXyz.apply
      (((toSrgb? space values).getD values).map Transfer.srgbToLinear)
  | .srgbLinear => Matrix3.srgbToXyz.apply values
  | .displayP3 => Matrix3.p3ToXyz.apply (values.map Transfer.srgbToLinear)
  | .a98Rgb => Matrix3.a98ToXyz.apply (values.map Transfer.a98ToLinear)
  | .rec2020 => Matrix3.rec2020ToXyz.apply (values.map Transfer.rec2020ToLinear)
  | .prophotoRgb =>
    Matrix3.d50ToD65.apply
      (Matrix3.prophotoToXyzD50.apply (values.map Transfer.prophotoToLinear))
  | .xyzD65 => values
  | .xyzD50 => Matrix3.d50ToD65.apply values
  | .lab => Matrix3.d50ToD65.apply (Lab.toXyzD50 values)
  | .lch => Matrix3.d50ToD65.apply (Lab.toXyzD50 (Lab.toRectangular values))
  | .oklab => Lab.oklabToXyz values
  | .oklch => Lab.oklabToXyz (Lab.toRectangular values)

/-- The components in a space of XYZ relative to D65. -/
def ofXyz (space : Space) (xyz : Triple K) : Triple K :=
  match space with
  | .rgb | .srgb | .hsl | .hwb =>
    let srgb := (Matrix3.xyzToSrgb.apply xyz).map Transfer.linearToSrgb
    (ofSrgb? space srgb).getD srgb
  | .srgbLinear => Matrix3.xyzToSrgb.apply xyz
  | .displayP3 => (Matrix3.xyzToP3.apply xyz).map Transfer.linearToSrgb
  | .a98Rgb => (Matrix3.xyzToA98.apply xyz).map Transfer.linearToA98
  | .rec2020 => (Matrix3.xyzToRec2020.apply xyz).map Transfer.linearToRec2020
  | .prophotoRgb =>
    (Matrix3.xyzD50ToProphoto.apply (Matrix3.d65ToD50.apply xyz)).map
      Transfer.linearToProphoto
  | .xyzD65 => xyz
  | .xyzD50 => Matrix3.d65ToD50.apply xyz
  | .lab => Lab.ofXyzD50 (Matrix3.d65ToD50.apply xyz)
  | .lch => Lab.toPolar (Lab.ofXyzD50 (Matrix3.d65ToD50.apply xyz))
  | .oklab => Lab.oklabOfXyz xyz
  | .oklch => Lab.toPolar (Lab.oklabOfXyz xyz)

/-- The conversion between two spaces that have a base nearer than XYZ in common. -/
def direct? (source target : Space) (values : Triple K) : Option (Triple K) :=
  match source, target with
  | .lab, .lch | .oklab, .oklch => some (Lab.toPolar values)
  | .lch, .lab | .oklch, .oklab => some (Lab.toRectangular values)
  | .lab, .xyzD50 => some (Lab.toXyzD50 values)
  | .lch, .xyzD50 => some (Lab.toXyzD50 (Lab.toRectangular values))
  | .xyzD50, .lab => some (Lab.ofXyzD50 values)
  | .xyzD50, .lch => some (Lab.toPolar (Lab.ofXyzD50 values))
  | source, target => (toSrgb? source values).bind (ofSrgb? target)

/-- The components of one space in another. -/
def convert (source target : Space) (values : Triple K) : Triple K :=
  if source = target then values
  else (direct? source target values).getD (ofXyz target (toXyz source values))

end CssColor.Conversion
