import CssColor.Number.Basic

/-!
# Transfer functions

The functions between the stored and the linear components of the RGB spaces. All of them are odd:
a negative component is treated like its magnitude.
-/

namespace CssColor.Transfer

variable {K : Type} [Scalar K] [Elementary K]

/-- A function of the magnitude, continued to negative numbers by their sign. -/
def mirrored (f : K → K) (c : K) : K := Scalar.withSign (f (Scalar.abs c)) c

/-- Linear components of sRGB and display-p3. -/
def srgbToLinear (c : K) : K :=
  if Scalar.abs c ≤ 0.04045 then c / 12.92
  else mirrored (fun c => Elementary.pow ((c + 0.055) / 1.055) 2.4) c

/-- Stored components of sRGB and display-p3. -/
def linearToSrgb (c : K) : K :=
  if 0.0031308 < Scalar.abs c then
    mirrored (fun c => 1.055 * Elementary.pow c (1.0 / 2.4) - 0.055) c
  else 12.92 * c

/-- Linear components of a98-rgb. -/
def a98ToLinear (c : K) : K := mirrored (Elementary.pow · (563.0 / 256.0)) c

/-- Stored components of a98-rgb. -/
def linearToA98 (c : K) : K := mirrored (Elementary.pow · (256.0 / 563.0)) c

/-- Linear components of prophoto-rgb. -/
def prophotoToLinear (c : K) : K :=
  if Scalar.abs c ≤ 16.0 / 512.0 then c / 16.0 else mirrored (Elementary.pow · 1.8) c

/-- Stored components of prophoto-rgb. -/
def linearToProphoto (c : K) : K :=
  if 1.0 / 512.0 ≤ Scalar.abs c then mirrored (Elementary.pow · (1.0 / 1.8)) c else 16.0 * c

/-- The scale of the curved part of rec2020. -/
def rec2020Alpha : K := 1.09929682680944

/-- The linear component at which the straight part of rec2020 ends. -/
def rec2020Beta : K := 0.018053968510807

/-- Linear components of rec2020. -/
def rec2020ToLinear (c : K) : K :=
  if Scalar.abs c < rec2020Beta * 4.5 then c / 4.5
  else mirrored (fun c => Elementary.pow ((c + rec2020Alpha - 1.0) / rec2020Alpha) (1.0 / 0.45)) c

/-- Stored components of rec2020. -/
def linearToRec2020 (c : K) : K :=
  if rec2020Beta < Scalar.abs c then
    mirrored (fun c => rec2020Alpha * Elementary.pow c 0.45 - (rec2020Alpha - 1.0)) c
  else 4.5 * c

end CssColor.Transfer
