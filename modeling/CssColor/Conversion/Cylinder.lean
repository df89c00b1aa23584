import CssColor.Color.Space

/-!
# HSL and HWB

Both spaces give an sRGB colour by its hue and two measures of its distance from gray. Components
outside the gamut are carried through.
-/

namespace CssColor.Cylinder

variable {K : Type} [Scalar K]

/-- A hue between 0 and 360 degrees. A tiny negative hue may come out as the full circle, which is
zero. -/
def normalizeHue (hue : K) : K :=
  let normalized := Scalar.modulo hue 360.0
  if 360.0 ≤ normalized then 0.0 else normalized

/-- The sRGB colour of a hue, a saturation and a lightness. -/
def hslToSrgb (hsl : Triple K) : Triple K :=
  let hue := normalizeHue hsl.first
  let saturation := hsl.second / 100.0
  let lightness := hsl.third / 100.0
  let component := fun n : K =>
    let k := Scalar.remainder (n + hue / 30.0) 12.0
    let a := saturation * Number.min lightness (1.0 - lightness)
    lightness - a * Number.max (Number.min (Number.min (k - 3.0) (9.0 - k)) 1.0) (-1.0)
  ⟨component 0.0, component 8.0, component 4.0⟩

/-- The largest component. -/
def largestOf (rgb : Triple K) : K := Number.max (Number.max rgb.first rgb.second) rgb.third

/-- The smallest component. -/
def smallestOf (rgb : Triple K) : K := Number.min (Number.min rgb.first rgb.second) rgb.third

/-- The hue of an sRGB colour in degrees; a gray has the hue zero. -/
def hueOfSrgb (rgb : Triple K) : K :=
  let max := largestOf rgb
  let delta := max - smallestOf rgb
  let sector :=
    if delta == 0.0 then 0.0
    else if max == rgb.first then
      (rgb.second - rgb.third) / delta + (if rgb.second < rgb.third then 6.0 else 0.0)
    else if max == rgb.second then (rgb.third - rgb.first) / delta + 2.0
    else (rgb.first - rgb.second) / delta + 4.0
  sector * 60.0

/-- The hue, saturation and lightness of an sRGB colour. Outside the gamut the saturation may come
out negative; then the hue is turned to the other side. -/
def srgbToHsl (rgb : Triple K) : Triple K :=
  let hue := hueOfSrgb rgb
  let max := largestOf rgb
  let min := smallestOf rgb
  let lightness := (min + max) / 2.0
  let saturation :=
    if max == min || lightness == 0.0 || lightness == 1.0 then 0.0
    else (max - lightness) / Number.min lightness (1.0 - lightness)
  let (hue, saturation) :=
    if saturation < 0.0 then (hue + 180.0, Scalar.abs saturation) else (hue, saturation)
  ⟨normalizeHue hue, saturation * 100.0, lightness * 100.0⟩

/-- The sRGB colour of a hue, a whiteness and a blackness. Where these add up to all or more, it is
a gray. -/
def hwbToSrgb (hwb : Triple K) : Triple K :=
  let whiteness := hwb.second / 100.0
  let blackness := hwb.third / 100.0
  if 1.0 ≤ whiteness + blackness then .replicate (whiteness / (whiteness + blackness))
  else
    (hslToSrgb ⟨hwb.first, 100.0, 50.0⟩).map fun c =>
      c * (1.0 - whiteness - blackness) + whiteness

/-- The hue, whiteness and blackness of an sRGB colour. -/
def srgbToHwb (rgb : Triple K) : Triple K :=
  ⟨normalizeHue (hueOfSrgb rgb), smallestOf rgb * 100.0, (1.0 - largestOf rgb) * 100.0⟩

end CssColor.Cylinder
