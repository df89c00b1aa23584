import CssColor.Proofs.Conversion.HueWheel

/-!
# HSL and HWB against sRGB

On rationals both spaces name a place on the wheel of hues: HSL by the saturation as the share of
the distance from its lightness to black or white, HWB by the distances of the smallest component
from zero and of the largest one from one. So an sRGB colour is recovered from its HWB components,
and from its HSL components unless it has a hue at the lightness of black or white
(`Cylinder.hslToSrgb_srgbToHsl_iff`). Beyond black and white the way to the nearer one is negative:
a positive saturation leads to the other side of the wheel, from where it is recovered with its hue
turned back (`Cylinder.srgbToHsl_hslToSrgb`).

Where a formula would divide by zero, a test before it keeps it from there: other results of
divisions by zero change nothing (`Cylinder.NeverDividesByZero`).
-/

namespace CssColor

open Extended

namespace Cylinder

variable {K : Type} [Scalar K] {hue middle reach : ℚ}

/-! ## From a hue to sRGB -/

/-- The distance of a lightness to black or white, the nearer one; negative beyond them. -/
def room (lightness : ℚ) : ℚ := min lightness (1 - lightness)

/-- Only black and white leave no room around the lightness. -/
theorem room_ne_zero {lightness : ℚ} (hblack : lightness ≠ 0) (hwhite : lightness ≠ 1) :
    room lightness ≠ 0 := by
  unfold room
  rcases min_choice lightness (1 - lightness) with h | h
  · rwa [h]
  · rw [h]
    exact sub_ne_zero.2 hwhite.symm

/-- The wave of a component, computed on rationals. -/
theorem wave_rational (k : ℚ) :
    Number.max (Number.min (Number.min (rational k - 3.0) (9.0 - rational k)) 1.0) (-1.0) =
      rational (wave k) := by
  simp only [literal_eq, rational_sub, rational_neg, min_rational, max_rational]
  unfold wave
  norm_num

/-- HSL colours lie around their lightness. -/
theorem hslToSrgb_rational (hue saturation lightness : ℚ) :
    hslToSrgb ⟨rational hue, rational saturation, rational lightness⟩ =
      (ofHue hue (lightness / 100) (saturation / 100 * room (lightness / 100))).map rational := by
  have hturn := toIcoMod_mem_Ico' fullTurn_pos hue
  have hcomponent {n : ℚ} (hn : 0 ≤ n) :
      Scalar.remainder (rational (n + toIcoMod fullTurn_pos 0 hue / 30)) (rational 12) =
        rational (toIcoMod twelve_pos 0 (n + toIcoMod fullTurn_pos 0 hue / 30)) :=
    remainder_of_nonneg (add_nonneg hn (div_nonneg hturn.1 (by norm_num))) twelve_pos
  have hthirty : (30.0 : Extended) = rational 30 := congrArg rational (by norm_num)
  have htwelve : (12.0 : Extended) = rational 12 := congrArg rational (by norm_num)
  have hsecond : (8.0 : Extended) = rational 8 := congrArg rational (by norm_num)
  have hthird : (4.0 : Extended) = rational 4 := congrArg rational (by norm_num)
  -- The turn of the hue does not change a colour on the wheel.
  rw [← ofHue_toIcoMod]
  unfold hslToSrgb
  dsimp only
  rw [normalizeHue_rational, hundred_eq, hthirty, htwelve, hsecond, hthird, zero_eq,
    rational_div (by norm_num), rational_div (by norm_num), rational_div (by norm_num),
    rational_add, rational_add, rational_add, hcomponent le_rfl, hcomponent (by norm_num),
    hcomponent (by norm_num), wave_rational, wave_rational, wave_rational, one_eq, rational_sub,
    min_rational, rational_mul, rational_mul, rational_mul, rational_mul, rational_sub,
    rational_sub, rational_sub, zero_add]
  rfl

/-! ## From sRGB to HSL -/

/-- The saturation of a place on the wheel. At black and white there is none. -/
def saturationAt (middle reach : ℚ) : ℚ :=
  if middle = 0 ∨ middle = 1 then 0 else reach / room middle

/-- The saturation times the room is the reach, except where there is no room. -/
theorem saturationAt_mul_room (middle reach : ℚ) :
    saturationAt middle reach * room middle = if middle = 0 ∨ middle = 1 then 0 else reach := by
  unfold saturationAt
  split_ifs with hend
  · rw [zero_mul]
  · rw [not_or] at hend
    rw [div_mul_cancel₀ _ (room_ne_zero hend.1 hend.2)]

/-- The saturation of a reach that comes from a saturation is that one. -/
theorem saturationAt_mul {middle : ℚ} (hblack : middle ≠ 0) (hwhite : middle ≠ 1)
    (saturation : ℚ) : saturationAt middle (saturation * room middle) = saturation := by
  rw [saturationAt, if_neg (not_or.2 ⟨hblack, hwhite⟩),
    mul_div_cancel_right₀ _ (room_ne_zero hblack hwhite)]

/-- The lightness of a colour, as a share of white. -/
def lightnessOf (rgb : Triple K) : K := (smallestOf rgb + largestOf rgb) / 2.0

/-- The saturation of a colour, negative beyond black and white. -/
def saturationOf (rgb : Triple K) : K :=
  if largestOf rgb == smallestOf rgb || lightnessOf rgb == 0.0 || lightnessOf rgb == 1.0 then 0.0
  else (largestOf rgb - lightnessOf rgb) / Number.min (lightnessOf rgb) (1.0 - lightnessOf rgb)

/-- The HSL colour of a saturation that may be negative. -/
def ofSaturation (hue saturation lightness : K) : Triple K :=
  let (hue, saturation) :=
    if saturation < 0.0 then (hue + 180.0, Scalar.abs saturation) else (hue, saturation)
  ⟨normalizeHue hue, saturation * 100.0, lightness * 100.0⟩

/-- HSL is computed from the hue, the saturation and the lightness. -/
theorem srgbToHsl_eq (rgb : Triple K) :
    srgbToHsl rgb = ofSaturation (hueOfSrgb rgb) (saturationOf rgb) (lightnessOf rgb) := rfl

/-- The lightness of a colour on the wheel is its middle. -/
theorem lightnessOf_ofHue (middle : ℚ) (h : IsPlace hue reach) :
    lightnessOf ((ofHue hue middle reach).map rational) = rational middle := by
  have htwo : (2.0 : Extended) = rational 2 := congrArg rational (by norm_num)
  rw [lightnessOf, largestOf_ofHue middle h, smallestOf_ofHue middle h, rational_add, htwo,
    rational_div two_ne_zero]
  congr 1
  ring

/-- The saturation of a colour on the wheel is its reach relative to the room. -/
theorem saturationOf_ofHue (middle : ℚ) (h : IsPlace hue reach) :
    saturationOf ((ofHue hue middle reach).map rational) =
      rational (saturationAt middle reach) := by
  unfold saturationOf saturationAt
  rw [lightnessOf_ofHue middle h, largestOf_ofHue middle h, smallestOf_ofHue middle h, zero_eq,
    one_eq]
  simp only [Bool.or_eq_true, rational_beq_iff]
  by_cases hend : middle = 0 ∨ middle = 1
  · rw [if_pos hend, if_pos (by tauto)]
  · rw [not_or] at hend
    have hroom := room_ne_zero hend.1 hend.2
    rw [if_neg (not_or.2 hend), rational_sub, rational_sub, min_rational, add_sub_cancel_left,
      ← room, rational_div hroom]
    split_ifs with hgray
    · -- Where the largest component is the smallest one, there is no reach.
      obtain rfl : reach = 0 := by
        rcases hgray with (heq | hblack) | hwhite
        · linarith
        · exact absurd hblack hend.1
        · exact absurd hwhite hend.2
      rw [zero_div]
    · rfl

/-- A negative saturation is turned to the other side of the wheel. -/
theorem ofSaturation_rational (hue saturation lightness : ℚ) :
    ofSaturation (rational hue) (rational saturation) (rational lightness) =
      ⟨rational (toIcoMod fullTurn_pos 0 (if saturation < 0 then hue + 180 else hue)),
        rational (|saturation| * 100), rational (lightness * 100)⟩ := by
  unfold ofSaturation
  rw [zero_eq]
  -- A negative saturation is that of the opposite hue.
  by_cases hnegative : saturation < 0
  · rw [if_pos (rational_lt_iff.2 hnegative), if_pos hnegative]
    dsimp only
    rw [abs_rational, halfTurn_eq, hundred_eq, rational_add, normalizeHue_rational, rational_mul,
      rational_mul]
  · rw [if_neg (mt rational_lt_iff.1 hnegative), if_neg hnegative,
      abs_of_nonneg (not_lt.1 hnegative)]
    dsimp only
    rw [hundred_eq, normalizeHue_rational, rational_mul, rational_mul]

/-- The components in HSL of a colour on the wheel. A negative saturation turns the hue to the other
side. -/
theorem srgbToHsl_ofHue (middle : ℚ) (h : IsPlace hue reach) :
    srgbToHsl ((ofHue hue middle reach).map rational) =
      ⟨rational (toIcoMod fullTurn_pos 0
        (if saturationAt middle reach < 0 then hue + 180 else hue)),
        rational (|saturationAt middle reach| * 100), rational (middle * 100)⟩ := by
  rw [srgbToHsl_eq, hueOfSrgb_ofHue middle h, saturationOf_ofHue middle h,
    lightnessOf_ofHue middle h, ofSaturation_rational]

/-! ## HWB -/

/-- HWB colours have their whiteness as the smallest component, and their largest one is as far from
one as their blackness. -/
theorem hwbToSrgb_rational (hue : ℚ) {whiteness blackness : ℚ}
    (h : whiteness + blackness < 100) :
    hwbToSrgb ⟨rational hue, rational whiteness, rational blackness⟩ =
      (ofHue hue ((100 + whiteness - blackness) / 200)
        ((100 - whiteness - blackness) / 200)).map rational := by
  have hsum : ¬ 1 ≤ whiteness / 100 + blackness / 100 := by
    intro hle
    linarith
  have hcomponent (x : ℚ) : (50 / 100 - 100 / 100 * room (50 / 100) * x) *
      (1 - whiteness / 100 - blackness / 100) + whiteness / 100 =
        (100 + whiteness - blackness) / 200 - (100 - whiteness - blackness) / 200 * x := by
    rw [room, min_eq_left (by norm_num)]
    ring
  unfold hwbToSrgb
  dsimp only
  -- With the sum below 100%, the second branch is taken: a hue at half of the lightness, moved and
  -- scaled.
  rw [hundred_eq, one_eq, fifty_eq, rational_div (by norm_num), rational_div (by norm_num),
    rational_add, if_neg (mt rational_le_iff.1 hsum), hslToSrgb_rational]
  unfold ofHue Triple.map
  dsimp only
  simp only [rational_sub, rational_mul, rational_add, hcomponent]

/-- The gray of a whiteness and a blackness that leave no room for a hue. -/
theorem hwbToSrgb_gray (hue : ℚ) {whiteness blackness : ℚ} (h : 100 ≤ whiteness + blackness) :
    hwbToSrgb ⟨rational hue, rational whiteness, rational blackness⟩ =
      (Triple.replicate (whiteness / (whiteness + blackness))).map rational := by
  have hsum : 1 ≤ whiteness / 100 + blackness / 100 := by linarith
  have hne : whiteness / 100 + blackness / 100 ≠ 0 := by linarith
  have hshare : whiteness / 100 / (whiteness / 100 + blackness / 100) =
      whiteness / (whiteness + blackness) := by
    rw [← add_div, div_div_div_cancel_right₀ (by norm_num)]
  unfold hwbToSrgb
  dsimp only
  rw [hundred_eq, one_eq, rational_div (by norm_num), rational_div (by norm_num), rational_add,
    if_pos (rational_le_iff.2 hsum), rational_div hne, hshare]
  rfl

/-- The components in HWB of a colour on the wheel. -/
theorem srgbToHwb_ofHue (middle : ℚ) (h : IsPlace hue reach) :
    srgbToHwb ((ofHue hue middle reach).map rational) =
      ⟨rational hue, rational ((middle - reach) * 100),
        rational ((1 - (middle + reach)) * 100)⟩ := by
  unfold srgbToHwb
  rw [largestOf_ofHue middle h, smallestOf_ofHue middle h, hueOfSrgb_ofHue middle h,
    normalizeHue_rational, one_eq, hundred_eq, rational_sub, rational_mul, rational_mul,
    toIcoMod_eq_of_modEq ⟨h.hue_nonneg, h.hue_lt⟩ (by rfl)]

/-! ## Recovered colours -/

/-- A colour is the same again after a change to HWB and back. -/
theorem hwbToSrgb_srgbToHwb (c : Triple ℚ) :
    hwbToSrgb (srgbToHwb (c.map rational)) = c.map rational := by
  obtain ⟨hue, middle, reach, hplace, rfl⟩ := exists_eq_ofHue c
  rw [srgbToHwb_ofHue middle hplace]
  rcases hplace.reach_nonneg.eq_or_lt with hgray | hpos
  · -- The whiteness and the blackness of a gray add up to all.
    obtain rfl := hgray
    rw [hwbToSrgb_gray _ (by linarith), ofHue_zero]
    congr 2
    field_simp
    ring
  · rw [hwbToSrgb_rational _ (by linarith)]
    congr 2 <;> ring

/-- A colour in HWB is the same again after a change to sRGB and back, if it is not a gray. -/
theorem srgbToHwb_hwbToSrgb {hue whiteness blackness : ℚ} (hlow : 0 ≤ hue) (hhigh : hue < 360)
    (h : whiteness + blackness < 100) :
    srgbToHwb (hwbToSrgb ⟨rational hue, rational whiteness, rational blackness⟩) =
      ⟨rational hue, rational whiteness, rational blackness⟩ := by
  rw [hwbToSrgb_rational hue h, srgbToHwb_ofHue _ (isPlace_of_pos hlow hhigh (by linarith))]
  congr 2 <;> ring

/-- Components are the same as numbers if they are as rationals. -/
theorem map_rational_inj {c d : Triple ℚ} : c.map rational = d.map rational ↔ c = d := by
  obtain ⟨x, y, z⟩ := c
  obtain ⟨x', y', z'⟩ := d
  simp only [Triple.map, Triple.mk.injEq, rational.injEq]

/-- Through HSL a colour keeps its place, but at black and white it loses its reach. -/
theorem hslToSrgb_srgbToHsl (middle : ℚ) (h : IsPlace hue reach) :
    hslToSrgb (srgbToHsl ((ofHue hue middle reach).map rational)) =
      (ofHue hue middle (if middle = 0 ∨ middle = 1 then 0 else reach)).map rational := by
  rw [srgbToHsl_ofHue middle h, hslToSrgb_rational, ofHue_toIcoMod,
    mul_div_cancel_right₀ _ (by norm_num), mul_div_cancel_right₀ _ (by norm_num),
    ← saturationAt_mul_room]
  split_ifs with hnegative
  · -- The sign and the half turn cancel.
    rw [abs_of_neg hnegative, ofHue_add_halfTurn, neg_mul, neg_neg]
  · rw [abs_of_nonneg (not_lt.1 hnegative)]

/-- A colour is lost through HSL where it has a hue at the lightness of black or white. -/
theorem hslToSrgb_srgbToHsl_iff (c : Triple ℚ) :
    hslToSrgb (srgbToHsl (c.map rational)) = c.map rational ↔
      IsGray c ∨ lightnessOf (c.map rational) ≠ rational 0 ∧
        lightnessOf (c.map rational) ≠ rational 1 := by
  obtain ⟨hue, middle, reach, hplace, rfl⟩ := exists_eq_ofHue c
  rw [hslToSrgb_srgbToHsl middle hplace, isGray_ofHue_iff middle hplace,
    lightnessOf_ofHue middle hplace, ne_eq, ne_eq, rational.injEq, rational.injEq, ← not_or]
  split_ifs with hend
  · -- What is left is gray, so the colour has to be one.
    rw [or_iff_left (not_not.2 hend), map_rational_inj]
    constructor
    · intro hsame
      rw [← isGray_ofHue_iff middle hplace, ← hsame, ofHue_zero]
      exact ⟨rfl, rfl⟩
    · rintro rfl
      rfl
  · exact iff_of_true rfl (.inr hend)

/-- A colour in HSL is the same again after a change to sRGB and back, if it is neither gray nor
black nor white. -/
theorem srgbToHsl_hslToSrgb {hue saturation lightness : ℚ} (hlow : 0 ≤ hue) (hhigh : hue < 360)
    (hsaturation : 0 < saturation) (hblack : lightness ≠ 0) (hwhite : lightness ≠ 100) :
    srgbToHsl (hslToSrgb ⟨rational hue, rational saturation, rational lightness⟩) =
      ⟨rational hue, rational saturation, rational lightness⟩ := by
  have hblack' : lightness / 100 ≠ 0 := div_ne_zero hblack (by norm_num)
  have hwhite' : lightness / 100 ≠ 1 := fun heq => hwhite (by linarith)
  have hshare : 0 < saturation / 100 := by linarith
  have hpercents (x : ℚ) : x / 100 * 100 = x := by ring
  rw [hslToSrgb_rational]
  rcases (room_ne_zero hblack' hwhite').lt_or_gt with hbeyond | hwithin
  · -- Beyond black and white the colour lies on the other side of the wheel.
    have hreach : 0 < -(saturation / 100 * room (lightness / 100)) :=
      neg_pos.2 (mul_neg_of_pos_of_neg hshare hbeyond)
    have hturn := toIcoMod_mem_Ico' fullTurn_pos (hue + 180)
    have hback : toIcoMod fullTurn_pos 0 (hue + 180) + 180 ≡ hue [PMOD 360] := by
      refine ((toIcoMod_modEq (hue + 180)).add_right 180).trans ?_
      exact AddCommGroup.modEq_iff_zsmul.2 ⟨-1, by ring⟩
    rw [← neg_neg (saturation / 100 * room (lightness / 100)), ← ofHue_add_halfTurn,
      ← ofHue_toIcoMod, srgbToHsl_ofHue _ (isPlace_of_pos hturn.1 hturn.2 hreach), ← neg_mul,
      saturationAt_mul hblack' hwhite', if_pos (neg_lt_zero.2 hshare), abs_neg, abs_of_pos hshare,
      toIcoMod_eq_of_modEq ⟨hlow, hhigh⟩ hback, hpercents, hpercents]
  · have hreach := mul_pos hshare hwithin
    rw [srgbToHsl_ofHue _ (isPlace_of_pos hlow hhigh hreach), saturationAt_mul hblack' hwhite',
      if_neg (not_lt.2 hshare.le), abs_of_pos hshare, toIcoMod_eq_of_modEq ⟨hlow, hhigh⟩ (by rfl),
      hpercents, hpercents]

/-! ## Divisions by zero -/

/-- No result of a division by zero enters into what a function makes of rationals. -/
def NeverDividesByZero (f : (K : Type) → Scalar K → Triple K → Triple K) : Prop :=
  ∀ (atZero : Extended → Extended) (c : Triple ℚ),
    f Extended (dividing atZero) (c.map rational) = f Extended instScalar (c.map rational)

variable (atZero : Extended → Extended)

/-- Keeping a hue within a turn divides by no zero. -/
theorem normalizeHue_dividing (hue : ℚ) :
    @normalizeHue Extended (dividing atZero) (rational hue) = normalizeHue (rational hue) := by
  unfold normalizeHue Scalar.modulo
  dsimp only
  simp (disch := norm_num) only [literal_eq, remainder_dividing]
  rfl

/-- The change from HSL divides by constants only. -/
theorem neverDividesByZero_hslToSrgb : NeverDividesByZero @hslToSrgb := by
  intro atZero c
  unfold hslToSrgb Triple.map
  dsimp only
  rw [normalizeHue_dividing, normalizeHue_rational]
  simp (disch := norm_num) only [literal_eq, div_dividing, rational_div, rational_add,
    remainder_dividing]
  rfl

/-- The largest component is found without a division. -/
theorem largestOf_dividing (c : Triple ℚ) :
    @largestOf Extended (dividing atZero) (c.map rational) = largestOf (c.map rational) := rfl

/-- The smallest component is found without a division. -/
theorem smallestOf_dividing (c : Triple ℚ) :
    @smallestOf Extended (dividing atZero) (c.map rational) = smallestOf (c.map rational) := rfl

/-- The hue is computed by a division only where the components differ. -/
theorem hueOfSrgb_dividing (c : Triple ℚ) :
    @hueOfSrgb Extended (dividing atZero) (c.map rational) = hueOfSrgb (c.map rational) := by
  unfold hueOfSrgb
  dsimp only
  rw [largestOf_dividing, smallestOf_dividing, largestOf_rational, smallestOf_rational]
  simp only [rational_sub, zero_eq]
  by_cases hspread : max (max c.first c.second) c.third - min (min c.first c.second) c.third = 0
  · rw [if_pos (rational_beq_iff.2 hspread), if_pos (rational_beq_iff.2 hspread)]
  · simp only [div_dividing _ _ hspread]

/-- The lightness is computed by a constant divisor. -/
theorem lightnessOf_dividing (c : Triple ℚ) :
    @lightnessOf Extended (dividing atZero) (c.map rational) = lightnessOf (c.map rational) := by
  unfold lightnessOf
  simp (disch := norm_num) only [literal_eq, div_dividing]
  rfl

/-- The saturation is computed by a division only where there is room. -/
theorem saturationOf_dividing (c : Triple ℚ) :
    @saturationOf Extended (dividing atZero) (c.map rational) = saturationOf (c.map rational) := by
  obtain ⟨hue, middle, reach, hplace, rfl⟩ := exists_eq_ofHue c
  unfold saturationOf
  rw [largestOf_dividing, smallestOf_dividing, lightnessOf_dividing,
    lightnessOf_ofHue middle hplace, zero_eq, one_eq]
  -- The room is zero only at black and white, and there the first branch is taken.
  by_cases hend : middle = 0 ∨ middle = 1
  · have hguard : (largestOf ((ofHue hue middle reach).map rational) ==
        smallestOf ((ofHue hue middle reach).map rational) ||
          rational middle == rational 0 || rational middle == rational 1) = true := by
      simp only [Bool.or_eq_true, rational_beq_iff]
      tauto
    rw [if_pos hguard, if_pos hguard]
  · rw [not_or] at hend
    have hroom : min middle (1 - middle) ≠ 0 := room_ne_zero hend.1 hend.2
    have hmin : @Number.min Extended (dividing atZero).toNumber (rational middle)
        (rational (1 - middle)) = rational (min middle (1 - middle)) := min_rational
    simp only [rational_sub, hmin, min_rational, div_dividing _ _ hroom]

/-- The change to HSL divides by no zero, since hue, saturation and lightness do not. -/
theorem neverDividesByZero_srgbToHsl : NeverDividesByZero @srgbToHsl := by
  intro atZero c
  obtain ⟨hue, middle, reach, hplace, hc⟩ := exists_eq_ofHue c
  rw [@srgbToHsl_eq Extended (dividing atZero), srgbToHsl_eq, hueOfSrgb_dividing,
    lightnessOf_dividing, saturationOf_dividing, hc, hueOfSrgb_ofHue middle hplace,
    lightnessOf_ofHue middle hplace, saturationOf_ofHue middle hplace]
  unfold ofSaturation
  simp only [literal_eq]
  split_ifs
  · dsimp only
    rw [rational_add, normalizeHue_dividing]
    rfl
  · dsimp only
    rw [normalizeHue_dividing]

/-- The change from HWB divides by the sum only where it is not below one. -/
theorem neverDividesByZero_hwbToSrgb : NeverDividesByZero @hwbToSrgb := by
  intro atZero c
  unfold hwbToSrgb Triple.map
  dsimp only
  simp (disch := norm_num) only [literal_eq, div_dividing, rational_div, rational_add]
  by_cases hgray : 1.0 ≤ c.second / 100.0 + c.third / 100.0
  · have hne : c.second / 100.0 + c.third / 100.0 ≠ 0 := by linarith
    rw [if_pos (rational_le_iff.2 hgray), if_pos (rational_le_iff.2 hgray), div_dividing _ _ hne]
  · have hsrgb := neverDividesByZero_hslToSrgb atZero ⟨c.first, 100.0, 50.0⟩
    rw [if_neg (mt rational_le_iff.1 hgray), if_neg (mt rational_le_iff.1 hgray)]
    unfold Triple.map at hsrgb
    dsimp only at hsrgb
    rw [hsrgb]

/-- The change to HWB divides by no zero, since the hue does not. -/
theorem neverDividesByZero_srgbToHwb : NeverDividesByZero @srgbToHwb := by
  intro atZero c
  obtain ⟨hue, middle, reach, hplace, hc⟩ := exists_eq_ofHue c
  unfold srgbToHwb
  rw [hueOfSrgb_dividing, hc, hueOfSrgb_ofHue middle hplace, normalizeHue_dividing]
  rfl

/-! ## Both ways -/

/-- An sRGB colour is recovered from its HWB components, and from its HSL components unless it has a
hue at the lightness of black or white. HSL components with a saturation are recovered at any other
lightness, and HWB components that leave room for a hue always. No division by zero takes part. -/
theorem hslToSrgb_hwbToSrgb_inverse :
    (∀ c : Triple ℚ, hwbToSrgb (srgbToHwb (c.map rational)) = c.map rational) ∧
    (∀ c : Triple ℚ, hslToSrgb (srgbToHsl (c.map rational)) = c.map rational ↔
      IsGray c ∨ lightnessOf (c.map rational) ≠ rational 0 ∧
        lightnessOf (c.map rational) ≠ rational 1) ∧
    (∀ hue saturation lightness : ℚ, 0 ≤ hue → hue < 360 → 0 < saturation → lightness ≠ 0 →
      lightness ≠ 100 →
        srgbToHsl (hslToSrgb ⟨rational hue, rational saturation, rational lightness⟩) =
          ⟨rational hue, rational saturation, rational lightness⟩) ∧
    (∀ hue whiteness blackness : ℚ, 0 ≤ hue → hue < 360 → whiteness + blackness < 100 →
      srgbToHwb (hwbToSrgb ⟨rational hue, rational whiteness, rational blackness⟩) =
        ⟨rational hue, rational whiteness, rational blackness⟩) ∧
    NeverDividesByZero @hslToSrgb ∧ NeverDividesByZero @srgbToHsl ∧
    NeverDividesByZero @hwbToSrgb ∧ NeverDividesByZero @srgbToHwb :=
  ⟨hwbToSrgb_srgbToHwb, hslToSrgb_srgbToHsl_iff,
    fun _ _ _ hlow hhigh => srgbToHsl_hslToSrgb hlow hhigh,
    fun _ _ _ hlow hhigh => srgbToHwb_hwbToSrgb hlow hhigh,
    neverDividesByZero_hslToSrgb, neverDividesByZero_srgbToHsl, neverDividesByZero_hwbToSrgb,
    neverDividesByZero_srgbToHwb⟩

/-- A lightness beyond white, a lightness beyond black, and a whiteness below zero. -/
theorem hslToSrgb_hwbToSrgb_inverse_beyondGamut :
    srgbToHsl (hslToSrgb ⟨rational 200, rational 50, rational 120⟩) =
        ⟨rational 200, rational 50, rational 120⟩ ∧
      srgbToHsl (hslToSrgb ⟨rational 0, rational 150, rational (-20)⟩) =
        ⟨rational 0, rational 150, rational (-20)⟩ ∧
      srgbToHwb (hwbToSrgb ⟨rational 300, rational (-10), rational 30⟩) =
        ⟨rational 300, rational (-10), rational 30⟩ := by
  obtain ⟨-, -, hhsl, hhwb, -⟩ := hslToSrgb_hwbToSrgb_inverse
  refine ⟨hhsl 200 50 120 ?_ ?_ ?_ ?_ ?_, hhsl 0 150 (-20) ?_ ?_ ?_ ?_ ?_,
    hhwb 300 (-10) 30 ?_ ?_ ?_⟩ <;> norm_num

end Cylinder

end CssColor
