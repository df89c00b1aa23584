import CssColor.Proofs.Color.HueArc

/-!
# The hue wheel

Around the wheel of hues every component of an sRGB colour follows the same wave, a third of a turn
behind the one before (`Cylinder.ofHue`). Every colour has a place on the wheel: a hue, the middle
of its components and how far the largest of them is from it (`Cylinder.exists_eq_ofHue`,
`Cylinder.hueOfSrgb_ofHue`). Both are seen in the six sectors of the wheel: in each of them one
component is the largest, one the smallest, and the third one moves from one to the other
(`Cylinder.ofHue_hue`, `Cylinder.hueOfSrgb_place`).
-/

namespace CssColor.Cylinder

open Extended

/-! ## The wave -/

/-- The wave at a position on the wheel, of which a turn has twelve. It rises between 2 and 4 and
falls between 8 and 10. -/
def wave (k : ℚ) : ℚ := max (min (min (k - 3) (9 - k)) 1) (-1)

/-- Up to 2 the wave is in its trough. -/
theorem wave_of_le_two {k : ℚ} (h : k ≤ 2) : wave k = -1 := by
  rw [wave, min_eq_left (by linarith : k - 3 ≤ 9 - k), min_eq_left (by linarith),
    max_eq_right (by linarith)]

/-- From 2 to 4 the wave rises. -/
theorem wave_rising {k : ℚ} (hlow : 2 ≤ k) (hhigh : k ≤ 4) : wave k = k - 3 := by
  rw [wave, min_eq_left (by linarith : k - 3 ≤ 9 - k), min_eq_left (by linarith),
    max_eq_left (by linarith)]

/-- From 4 to 8 the wave is on its crest. -/
theorem wave_high {k : ℚ} (hlow : 4 ≤ k) (hhigh : k ≤ 8) : wave k = 1 := by
  rw [wave, min_eq_right (le_min (by linarith) (by linarith)), max_eq_left (by norm_num)]

/-- From 8 to 10 the wave falls. -/
theorem wave_falling {k : ℚ} (hlow : 8 ≤ k) (hhigh : k ≤ 10) : wave k = 9 - k := by
  rw [wave, min_eq_right (by linarith : 9 - k ≤ k - 3), min_eq_left (by linarith),
    max_eq_left (by linarith)]

/-- From 10 on the wave is in its trough again. -/
theorem wave_of_ten_le {k : ℚ} (h : 10 ≤ k) : wave k = -1 := by
  rw [wave, min_eq_right (by linarith : 9 - k ≤ k - 3), min_eq_left (by linarith),
    max_eq_right (by linarith)]

/-- Half a turn on, the wave is on the other side. -/
theorem wave_add_six {k : ℚ} (hlow : 0 ≤ k) (hhigh : k ≤ 6) : wave (k + 6) = -wave k := by
  rcases le_total k 2 with h | h
  · rw [wave_of_le_two h, wave_high (by linarith) (by linarith), neg_neg]
  · rcases le_total k 4 with h' | h'
    · rw [wave_rising h h', wave_falling (by linarith) (by linarith)]
      ring
    · rw [wave_high h' (by linarith), wave_of_ten_le (by linarith)]

/-- The length of a turn, for taking positions modulo it. -/
theorem twelve_pos : (0 : ℚ) < 12 := by norm_num

/-- The wave at a position that may be turns away. -/
noncomputable def waveAt (x : ℚ) : ℚ := wave (toIcoMod twelve_pos 0 x)

/-- Positions that are whole turns apart are the same. -/
theorem waveAt_add_turns (x : ℚ) (n : ℤ) : waveAt (x + n * 12) = waveAt x := by
  rw [waveAt, waveAt, ← zsmul_eq_mul, toIcoMod_add_zsmul]

/-- The end of a turn is its start. -/
theorem waveAt_eq {x : ℚ} (hlow : 0 ≤ x) (hhigh : x ≤ 12) : waveAt x = wave x := by
  rcases hhigh.lt_or_eq with h | rfl
  · rw [waveAt, (toIcoMod_eq_self twelve_pos).2 ⟨hlow, by linarith⟩]
  · have hstart := waveAt_add_turns 0 1
    rw [Int.cast_one, one_mul, zero_add] at hstart
    rw [hstart, waveAt, toIcoMod_apply_left, wave_of_le_two (by norm_num),
      wave_of_ten_le (by norm_num)]

/-- A position on the second turn. -/
theorem waveAt_eq_sub {x : ℚ} (hlow : 12 ≤ x) (hhigh : x ≤ 24) : waveAt x = wave (x - 12) := by
  rw [← waveAt_eq (by linarith) (by linarith), ← waveAt_add_turns (x - 12) 1]
  congr 1
  norm_num

/-- Half a turn on, the wave is on the other side, wherever the position is. -/
theorem waveAt_add_six (x : ℚ) : waveAt (x + 6) = -waveAt x := by
  obtain ⟨y, n, hy, hlow, hhigh⟩ : ∃ (y : ℚ) (n : ℤ), x = y + n * 12 ∧ 0 ≤ y ∧ y < 12 := by
    have hmem := toIcoMod_mem_Ico' twelve_pos x
    refine ⟨toIcoMod twelve_pos 0 x, toIcoDiv twelve_pos 0 x, ?_, hmem.1, hmem.2⟩
    rw [← zsmul_eq_mul, toIcoMod_add_toIcoDiv_zsmul]
  rw [hy, add_right_comm, waveAt_add_turns, waveAt_add_turns, waveAt_eq hlow hhigh.le]
  -- From the first half of the turn to the second one, and from there over the end of the turn.
  rcases le_total y 6 with h | h
  · rw [waveAt_eq (by linarith) (by linarith), wave_add_six hlow h]
  · rw [waveAt_eq_sub (by linarith) (by linarith), ← neg_neg (wave (y + 6 - 12)),
      ← wave_add_six (by linarith) (by linarith)]
    congr 2
    ring

/-! ## The wheel -/

/-- The colour at a hue, around a middle of its components and with the largest one as far from it
as it reaches. -/
noncomputable def ofHue (hue middle reach : ℚ) : Triple ℚ :=
  ⟨middle - reach * waveAt (hue / 30), middle - reach * waveAt (8 + hue / 30),
    middle - reach * waveAt (4 + hue / 30)⟩

/-- Hues that are whole turns apart are the same. -/
theorem ofHue_add_turns (hue middle reach : ℚ) (n : ℤ) :
    ofHue (hue + n * 360) middle reach = ofHue hue middle reach := by
  have hturns (start : ℚ) : waveAt (start + (hue + n * 360) / 30) = waveAt (start + hue / 30) := by
    rw [← waveAt_add_turns (start + hue / 30) n]
    congr 1
    ring
  have hfirst := hturns 0
  rw [zero_add, zero_add] at hfirst
  rw [ofHue, ofHue, hturns, hturns, hfirst]

/-- A hue and what is left of it without whole turns have the same colour. -/
theorem ofHue_toIcoMod (hue middle reach : ℚ) :
    ofHue (toIcoMod fullTurn_pos 0 hue) middle reach = ofHue hue middle reach := by
  rw [← ofHue_add_turns _ middle reach (toIcoDiv fullTurn_pos 0 hue), ← zsmul_eq_mul,
    toIcoMod_add_toIcoDiv_zsmul]

/-- Across the wheel the components lie on the other side of the middle. -/
theorem ofHue_add_halfTurn (hue middle reach : ℚ) :
    ofHue (hue + 180) middle reach = ofHue hue middle (-reach) := by
  have hacross (start : ℚ) :
      middle - reach * waveAt (start + (hue + 180) / 30) =
        middle - -reach * waveAt (start + hue / 30) := by
    rw [show start + (hue + 180) / 30 = start + hue / 30 + 6 by ring, waveAt_add_six]
    ring
  have hfirst := hacross 0
  rw [zero_add, zero_add] at hfirst
  rw [ofHue, ofHue, hacross, hacross, hfirst]

/-- Without a reach every hue is the same gray. -/
theorem ofHue_zero (hue middle : ℚ) : ofHue hue middle 0 = .replicate middle := by
  simp [ofHue, Triple.replicate]

/-! ## Sectors -/

/-- The sectors of the wheel, by their largest component and the one that is next to it. -/
inductive Sector where
  | redGreen
  | greenRed
  | greenBlue
  | blueGreen
  | blueRed
  | redBlue

namespace Sector

/-- The hue in a sector, by the part of the way that the third component has gone from the smallest
to the largest one. -/
def hue (t : ℚ) : Sector → ℚ
  | redGreen => 60 * t
  | greenRed => 60 * (2 - t)
  | greenBlue => 60 * (2 + t)
  | blueGreen => 60 * (4 - t)
  | blueRed => 60 * (4 + t)
  | redBlue => 60 * (6 - t)

/-- The components in a sector. -/
def place (largest between smallest : ℚ) : Sector → Triple ℚ
  | redGreen => ⟨largest, between, smallest⟩
  | greenRed => ⟨between, largest, smallest⟩
  | greenBlue => ⟨smallest, largest, between⟩
  | blueGreen => ⟨smallest, between, largest⟩
  | blueRed => ⟨between, smallest, largest⟩
  | redBlue => ⟨largest, smallest, between⟩

/-- The parts of the way in a sector. The last sector ends where the first one starts. -/
def Admits (sector : Sector) (t : ℚ) : Prop := 0 ≤ t ∧ t ≤ 1 ∧ (sector = redBlue → 0 < t)

variable {sector : Sector} {t : ℚ}

/-- The hues in a sector lie in one turn. -/
theorem Admits.hue_in_turn (h : sector.Admits t) : 0 ≤ sector.hue t ∧ sector.hue t < 360 := by
  obtain ⟨hlow, hhigh, hlast⟩ := h
  cases sector with
  | redBlue =>
    have hpos := hlast rfl
    constructor <;> simp only [hue] <;> linarith
  | _ => constructor <;> simp only [hue] <;> linarith

/-- Every hue lies in a sector. -/
theorem exists_hue_eq {angle : ℚ} (hlow : 0 ≤ angle) (hhigh : angle < 360) :
    ∃ (sector : Sector) (t : ℚ), sector.Admits t ∧ angle = sector.hue t := by
  rcases le_or_gt angle 60 with h₁ | h₁
  · exact ⟨redGreen, angle / 60, ⟨by linarith, by linarith, by rintro ⟨⟩⟩, by rw [hue]; ring⟩
  rcases le_or_gt angle 120 with h₂ | h₂
  · exact ⟨greenRed, 2 - angle / 60, ⟨by linarith, by linarith, by rintro ⟨⟩⟩, by rw [hue]; ring⟩
  rcases le_or_gt angle 180 with h₃ | h₃
  · exact ⟨greenBlue, angle / 60 - 2, ⟨by linarith, by linarith, by rintro ⟨⟩⟩, by rw [hue]; ring⟩
  rcases le_or_gt angle 240 with h₄ | h₄
  · exact ⟨blueGreen, 4 - angle / 60, ⟨by linarith, by linarith, by rintro ⟨⟩⟩, by rw [hue]; ring⟩
  rcases le_or_gt angle 300 with h₅ | h₅
  · exact ⟨blueRed, angle / 60 - 4, ⟨by linarith, by linarith, by rintro ⟨⟩⟩, by rw [hue]; ring⟩
  · exact ⟨redBlue, 6 - angle / 60, ⟨by linarith, by linarith, fun _ => by linarith⟩,
      by rw [hue]; ring⟩

end Sector

/-- In a sector the wheel moves one component between the other two. -/
theorem ofHue_hue {sector : Sector} {t : ℚ} (h : sector.Admits t) (middle reach : ℚ) :
    ofHue (sector.hue t) middle reach =
      sector.place (middle + reach) (middle - reach + 2 * reach * t) (middle - reach) := by
  obtain ⟨hlow, hhigh, -⟩ := h
  -- In each sector one component is at a crest of the wave, one in a trough, and one in between.
  cases sector with
  | redGreen =>
    -- A position is a hue over 30, so that a sector is two positions long.
    have hposition : Sector.redGreen.hue t / 30 = 2 * t := by rw [Sector.hue]; ring
    rw [ofHue, hposition, waveAt_eq (by linarith) (by linarith),
      waveAt_eq (by linarith) (by linarith), waveAt_eq (by linarith) (by linarith),
      wave_of_le_two (by linarith), wave_falling (by linarith) (by linarith),
      wave_high (by linarith) (by linarith), Sector.place]
    congr 1 <;> ring
  | greenRed =>
    have hposition : Sector.greenRed.hue t / 30 = 4 - 2 * t := by rw [Sector.hue]; ring
    rw [ofHue, hposition, waveAt_eq (by linarith) (by linarith),
      waveAt_eq (by linarith) (by linarith), waveAt_eq (by linarith) (by linarith),
      wave_rising (by linarith) (by linarith), wave_of_ten_le (by linarith),
      wave_high (by linarith) (by linarith), Sector.place]
    congr 1 <;> ring
  | greenBlue =>
    have hposition : Sector.greenBlue.hue t / 30 = 4 + 2 * t := by rw [Sector.hue]; ring
    rw [ofHue, hposition, waveAt_eq (by linarith) (by linarith),
      waveAt_eq_sub (by linarith) (by linarith), waveAt_eq (by linarith) (by linarith),
      wave_high (by linarith) (by linarith), wave_of_le_two (by linarith),
      wave_falling (by linarith) (by linarith), Sector.place]
    congr 1 <;> ring
  | blueGreen =>
    have hposition : Sector.blueGreen.hue t / 30 = 8 - 2 * t := by rw [Sector.hue]; ring
    rw [ofHue, hposition, waveAt_eq (by linarith) (by linarith),
      waveAt_eq_sub (by linarith) (by linarith), waveAt_eq (by linarith) (by linarith),
      wave_high (by linarith) (by linarith), wave_rising (by linarith) (by linarith),
      wave_of_ten_le (by linarith), Sector.place]
    congr 1 <;> ring
  | blueRed =>
    have hposition : Sector.blueRed.hue t / 30 = 8 + 2 * t := by rw [Sector.hue]; ring
    rw [ofHue, hposition, waveAt_eq (by linarith) (by linarith),
      waveAt_eq_sub (by linarith) (by linarith), waveAt_eq_sub (by linarith) (by linarith),
      wave_falling (by linarith) (by linarith), wave_high (by linarith) (by linarith),
      wave_of_le_two (by linarith), Sector.place]
    congr 1 <;> ring
  | redBlue =>
    have hposition : Sector.redBlue.hue t / 30 = 12 - 2 * t := by rw [Sector.hue]; ring
    rw [ofHue, hposition, waveAt_eq (by linarith) (by linarith),
      waveAt_eq_sub (by linarith) (by linarith), waveAt_eq_sub (by linarith) (by linarith),
      wave_of_ten_le (by linarith), wave_high (by linarith) (by linarith),
      wave_rising (by linarith) (by linarith), Sector.place]
    congr 1 <;> ring

/-! ## Colours on the wheel -/

/-- All components are the same. -/
def IsGray (c : Triple ℚ) : Prop := c.first = c.second ∧ c.second = c.third

/-- The largest of three exact components. -/
theorem largestOf_rational (c : Triple ℚ) :
    largestOf (c.map rational) = rational (max (max c.first c.second) c.third) := by
  unfold largestOf Triple.map
  dsimp only
  rw [max_rational, max_rational]

/-- The smallest of three exact components. -/
theorem smallestOf_rational (c : Triple ℚ) :
    smallestOf (c.map rational) = rational (min (min c.first c.second) c.third) := by
  unfold smallestOf Triple.map
  dsimp only
  rw [min_rational, min_rational]

section Place

variable {largest between smallest : ℚ}

/-- The largest component in a sector is the one that is called so. -/
theorem largestOf_place (sector : Sector) (hsmallest : smallest ≤ between)
    (hlargest : between ≤ largest) :
    largestOf ((sector.place largest between smallest).map rational) = rational largest := by
  rw [largestOf_rational]
  congr 1
  cases sector <;> simp only [Sector.place] <;> grind

/-- The smallest component in a sector is the one that is called so. -/
theorem smallestOf_place (sector : Sector) (hsmallest : smallest ≤ between)
    (hlargest : between ≤ largest) :
    smallestOf ((sector.place largest between smallest).map rational) = rational smallest := by
  rw [smallestOf_rational]
  congr 1
  cases sector <;> simp only [Sector.place] <;> grind

/-- A colour in a sector, by the part of the way that the third component has gone. -/
theorem exists_part {sector : Sector} (hsmallest : smallest ≤ between)
    (hlargest : between ≤ largest) (hspread : smallest < largest)
    (hlast : sector = .redBlue → smallest < between) :
    ∃ t, sector.Admits t ∧ between = smallest + (largest - smallest) * t := by
  have hpos : 0 < largest - smallest := by linarith
  refine ⟨(between - smallest) / (largest - smallest), ⟨?_, ?_, ?_⟩, ?_⟩
  · exact div_nonneg (by linarith) hpos.le
  · rw [div_le_one hpos]
    linarith
  · intro hsector
    exact div_pos (by linarith [hlast hsector]) hpos
  · rw [mul_div_cancel₀ _ hpos.ne']
    ring

end Place

/-- Every colour that is not gray lies in a sector. -/
theorem exists_eq_place {c : Triple ℚ} (h : ¬ IsGray c) :
    ∃ (sector : Sector) (largest between smallest : ℚ), smallest ≤ between ∧ between ≤ largest ∧
      smallest < largest ∧ (sector = .redBlue → smallest < between) ∧
      c = sector.place largest between smallest := by
  obtain ⟨red, green, blue⟩ := c
  simp only [IsGray] at h
  have hlt {smallest between largest : ℚ} (hsmallest : smallest ≤ between)
      (hlargest : between ≤ largest)
      (hgray : smallest = between → between = largest → red = green ∧ green = blue) :
      smallest < largest :=
    lt_of_le_of_ne (hsmallest.trans hlargest) fun heq =>
      h (hgray (by linarith) (by linarith))
  -- Where two components are the same the sector is a choice, but the last one holds no such tie
  -- at its far end, where the turn starts over.
  rcases le_total red green with hrg | hrg
  · rcases le_total green blue with hgb | hgb
    · exact ⟨.blueGreen, blue, green, red, hrg, hgb, hlt hrg hgb (by grind), by rintro ⟨⟩, rfl⟩
    · rcases le_total red blue with hrb | hrb
      · exact ⟨.greenBlue, green, blue, red, hrb, hgb, hlt hrb hgb (by grind), by rintro ⟨⟩, rfl⟩
      · exact ⟨.greenRed, green, red, blue, hrb, hrg, hlt hrb hrg (by grind), by rintro ⟨⟩, rfl⟩
  · rcases le_or_gt blue green with hbg | hbg
    · exact ⟨.redGreen, red, green, blue, hbg, hrg, hlt hbg hrg (by grind), by rintro ⟨⟩, rfl⟩
    · rcases le_total red blue with hrb | hrb
      · exact ⟨.blueRed, blue, red, green, hrg, hrb, hlt hrg hrb (by grind), by rintro ⟨⟩, rfl⟩
      · exact ⟨.redBlue, red, blue, green, hbg.le, hrb, hlt hbg.le hrb (by grind), fun _ => hbg,
          rfl⟩

/-- The hue of a colour that is not gray is a matter of rational comparisons. -/
theorem hueOfSrgb_rational (red green blue : ℚ) {largest smallest : ℚ}
    (hlargest : largestOf ⟨rational red, rational green, rational blue⟩ = rational largest)
    (hsmallest : smallestOf ⟨rational red, rational green, rational blue⟩ = rational smallest)
    (hspread : smallest < largest) :
    hueOfSrgb ⟨rational red, rational green, rational blue⟩ = rational (60 *
      if largest = red then
        (green - blue) / (largest - smallest) + if green < blue then 6 else 0
      else if largest = green then (blue - red) / (largest - smallest) + 2
      else (red - green) / (largest - smallest) + 4) := by
  have hne : largest - smallest ≠ 0 := by linarith
  unfold hueOfSrgb
  dsimp only
  -- The spread is not zero, so the quotients are those of rationals.
  rw [hlargest, hsmallest, rational_sub, zero_eq, if_neg (by rwa [rational_beq_iff])]
  simp only [rational_beq_iff, rational_sub, literal_eq, rational_div hne, rational_lt_iff,
    rational_add, ← apply_ite rational, rational_mul]
  rw [mul_comm (60 : ℚ)]
  norm_num

/-- The hue of a colour in a sector. Where two components are the largest ones, two sectors meet. -/
theorem hueOfSrgb_place {sector : Sector} {largest between smallest t : ℚ} (h : sector.Admits t)
    (hspread : smallest < largest) (hbetween : between = smallest + (largest - smallest) * t) :
    hueOfSrgb ((sector.place largest between smallest).map rational) = rational (sector.hue t) := by
  obtain ⟨hlow, hhigh, hlast⟩ := h
  -- The spread is what the hue is a quotient of, so it must not be zero.
  have hpos : 0 < largest - smallest := by linarith
  have hsmallest : smallest ≤ between := by
    have := mul_nonneg hpos.le hlow
    linarith
  have hlargest : between ≤ largest := by
    have := mul_le_of_le_one_right hpos.le hhigh
    linarith
  have hup : (between - smallest) / (largest - smallest) = t := by
    rw [hbetween, add_sub_cancel_left, mul_div_cancel_left₀ _ hpos.ne']
  -- These are the quotients that the branches of the hue take.
  have hdown : (smallest - between) / (largest - smallest) = -t := by
    rw [← neg_sub, neg_div, hup]
  have hwhole : (largest - smallest) / (largest - smallest) = 1 := div_self hpos.ne'
  have hback : (smallest - largest) / (largest - smallest) = -1 := by
    rw [← neg_sub, neg_div, hwhole]
  -- Where the way ends, the third component is one of the largest ones.
  have hend (heq : largest = between) : t = 1 := by rw [← hup, ← heq, hwhole]
  have hmost := largestOf_place sector hsmallest hlargest
  have hleast := smallestOf_place sector hsmallest hlargest
  cases sector with
  | redGreen =>
    refine (hueOfSrgb_rational largest between smallest hmost hleast hspread).trans ?_
    rw [if_pos rfl, if_neg (not_lt.2 hsmallest), hup, add_zero, Sector.hue]
  | greenRed =>
    refine (hueOfSrgb_rational between largest smallest hmost hleast hspread).trans ?_
    -- Green is the largest component, and red goes down.
    rw [if_neg (not_lt.2 hspread.le), if_pos rfl, hwhole, hdown, Sector.hue]
    split_ifs with htie
    · -- Red is the largest as well, and its branch gives the end of this sector.
      rw [hend htie]
      norm_num
    · ring_nf
  | greenBlue =>
    refine (hueOfSrgb_rational smallest largest between hmost hleast hspread).trans ?_
    rw [if_neg hspread.ne', if_pos rfl, hup, Sector.hue, add_comm]
  | blueGreen =>
    refine (hueOfSrgb_rational smallest between largest hmost hleast hspread).trans ?_
    rw [if_neg hspread.ne', hwhole, hdown, Sector.hue]
    split_ifs with htie
    · rw [hend htie]
      norm_num
    · ring_nf
  | blueRed =>
    refine (hueOfSrgb_rational between smallest largest hmost hleast hspread).trans ?_
    rw [if_pos hspread, if_neg hspread.ne', hup, hback, Sector.hue]
    split_ifs with htie
    · rw [hend htie]
      norm_num
    · ring_nf
  | redBlue =>
    have hmoved : smallest < between := by
      have := mul_pos hpos (hlast rfl)
      linarith
    refine (hueOfSrgb_rational largest smallest between hmost hleast hspread).trans ?_
    -- Below zero a full turn is added.
    rw [if_pos rfl, if_pos hmoved, hdown, Sector.hue]
    ring_nf

/-! ## The place of a colour -/

/-- A hue within one turn and a reach, with the hue zero for gray. -/
structure IsPlace (hue reach : ℚ) : Prop where
  hue_nonneg : 0 ≤ hue
  hue_lt : hue < 360
  reach_nonneg : 0 ≤ reach
  hue_eq_zero : reach = 0 → hue = 0

section Place

variable {hue middle reach : ℚ}

/-- For a colour with a reach any hue in the turn will do. -/
theorem isPlace_of_pos (hlow : 0 ≤ hue) (hhigh : hue < 360) (hreach : 0 < reach) :
    IsPlace hue reach :=
  ⟨hlow, hhigh, hreach.le, fun heq => absurd heq hreach.ne'⟩

/-- A colour with a place is a gray, or it lies in a sector. -/
theorem IsPlace.cases (h : IsPlace hue reach) : hue = 0 ∧ reach = 0 ∨
    ∃ (sector : Sector) (t : ℚ), sector.Admits t ∧ hue = sector.hue t ∧ 0 < reach := by
  rcases h.reach_nonneg.eq_or_lt with hgray | hpos
  · exact .inl ⟨h.hue_eq_zero hgray.symm, hgray.symm⟩
  · obtain ⟨sector, t, hadmits, heq⟩ := Sector.exists_hue_eq h.hue_nonneg h.hue_lt
    exact .inr ⟨sector, t, hadmits, heq, hpos⟩

/-- In a sector the third component is never outside of the other two. -/
theorem between_of_reach (middle : ℚ) {t : ℚ} (hlow : 0 ≤ t) (hhigh : t ≤ 1) (hreach : 0 < reach) :
    middle - reach ≤ middle - reach + 2 * reach * t ∧
      middle - reach + 2 * reach * t ≤ middle + reach := by
  have hway : 0 ≤ 2 * reach * t := by positivity
  have hrest : 0 ≤ 2 * reach * (1 - t) := mul_nonneg (by linarith) (by linarith)
  constructor
  · linarith
  · linarith

/-- The largest component of a colour lies its reach above the middle. -/
theorem largestOf_ofHue (middle : ℚ) (h : IsPlace hue reach) :
    largestOf ((ofHue hue middle reach).map rational) = rational (middle + reach) := by
  obtain ⟨rfl, rfl⟩ | ⟨sector, t, hadmits, rfl, hreach⟩ := h.cases
  · rw [ofHue_zero, largestOf_rational, Triple.replicate, max_self, max_self, add_zero]
  · obtain ⟨hsmallest, hlargest⟩ :=
      between_of_reach middle hadmits.1 hadmits.2.1 hreach
    rw [ofHue_hue hadmits, largestOf_place sector hsmallest hlargest]

/-- The smallest component of a colour lies its reach below the middle. -/
theorem smallestOf_ofHue (middle : ℚ) (h : IsPlace hue reach) :
    smallestOf ((ofHue hue middle reach).map rational) = rational (middle - reach) := by
  obtain ⟨rfl, rfl⟩ | ⟨sector, t, hadmits, rfl, hreach⟩ := h.cases
  · rw [ofHue_zero, smallestOf_rational, Triple.replicate, min_self, min_self, sub_zero]
  · obtain ⟨hsmallest, hlargest⟩ :=
      between_of_reach middle hadmits.1 hadmits.2.1 hreach
    rw [ofHue_hue hadmits, smallestOf_place sector hsmallest hlargest]

/-- The hue of a colour is found again from its components. -/
theorem hueOfSrgb_ofHue (middle : ℚ) (h : IsPlace hue reach) :
    hueOfSrgb ((ofHue hue middle reach).map rational) = rational hue := by
  have hlargest := largestOf_ofHue middle h
  have hsmallest := smallestOf_ofHue middle h
  obtain ⟨rfl, rfl⟩ | ⟨sector, t, hadmits, rfl, hreach⟩ := h.cases
  · unfold hueOfSrgb
    dsimp only
    rw [hlargest, hsmallest, rational_sub, zero_eq, if_pos (by rw [rational_beq_iff]; ring)]
    exact congrArg rational (zero_mul _)
  · rw [ofHue_hue hadmits, hueOfSrgb_place hadmits (by linarith) (by ring)]

/-- Every colour has its place on the wheel. -/
theorem exists_eq_ofHue (c : Triple ℚ) :
    ∃ hue middle reach, IsPlace hue reach ∧ c = ofHue hue middle reach := by
  -- A gray has no reach, and any hue would do.
  by_cases hgray : IsGray c
  · obtain ⟨red, green, blue⟩ := c
    rw [IsGray] at hgray
    dsimp only at hgray
    obtain ⟨rfl, rfl⟩ := hgray
    exact ⟨0, _, 0, ⟨le_rfl, by norm_num, le_rfl, fun _ => rfl⟩, (ofHue_zero 0 _).symm⟩
  · obtain ⟨sector, largest, between, smallest, hsmallest, hlargest, hspread, hlast, rfl⟩ :=
      exists_eq_place hgray
    -- Any other colour lies in a sector, at some part of the way of its third component.
    obtain ⟨t, hadmits, hbetween⟩ := exists_part hsmallest hlargest hspread hlast
    obtain ⟨hlow, hhigh⟩ := hadmits.hue_in_turn
    refine ⟨sector.hue t, (largest + smallest) / 2, (largest - smallest) / 2,
      isPlace_of_pos hlow hhigh (by linarith), ?_⟩
    rw [ofHue_hue hadmits, hbetween]
    congr 1 <;> ring

/-- Only grays do not reach away from the middle. -/
theorem isGray_ofHue_iff (middle : ℚ) (h : IsPlace hue reach) :
    IsGray (ofHue hue middle reach) ↔ reach = 0 := by
  constructor
  · intro hgray
    have hlargest := largestOf_ofHue middle h
    have hsmallest := smallestOf_ofHue middle h
    rw [largestOf_rational, rational.injEq] at hlargest
    rw [smallestOf_rational, rational.injEq] at hsmallest
    -- All components of a gray are the largest and the smallest one.
    obtain ⟨hfirst, hsecond⟩ := hgray
    rw [hfirst, hsecond, max_self, max_self] at hlargest
    rw [hfirst, hsecond, min_self, min_self] at hsmallest
    linarith
  · rintro rfl
    rw [ofHue_zero]
    exact ⟨rfl, rfl⟩

end Place

end CssColor.Cylinder
