import CssColor.Proofs.Color.Range
import Mathlib.Tactic.LinearCombination

/-!
# The way between two hues

`HueArc.adjust` raises at most one of two hues by a full turn. What then lies between them is the
way that the arc prescribes (`HueArc.Admits`): at most half a turn, at least half a turn, upwards or
downwards. The hue of a mix is the point of that way that the weights give, brought back into one
turn (`Color.interpolate_hue_onArc`). Seen from its other end a way is the same one, with upwards
and downwards exchanged (`HueArc.adjust_reversed`); only the longer way between equal hues, a full
turn, depends on the end that it starts from.
-/

namespace CssColor

open Extended

namespace HueArc

variable {first second start stop : ℚ}

/-! ## Ways -/

/-- The ways from one hue to another, in degrees, that an arc admits. -/
def Admits : HueArc → ℚ → Prop
  | shorter, way => |way| ≤ 180
  | longer, way => 180 ≤ |way| ∧ |way| ≤ 360
  | increasing, way => 0 ≤ way ∧ way < 360
  | decreasing, way => -360 < way ∧ way ≤ 0

/-- The ends of a way between two hues: the hues themselves, or one of them raised by a full
turn. -/
inductive HasEnds (first second : ℚ) : ℚ → ℚ → Prop
  | unchanged : HasEnds first second first second
  | firstRaised : HasEnds first second (first + 360) second
  | secondRaised : HasEnds first second first (second + 360)

/-- The arc starts at the first hue, turns aside. -/
theorem HasEnds.modEq_start (h : HasEnds first second start stop) : start ≡ first [PMOD 360] := by
  cases h with
  | unchanged => rfl
  | firstRaised => exact AddCommGroup.modEq_iff_zsmul.2 ⟨-1, by simp⟩
  | secondRaised => rfl

/-- The arc stops at the second hue, turns aside. -/
theorem HasEnds.modEq_stop (h : HasEnds first second start stop) : stop ≡ second [PMOD 360] := by
  cases h with
  | unchanged => rfl
  | firstRaised => rfl
  | secondRaised => exact AddCommGroup.modEq_iff_zsmul.2 ⟨-1, by simp⟩

/-- What an arc does to two rational hues is a matter of rational comparisons. -/
theorem adjust_rational (arc : HueArc) (first second : ℚ) :
    arc.adjust (rational first) (rational second) =
      match arc with
      | shorter =>
        if 180 < second - first then (rational (first + 360), rational second)
        else if second - first < -180 then (rational first, rational (second + 360))
        else (rational first, rational second)
      | longer =>
        if 0 < second - first ∧ second - first < 180 then (rational (first + 360), rational second)
        else if -180 < second - first ∧ second - first ≤ 0 then
          (rational first, rational (second + 360))
        else (rational first, rational second)
      | increasing =>
        if second < first then (rational first, rational (second + 360))
        else (rational first, rational second)
      | decreasing =>
        if first < second then (rational (first + 360), rational second)
        else (rational first, rational second) := by
  cases arc <;>
    simp only [adjust, rational_sub, zero_eq, halfTurn_eq, fullTurn_eq, rational_neg, rational_add,
      rational_lt_iff, rational_le_iff]

/-- Two hues within one turn become the ends of a way that the arc admits. -/
theorem exists_adjust_eq (arc : HueArc) (hfirst : 0 ≤ first ∧ first < 360)
    (hsecond : 0 ≤ second ∧ second < 360) :
    ∃ start stop, arc.adjust (rational first) (rational second) = (rational start, rational stop) ∧
      HasEnds first second start stop ∧ arc.Admits (stop - start) := by
  rw [adjust_rational]
  cases arc with
  -- The way between the hues is shorter than a turn, so one of them is raised by a turn at most.
  | shorter =>
    simp only [Admits, abs_le]
    split_ifs with hup hdown
    · exact ⟨_, _, rfl, .firstRaised, by linarith, by linarith⟩
    · exact ⟨_, _, rfl, .secondRaised, by linarith, by linarith⟩
    · exact ⟨_, _, rfl, .unchanged, by linarith, by linarith⟩
  | longer =>
    simp only [Admits, le_abs, abs_le]
    split_ifs with hup hdown
    · exact ⟨_, _, rfl, .firstRaised, by right; linarith, by linarith, by linarith⟩
    · exact ⟨_, _, rfl, .secondRaised, by left; linarith, by linarith, by linarith⟩
    · refine ⟨_, _, rfl, .unchanged, ?_, by linarith, by linarith⟩
      rcases le_or_gt (second - first) 0 with hle | hgt
      · right
        by_contra hlt
        exact hdown ⟨by linarith, hle⟩
      · left
        by_contra hlt
        exact hup ⟨hgt, by linarith⟩
  | increasing =>
    simp only [Admits]
    split_ifs with hlt
    · exact ⟨_, _, rfl, .secondRaised, by linarith, by linarith⟩
    · exact ⟨_, _, rfl, .unchanged, by linarith, by linarith⟩
  | decreasing =>
    simp only [Admits]
    split_ifs with hlt
    · exact ⟨_, _, rfl, .firstRaised, by linarith, by linarith⟩
    · exact ⟨_, _, rfl, .unchanged, by linarith, by linarith⟩

/-- Between equal hues the longer way is a full turn, and all others are none. -/
theorem adjust_self (arc : HueArc) (hue : ℚ) : arc.adjust (rational hue) (rational hue) =
    (rational hue, rational (hue + if arc = longer then 360 else 0)) := by
  rw [adjust_rational]
  cases arc with
  | shorter =>
    rw [sub_self, if_neg (by norm_num), if_neg (by norm_num)]
    simp
  | longer => norm_num
  | increasing => simp
  | decreasing => simp

/-! ## The other end -/

/-- The arc as it is seen from its other end. -/
def reversed : HueArc → HueArc
  | shorter => shorter
  | longer => longer
  | increasing => decreasing
  | decreasing => increasing

/-- Two hues are adjusted in the same way from both ends, unless the way is a full turn. -/
theorem adjust_reversed (arc : HueArc) (x y : Extended) (h : arc = longer → x ≠ y) :
    arc.reversed.adjust y x = (arc.adjust x y).swap := by
  cases x with
  | nan => cases arc <;> cases y <;> rfl
  | infinite s =>
    cases y with
    | nan => cases arc <;> rfl
    | infinite t => cases arc <;> cases s <;> cases t <;> rfl
    | rational b => cases arc <;> cases s <;> rfl
  | rational a =>
    cases y with
    | nan => cases arc <;> rfl
    | infinite t => cases arc <;> cases t <;> rfl
    | rational b =>
      -- The tests are the same ones from both ends, on differences of opposite sign.
      rw [adjust_rational, adjust_rational]
      cases arc with
      | shorter =>
        dsimp only [reversed]
        grind
      | longer =>
        have hne : a ≠ b := fun heq => h rfl (congrArg rational heq)
        dsimp only [reversed]
        grind
      | increasing =>
        dsimp only [reversed]
        split_ifs <;> rfl
      | decreasing =>
        dsimp only [reversed]
        split_ifs <;> rfl

end HueArc

/-! ## Mixed hues -/

namespace Cylinder

/-- A hue is brought into one turn by whole turns. -/
theorem toIcoMod_modEq (hue : ℚ) : toIcoMod fullTurn_pos 0 hue ≡ hue [PMOD 360] :=
  AddCommGroup.modEq_iff_zsmul.2 ⟨_, (self_sub_toIcoMod fullTurn_pos 0 hue).symm⟩

/-- A hue that lies whole turns away from one within the first turn is brought there. -/
theorem toIcoMod_eq_of_modEq {turned hue : ℚ} (hhue : 0 ≤ hue ∧ hue < 360)
    (h : turned ≡ hue [PMOD 360]) : toIcoMod fullTurn_pos 0 turned = hue := by
  rw [h.toIcoMod_eq_toIcoMod fullTurn_pos, toIcoMod_eq_self, zero_add]
  exact hhue

end Cylinder

namespace Color

variable {arc : HueArc} {first second : Color Extended} {index : Index} {a b start stop p q : ℚ}

/-- Between two values that both sides have there is nothing to take over. -/
theorem borrow_eq_some_iff {x y : Option Extended} {u v : Extended} :
    borrow x y = some (u, v) ↔ x.or y = some u ∧ y.or x = some v := by
  cases x <;> cases y <;> simp [borrow]

/-- A component of a mix, by the values that both sides have there. -/
theorem get_interpolate (weights : Weights Extended) {u v : Extended}
    (h : borrow (first.components.get index) (second.components.get index) = some (u, v)) :
    (interpolate first second weights arc).components.get index =
      some (interpolateComponent (first.space.hueIndex? == some index) weights arc
        ((borrow first.alpha second.alpha).getD (1.0, 1.0))
        ((interpolate first second weights arc).alpha.getD 1.0) u v) := by
  unfold interpolate
  dsimp only
  rw [Triple.get_ofFn, h, Option.map_some]

/-- A component that both sides miss is missing in their mix. -/
theorem get_interpolate_of_none (weights : Weights Extended)
    (h : borrow (first.components.get index) (second.components.get index) = none) :
    (interpolate first second weights arc).components.get index = none := by
  unfold interpolate
  dsimp only
  rw [Triple.get_ofFn, h, Option.map_none]

/-- The hue of a mix is the point of the way between the hues that the weights give. -/
theorem interpolateComponent_hue (alphas : Extended × Extended) (alpha : Extended)
    (hsum : p + q = 1)
    (hadjust : arc.adjust (rational a) (rational b) = (rational start, rational stop)) :
    interpolateComponent true ⟨rational p, rational q⟩ arc alphas alpha (rational a) (rational b) =
      rational (toIcoMod fullTurn_pos 0 (start + q * (stop - start))) := by
  have hpoint : start * p + stop * q = start + q * (stop - start) := by
    linear_combination start * hsum
  unfold interpolateComponent Weights.mean
  rw [if_pos rfl, hadjust]
  dsimp only
  rw [rational_mul, rational_mul, rational_add, hpoint, Cylinder.normalizeHue_rational]

/-- The hue of a mix is brought into one turn. -/
theorem get_interpolate_hue (hsum : p + q = 1) (hindex : first.space.hueIndex? = some index)
    (hborrow : borrow (first.components.get index) (second.components.get index) =
      some (rational a, rational b))
    (hadjust : arc.adjust (rational a) (rational b) = (rational start, rational stop)) :
    (interpolate first second ⟨rational p, rational q⟩ arc).components.get index =
      some (rational (toIcoMod fullTurn_pos 0 (start + q * (stop - start)))) := by
  rw [get_interpolate _ hborrow, hindex, beq_self_eq_true,
    interpolateComponent_hue _ _ hsum hadjust]

/-- Two hues are adjusted to the ends of a way that the arc admits, and the hue of a mix is the
point of that way that the weights give, brought back into one turn. -/
theorem interpolate_hue_onArc (arc : HueArc) (ha : 0 ≤ a ∧ a < 360) (hb : 0 ≤ b ∧ b < 360) :
    ∃ start stop : ℚ,
      arc.adjust (rational a) (rational b) = (rational start, rational stop) ∧
      HueArc.HasEnds a b start stop ∧ arc.Admits (stop - start) ∧
      ∀ {first second : Color Extended} {index : Index} {p q : ℚ},
        first.space.hueIndex? = some index →
        first.components.get index = some (rational a) →
        second.components.get index = some (rational b) → 0 ≤ p → 0 ≤ q → p + q = 1 →
        ∃ hue : ℚ, (interpolate first second ⟨rational p, rational q⟩ arc).components.get index =
            some (rational hue) ∧
          0 ≤ hue ∧ hue < 360 ∧ hue ≡ a + q * (stop - start) [PMOD 360] := by
  obtain ⟨start, stop, hadjust, hends, hadmits⟩ := arc.exists_adjust_eq ha hb
  refine ⟨start, stop, hadjust, hends, hadmits, ?_⟩
  intro first second index p q hindex hfirst hsecond _ _ hsum
  have hborrow : borrow (first.components.get index) (second.components.get index) =
      some (rational a, rational b) := by
    rw [hfirst, hsecond]
    rfl
  -- The mixed hue is reduced to one turn, which changes it by whole turns.
  have hmem := toIcoMod_mem_Ico' fullTurn_pos (start + q * (stop - start))
  refine ⟨_, get_interpolate_hue hsum hindex hborrow hadjust, hmem.1, hmem.2, ?_⟩
  calc toIcoMod fullTurn_pos 0 (start + q * (stop - start))
      ≡ start + q * (stop - start) [PMOD 360] := Cylinder.toIcoMod_modEq _
    _ ≡ a + q * (stop - start) [PMOD 360] := hends.modEq_start.add_right _

/-- An opaque colour of LCh, of some hue or of none. -/
def lchOfHue (hue : Option ℚ) : Color Extended :=
  ⟨.lch, ⟨some (rational 50), some (rational 10), hue.map rational⟩, some (rational 1)⟩

/-- A colour of LCh is in range if its hue lies in a turn. -/
theorem inRange_lchOfHue {hue : Option ℚ} (h : ∀ a ∈ hue, 0 ≤ a ∧ a < 360) :
    (lchOfHue hue).InRange := by
  refine inRange_of_rationals ?_ ?_ ?_
  · intro index x hx
    cases index with
    | first =>
      cases hx
      rfl
    | second =>
      cases hx
      rfl
    | third =>
      obtain ⟨a, -, rfl⟩ := Option.map_eq_some_iff.1 hx
      rfl
  · rintro _ ⟨⟩
    exact ⟨1, rfl, zero_le_one, le_rfl⟩
  · rintro _ ⟨⟩ x hx
    obtain ⟨a, ha, rfl⟩ := Option.map_eq_some_iff.1 hx
    exact ⟨a, rfl, h a ha⟩

/-- Three quarters of the shorter way from 350 degrees to 30 degrees, which passes zero. -/
theorem interpolate_hue_onArc_pastZero :
    (0 ≤ (350 : ℚ) ∧ (350 : ℚ) < 360) ∧ (0 ≤ (30 : ℚ) ∧ (30 : ℚ) < 360) ∧
      HueArc.shorter.adjust (rational 350) (rational 30) = (rational 350, rational 390) ∧
      ∃ hue : ℚ, (interpolate (lchOfHue (some 350)) (lchOfHue (some 30))
          ⟨rational (1 / 4), rational (3 / 4)⟩ .shorter).components.get .third =
            some (rational hue) ∧
        0 ≤ hue ∧ hue < 360 ∧ hue ≡ 350 + 3 / 4 * 40 [PMOD 360] := by
  have ha : (0 : ℚ) ≤ 350 ∧ (350 : ℚ) < 360 := by norm_num
  have hb : (0 : ℚ) ≤ 30 ∧ (30 : ℚ) < 360 := by norm_num
  have hends : HueArc.shorter.adjust (rational 350) (rational 30) =
      (rational 350, rational 390) := by decide +kernel
  -- The arc over zero ends at the second hue with a turn added to it.
  obtain ⟨start, stop, hadjust, -, -, hmix⟩ := interpolate_hue_onArc .shorter ha hb
  obtain ⟨rfl, rfl⟩ : 350 = start ∧ 390 = stop := by
    rw [hends] at hadjust
    cases hadjust
    exact ⟨rfl, rfl⟩
  obtain ⟨hue, hhue, hlow, hhigh, hmod⟩ := @hmix (lchOfHue (some 350)) (lchOfHue (some 30))
    .third (1 / 4) (3 / 4) rfl rfl rfl (by norm_num) (by norm_num) (by norm_num)
  refine ⟨ha, hb, hends, hue, hhue, hlow, hhigh, ?_⟩
  rwa [show (390 : ℚ) - 350 = 40 by norm_num] at hmod

end Color

end CssColor
