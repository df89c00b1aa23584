import CssColor.Proofs.Color.HueArc
import CssColor.Value.Resolve

/-!
# Mixes do not depend on the order of their colours

A mix stays the same when its two colours change places together with their percentages, and an
upward arc becomes a downward one (`ColorValue.resolveWith_mix_swap`). Every step of a mix is
symmetric on its own: the percentages are completed and normalized from both sides in the same way
(`Weights.ofPercentages?_swap`), missing values are borrowed either way, and the hues are adjusted
to the same ends (`HueArc.adjust_reversed`). The longer arc between equal hues is left out: it is a
full turn upwards from whichever hue comes first.
-/

namespace CssColor

open Extended

/-! ## Weights -/

/-- Numbers may be added in either order. -/
theorem Extended.add_swap (x y : Extended) : x + y = y + x := by
  cases x with
  | nan => cases y <;> rfl
  | infinite s =>
    cases y with
    | nan => rfl
    | infinite t => cases s <;> cases t <;> rfl
    | rational b => rfl
  | rational a =>
    cases y with
    | nan => rfl
    | infinite t => rfl
    | rational b => rw [rational_add, rational_add, add_comm]

namespace Weights

/-- The shares of the same colours in the other order. -/
def swap {K : Type} (weights : Weights K) : Weights K := ⟨weights.second, weights.first⟩

/-- The mean of two numbers, the other way round. -/
theorem mean_swap (weights : Weights Extended) (x y : Extended) :
    weights.swap.mean y x = weights.mean x y := add_swap _ _

/-- Percentages are completed from both sides in the same way. -/
theorem completed_swap (firstShare secondShare : Option Extended) :
    completed secondShare firstShare = (completed firstShare secondShare).swap := by
  cases firstShare <;> cases secondShare <;> rfl

/-- Percentages in the other order give the same weights in the other order. -/
theorem ofPercentages?_swap (firstShare secondShare : Option Extended) :
    ofPercentages? secondShare firstShare =
      (ofPercentages? firstShare secondShare).map fun (weights, factor) =>
        (weights.swap, factor) := by
  unfold ofPercentages?
  rw [completed_swap firstShare secondShare]
  obtain ⟨first, second⟩ := completed firstShare secondShare
  dsimp only [Prod.swap]
  rw [add_swap second first]
  split <;> rfl

end Weights

/-! ## Components -/

namespace Color

variable {first second : Color Extended} {arc : HueArc}

/-- A missing part is borrowed from either side. -/
theorem borrow_swap (x y : Option Extended) : borrow y x = (borrow x y).map Prod.swap := by
  cases x <;> cases y <;> rfl

/-- Two components give the same one in either order. -/
theorem interpolateComponent_swap {isHue : Bool} (weights : Weights Extended)
    (alphas : Extended × Extended) (alpha x y : Extended)
    (h : isHue = true → arc = .longer → x ≠ y) :
    interpolateComponent isHue weights.swap arc.reversed alphas.swap alpha y x =
      interpolateComponent isHue weights arc alphas alpha x y := by
  unfold interpolateComponent
  cases isHue with
  | true =>
    rw [if_pos rfl, if_pos rfl, arc.adjust_reversed x y (h rfl)]
    dsimp only [Prod.swap]
    rw [Weights.mean_swap]
  | false =>
    simp only [Bool.false_eq_true, if_false, Weights.mean_swap, Prod.fst_swap, Prod.snd_swap]

/-- The hues that two colours of one space are mixed with are different ones. A missing hue is that
of the other colour, and so is not. -/
def HuesDiffer (first second : Color Extended) : Prop :=
  ∀ index ∈ first.space.hueIndex?,
    ∀ hue ∈ (first.components.get index).or (second.components.get index),
    ∀ other ∈ (second.components.get index).or (first.components.get index), hue ≠ other

/-- Two colours of one space give the same mix in either order. -/
theorem interpolate_swap (weights : Weights Extended) (hspace : first.space = second.space)
    (h : arc = .longer → HuesDiffer first second) :
    interpolate second first weights.swap arc.reversed = interpolate first second weights arc := by
  unfold interpolate
  dsimp only
  rw [borrow_swap first.alpha second.alpha, ← hspace]
  generalize borrow first.alpha second.alpha = alphas
  -- The means of the two alphas agree, as the weights change places with them.
  have halpha : ((alphas.map Prod.swap).map fun (x, y) => weights.swap.mean x y) =
      alphas.map fun (x, y) => weights.mean x y := by
    rw [Option.map_map]
    congr 1
    funext ⟨x, y⟩
    exact weights.mean_swap x y
  have halphas : (alphas.map Prod.swap).getD (1.0, 1.0) = (alphas.getD (1.0, 1.0)).swap := by
    cases alphas <;> rfl
  rw [halpha, halphas, Color.mk.injEq]
  refine ⟨rfl, congrArg Triple.ofFn (funext fun index => ?_), rfl⟩
  rw [borrow_swap (first.components.get index) (second.components.get index)]
  cases hborrow : borrow (first.components.get index) (second.components.get index) with
  | none => rfl
  | some pair =>
    obtain ⟨x, y⟩ := pair
    obtain ⟨hx, hy⟩ := borrow_eq_some_iff.1 hborrow
    -- Only the longer arc depends on the order, and only between equal hues.
    refine congrArg some (interpolateComponent_swap weights _ _ x y fun hhue hlonger => ?_)
    exact h hlonger index (beq_iff_eq.1 hhue) x hx y hy

end Color

/-! ## Values -/

section Values

variable [Elementary Extended]

/-- The mix of two resolved colours is the same in either order. -/
theorem Resolved.ofMix?_swap {space : Space} {arc : Option HueArc}
    {first second : Resolved Extended} (firstShare secondShare : Option Extended)
    (h : arc = some .longer →
      (first.color.toSpaceForMixing space).HuesDiffer (second.color.toSpaceForMixing space)) :
    ofMix? space (arc.map HueArc.reversed) second secondShare first firstShare =
      ofMix? space arc first firstShare second secondShare := by
  have harc : (arc.map HueArc.reversed).getD .shorter = (arc.getD .shorter).reversed := by
    cases arc <;> rfl
  -- Without a method the shorter arc is taken.
  have hlonger : arc.getD .shorter = .longer → arc = some .longer := by
    cases arc with
    | none => rintro ⟨⟩
    | some arc => exact congrArg some
  have hmix (weights : Weights Extended) := Color.interpolate_swap weights
    (Color.toSpaceForMixing_space.trans Color.toSpaceForMixing_space.symm) (h ∘ hlonger)
  unfold ofMix?
  rw [Weights.ofPercentages?_swap firstShare secondShare, harc, Bool.and_comm second.isLegacy]
  cases Weights.ofPercentages? firstShare secondShare with
  | none => rfl
  | some result =>
    obtain ⟨weights, factor⟩ := result
    simp only [Option.map_some, Option.bind_eq_bind, Option.bind_some, hmix]

namespace ColorValue

/-- A mix is the same in either order of its two colours with their percentages, and fails in both
or in none, in every context. The longer arc is the same only where the hues that it lies between
are different ones. -/
theorem resolveWith_mix_swap {current : ℕ → Option (Resolved Extended)}
    {dimensions : Lookup Extended} {levels : ℕ} (space : Space) (arc : Option HueArc)
    (first second : ColorValue Extended) (firstShare secondShare : Option Extended)
    (h : arc = some .longer → ∀ {inner a b}, levels = inner + 1 →
      resolveWith current dimensions inner first = some a →
      resolveWith current dimensions inner second = some b →
      (a.color.toSpaceForMixing space).HuesDiffer (b.color.toSpaceForMixing space)) :
    resolveWith current dimensions levels
        (mix space (arc.map HueArc.reversed) second secondShare first firstShare) =
      resolveWith current dimensions levels
        (mix space arc first firstShare second secondShare) := by
  cases levels with
  | zero => rw [resolveWith, resolveWith]
  | succ inner =>
    rw [resolveWith, resolveWith]
    -- Either ingredient may fail, and then the mix fails in both orders.
    cases hfirst : resolveWith current dimensions inner first with
    | none => cases resolveWith current dimensions inner second <;> rfl
    | some a =>
      cases hsecond : resolveWith current dimensions inner second with
      | none => rfl
      | some b =>
        exact Resolved.ofMix?_swap firstShare secondShare fun hlonger =>
          h hlonger rfl hfirst hsecond

end ColorValue

end Values

namespace ColorValue

/-- The color function `lch(50 10 hue)`. -/
def lchFunction (hue : ℚ) : ColorValue Extended :=
  .function .lch ⟨⟨.number (rational 50), .number (rational 10), .number (rational hue)⟩, none⟩

/-- The longer arc between different hues, which passes zero, from both of its ends. It needs no
powers, roots or angles. -/
theorem resolveWith_mix_swap_longer :
    let _ : Elementary Extended := ⟨fun _ _ => .nan, fun _ => .nan, fun _ _ => .nan,
      fun _ _ => .nan, fun _ => .nan, fun _ => .nan⟩
    let resolve := resolveWith (fun _ => none) (.empty : Lookup Extended)
    resolve 0 (lchFunction 10) = some ⟨Color.lchOfHue (some 10), false⟩ ∧
      resolve 0 (lchFunction 20) = some ⟨Color.lchOfHue (some 20), false⟩ ∧
      (Color.lchOfHue (some 10)).HuesDiffer (Color.lchOfHue (some 20)) ∧
      resolve 1 (mix .lch (some .longer) (lchFunction 20) (some (rational 25)) (lchFunction 10)
        none) = resolve 1 (mix .lch (some .longer) (lchFunction 10) none (lchFunction 20)
          (some (rational 25))) ∧
      resolve 1 (mix .lch (some .longer) (lchFunction 10) none (lchFunction 20)
        (some (rational 25))) = some ⟨Color.lchOfHue (some 282.5), false⟩ := by
  intro _ resolve
  have hfirst : resolve 0 (lchFunction 10) = some ⟨Color.lchOfHue (some 10), false⟩ := by
    decide +kernel
  have hsecond : resolve 0 (lchFunction 20) = some ⟨Color.lchOfHue (some 20), false⟩ := by
    decide +kernel
  have hdiffer : (Color.lchOfHue (some 10)).HuesDiffer (Color.lchOfHue (some 20)) := by
    rintro _ ⟨⟩ _ ⟨⟩ _ ⟨⟩
    decide
  refine ⟨hfirst, hsecond, hdiffer, resolveWith_mix_swap .lch (some .longer) _ _ _ _ ?_,
    by decide +kernel⟩
  rintro - inner a b ⟨⟩ ha hb
  cases hfirst.symm.trans ha
  cases hsecond.symm.trans hb
  exact hdiffer

end ColorValue

end CssColor
