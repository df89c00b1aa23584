import CssColor.Color.Basic
import CssColor.Color.HueArc

/-!
# Mixing colours

Two colours of one space are mixed with premultiplied alpha (`Color.interpolate`). The percentages
of a mix become weights that add up to one, and a factor for the alpha (`Weights.ofPercentages?`).
-/

namespace CssColor

/-- The shares of two colours in a mix. They are both kept, since computing one from the other loses
precision. -/
structure Weights (K : Type) where
  first : K
  second : K

namespace Weights

variable {K : Type} [Number K]

/-- The percentages of both colours, where one or both may be left out. -/
def completed : Option K → Option K → K × K
  | none, none => (50.0, 50.0)
  | some first, none => (first, 100.0 - first)
  | none, some second => (100.0 - second, second)
  | some first, some second => (first, second)

/-- The weights of two colours and the factor for the alpha of their mix; none if the percentages
add up to zero. -/
def ofPercentages? (first second : Option K) : Option (Weights K × K) :=
  let (first, second) := completed first second
  let sum := first + second
  if sum == 0.0 then none
  else some (⟨first / sum, second / sum⟩, if sum < 100.0 then sum / 100.0 else 1.0)

/-- The weighted mean of two numbers. -/
def mean (weights : Weights K) (a b : K) : K := a * weights.first + b * weights.second

end Weights

namespace Color

variable {K : Type}

/-- Two values where a missing one is that of the other side; none if both are missing. -/
def borrow : Option K → Option K → Option (K × K)
  | some a, some b => some (a, b)
  | some a, none => some (a, a)
  | none, some b => some (b, b)
  | none, none => none

variable [Scalar K]

/-- The mix of two components at an index, for alphas `alphas` of the colours and `alpha` of the
mix. -/
def interpolateComponent (isHue : Bool) (weights : Weights K) (arc : HueArc) (alphas : K × K)
    (alpha : K) (a b : K) : K :=
  if isHue then
    let (a, b) := arc.adjust a b
    Cylinder.normalizeHue (weights.mean a b)
  else if alpha == 0.0 then weights.mean a b
  else weights.mean (a * alphas.1) (b * alphas.2) / alpha

/-- The mix of two colours of one space. A component that is missing in one of them is that of the
other. -/
def interpolate (first second : Color K) (weights : Weights K) (arc : HueArc) : Color K :=
  let alphas := borrow first.alpha second.alpha
  let alpha := alphas.map fun (a, b) => weights.mean a b
  { space := first.space
    components := .ofFn fun index =>
      (borrow (first.components.get index) (second.components.get index)).map fun (a, b) =>
        interpolateComponent (first.space.hueIndex? == some index) weights arc
          (alphas.getD (1.0, 1.0)) (alpha.getD 1.0) a b
    alpha }

end Color

end CssColor
