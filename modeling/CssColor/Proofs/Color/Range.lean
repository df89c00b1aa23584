import CssColor.Color.Mixing
import CssColor.Proofs.Number.Extended

/-!
# The ranges of colours

A colour is in range if its components and its alpha are finite where they are not missing, its
alpha lies between zero and one, and its hue within one turn (`Color.InRange`). On exact numbers,
whatever powers, roots and angles come out at, colours are brought into range by finite components
(`Color.toSpace`), and mixing keeps them there.
-/

namespace CssColor

/-- The components and the alpha of a colour are missing or within their ranges. -/
structure Color.InRange {K : Type} [Scalar K] (color : Color K) : Prop where
  components_finite : ∀ {index value}, color.components.get index = some value →
    Scalar.isFinite value = true
  alpha_finite : ∀ {alpha}, color.alpha = some alpha → Scalar.isFinite alpha = true
  alpha_between : ∀ {alpha}, color.alpha = some alpha → 0.0 ≤ alpha ∧ alpha ≤ 1.0
  hue_in_turn : ∀ {index hue}, color.space.hueIndex? = some index →
    color.components.get index = some hue → 0.0 ≤ hue ∧ hue < 360.0

open Extended

/-! ## Hues -/

/-- The length of a turn, for taking hues modulo it. -/
theorem fullTurn_pos : (0 : ℚ) < 360 := by norm_num

/-- A hue within one turn. -/
def Extended.InTurn (x : Extended) : Prop := ∃ a, x = rational a ∧ 0 ≤ a ∧ a < 360

/-- A hue within one turn is finite. -/
theorem Extended.InTurn.isFinite {x : Extended} (h : InTurn x) : Scalar.isFinite x = true := by
  obtain ⟨a, rfl, -⟩ := h
  exact isFinite_rational

/-- A hue within one turn, in the comparisons of the numbers themselves. -/
theorem Extended.InTurn.le_and_lt {x : Extended} (h : InTurn x) : 0.0 ≤ x ∧ x < 360.0 := by
  obtain ⟨a, rfl, hlo, hhi⟩ := h
  rw [zero_eq, fullTurn_eq]
  exact ⟨rational_le_iff.2 hlo, rational_lt_iff.2 hhi⟩

/-- Zero is a hue. -/
theorem Extended.inTurn_zero : InTurn 0.0 := ⟨0, zero_eq, le_rfl, by norm_num⟩

/-- A rational hue is brought into one turn by whole turns. -/
theorem Cylinder.normalizeHue_rational (a : ℚ) :
    normalizeHue (rational a) = rational (toIcoMod fullTurn_pos 0 a) := by
  have hlt := (toIcoMod_mem_Ico' fullTurn_pos a).2
  unfold normalizeHue
  dsimp only
  rw [fullTurn_eq, modulo_rational fullTurn_pos,
    if_neg (by rw [rational_le_iff]; exact not_le.2 hlt)]

/-- A hue that is brought into one turn is there, unless it has no remainder. -/
theorem Cylinder.normalizeHue_eq_nan_or_inTurn (hue : Extended) :
    normalizeHue hue = nan ∨ InTurn (normalizeHue hue) := by
  cases hue with
  | nan => exact Or.inl rfl
  | infinite s => exact Or.inl rfl
  | rational a =>
    have hmem := toIcoMod_mem_Ico' fullTurn_pos a
    exact Or.inr ⟨_, normalizeHue_rational a, hmem.1, hmem.2⟩

/-- A hue without a remainder becomes zero with the finite numbers. -/
theorem Cylinder.inTurn_toFinite_normalizeHue (hue : Extended) :
    InTurn (Scalar.toFinite (normalizeHue hue)) := by
  rcases normalizeHue_eq_nan_or_inTurn hue with hnan | ⟨a, ha, hlo, hhi⟩
  · rw [hnan]
    exact inTurn_zero
  · -- A hue within one turn is far from the largest number.
    rw [ha, toFinite_rational (by linarith) hhi.le]
    exact ⟨a, rfl, hlo, hhi⟩

/-! ## Conversions -/

namespace Color

section AnyNumbers

variable {K : Type} [Scalar K] [Elementary K] {color : Color K} {space : Space}

/-- A colour is converted to the space that is asked for. -/
theorem toSpace_space : (color.toSpace space).space = space := by
  unfold toSpace
  split
  · next h => exact h
  · rfl

/-- The alpha of a colour is not converted. -/
theorem toSpace_alpha : (color.toSpace space).alpha = color.alpha := by
  unfold toSpace
  split <;> rfl

/-- A colour that is going to be mixed is converted to the space of the mix. -/
theorem toSpaceForMixing_space : (color.toSpaceForMixing space).space = space := by
  unfold toSpaceForMixing
  split
  · next h => exact h
  · exact toSpace_space

/-- Its alpha is not converted, either. -/
theorem toSpaceForMixing_alpha : (color.toSpaceForMixing space).alpha = color.alpha := by
  unfold toSpaceForMixing
  split
  · rfl
  · exact toSpace_alpha

end AnyNumbers

variable {color first second : Color Extended} {space : Space}

/-- The alpha of a colour in range is a rational between zero and one. -/
theorem InRange.between_alpha (h : color.InRange) : ∀ alpha ∈ color.alpha, Between 0 1 alpha := by
  intro alpha halpha
  rw [between_iff, ← zero_eq, ← one_eq]
  exact h.alpha_between halpha

/-- A colour is in range by the rationals that it is made of. -/
theorem inRange_of_rationals
    (hcomponents : ∀ index, ∀ x ∈ color.components.get index, Scalar.isFinite x = true)
    (halpha : ∀ alpha ∈ color.alpha, Between 0 1 alpha)
    (hhue : ∀ index ∈ color.space.hueIndex?, ∀ x ∈ color.components.get index, InTurn x) :
    color.InRange where
  components_finite h := hcomponents _ _ h
  alpha_finite h := (halpha _ h).isFinite
  alpha_between h := by
    rw [zero_eq, one_eq, ← between_iff]
    exact halpha _ h
  hue_in_turn hindex h := (hhue _ hindex _ h).le_and_lt

/-- The numbers of the colour are finite once the others are replaced. -/
theorem toFinite_components_finite (index : Index) :
    ∀ x ∈ color.toFinite.components.get index, Scalar.isFinite x = true := by
  intro x hx
  rw [get_toFinite] at hx
  obtain ⟨y, -, rfl⟩ := Option.map_eq_some_iff.1 hx
  exact isFinite_toFinite y

/-- An alpha in its range stays there. -/
theorem between_alpha_toFinite (h : ∀ alpha ∈ color.alpha, Between 0 1 alpha) :
    ∀ alpha ∈ color.toFinite.alpha, Between 0 1 alpha := by
  intro alpha halpha
  obtain ⟨x, hx, rfl⟩ := Option.map_eq_some_iff.1 halpha
  exact (h x hx).toFinite (by norm_num) (by norm_num)

variable [Elementary Extended]

/-- The components of a colour in another space are finite. -/
theorem toSpace_components_finite (h : color.space ≠ space) (index : Index) :
    ∀ x ∈ (color.toSpace space).components.get index, Scalar.isFinite x = true := by
  intro x hx
  unfold toSpace at hx
  rw [if_neg h] at hx
  dsimp only at hx
  rw [Triple.get_map] at hx
  obtain ⟨y, -, rfl⟩ := Option.map_eq_some_iff.1 hx
  exact isFinite_toFinite y

/-- A colour that is converted to a space without a hue is in range if its alpha is. -/
theorem inRange_toSpace (h : color.space ≠ space) (hspace : space.hueIndex? = none)
    (halpha : ∀ alpha ∈ color.alpha, Between 0 1 alpha) : (color.toSpace space).InRange := by
  refine inRange_of_rationals (toSpace_components_finite h) ?_ ?_
  · rwa [toSpace_alpha]
  · intro index hindex
    rw [toSpace_space, hspace] at hindex
    cases hindex

end Color

/-! ## Mixes -/

/-- Weights that are not negative and add up to one. -/
def Weights.AreConvex (weights : Weights Extended) : Prop :=
  ∃ first second : ℚ, weights = ⟨rational first, rational second⟩ ∧ 0 ≤ first ∧ 0 ≤ second ∧
    first + second = 1

namespace Weights

variable {firstShare secondShare : Option Extended} {weights : Weights Extended}
  {factor : Extended}

/-- The percentages of both colours are between 0% and 100% if those that are given are. -/
theorem between_completed (hfirst : ∀ share ∈ firstShare, Between 0 100 share)
    (hsecond : ∀ share ∈ secondShare, Between 0 100 share) :
    Between 0 100 (completed firstShare secondShare).1 ∧
      Between 0 100 (completed firstShare secondShare).2 := by
  have hother {share : Extended} (h : Between 0 100 share) : Between 0 100 (100.0 - share) := by
    obtain ⟨a, rfl, hlo, hhi⟩ := h
    rw [hundred_eq, rational_sub]
    exact ⟨100 - a, rfl, by linarith, by linarith⟩
  have hhalf : Between 0 100 50.0 := ⟨50, fifty_eq, by norm_num, by norm_num⟩
  -- A share that is given is kept, and a missing one is the rest to a hundred.
  cases firstShare with
  | none =>
    cases secondShare with
    | none => exact ⟨hhalf, hhalf⟩
    | some second => exact ⟨hother (hsecond second rfl), hsecond second rfl⟩
  | some first =>
    cases secondShare with
    | none => exact ⟨hfirst first rfl, hother (hfirst first rfl)⟩
    | some second => exact ⟨hfirst first rfl, hsecond second rfl⟩

/-- The weights and the factor that percentages give, as rationals. -/
theorem exists_ofPercentages?_eq (hfirst : ∀ share ∈ firstShare, Between 0 100 share)
    (hsecond : ∀ share ∈ secondShare, Between 0 100 share) :
    ∃ a b : ℚ, completed firstShare secondShare = (rational a, rational b) ∧ 0 ≤ a ∧ 0 ≤ b ∧
      ofPercentages? firstShare secondShare = if a + b = 0 then none else
        some (⟨rational (a / (a + b)), rational (b / (a + b))⟩,
          rational (if a + b < 100 then (a + b) / 100 else 1)) := by
  obtain ⟨⟨a, ha, hlo, -⟩, b, hb, hlo', -⟩ := between_completed hfirst hsecond
  refine ⟨a, b, Prod.ext ha hb, hlo, hlo', ?_⟩
  unfold ofPercentages?
  dsimp only
  rw [ha, hb, rational_add, zero_eq, hundred_eq, one_eq]
  -- Without any weight there is no mix, and otherwise the weights are scaled to one.
  by_cases hsum : a + b = 0
  · rw [if_pos hsum, if_pos (rational_beq_iff.2 hsum)]
  · rw [if_neg hsum, if_neg (mt rational_beq_iff.1 hsum), rational_div hsum, rational_div hsum,
      rational_div (by norm_num)]
    simp only [rational_lt_iff, apply_ite rational]

/-- Percentages give convex weights, and a positive factor for the alpha of at most one. -/
theorem exists_factor_of_ofPercentages? (hfirst : ∀ share ∈ firstShare, Between 0 100 share)
    (hsecond : ∀ share ∈ secondShare, Between 0 100 share)
    (h : ofPercentages? firstShare secondShare = some (weights, factor)) :
    weights.AreConvex ∧ ∃ x : ℚ, factor = rational x ∧ 0 < x ∧ x ≤ 1 := by
  obtain ⟨a, b, -, ha, hb, heq⟩ := exists_ofPercentages?_eq hfirst hsecond
  rw [heq] at h
  split at h
  · cases h
  · next hsum =>
    -- The percentages are not negative, so their sum is positive if it is not zero.
    have hpos : 0 < a + b := lt_of_le_of_ne (by linarith) (Ne.symm hsum)
    cases h
    refine ⟨⟨a / (a + b), b / (a + b), rfl, div_nonneg ha hpos.le, div_nonneg hb hpos.le,
      by rw [← add_div, div_self hsum]⟩, _, rfl, ?_⟩
    split
    · next hlt => exact ⟨div_pos hpos (by norm_num), by linarith⟩
    · exact ⟨zero_lt_one, le_rfl⟩

/-- Percentages give convex weights, and a factor for the alpha between zero and one. -/
theorem areConvex_of_ofPercentages? (hfirst : ∀ share ∈ firstShare, Between 0 100 share)
    (hsecond : ∀ share ∈ secondShare, Between 0 100 share)
    (h : ofPercentages? firstShare secondShare = some (weights, factor)) :
    weights.AreConvex ∧ Between 0 1 factor := by
  obtain ⟨hconvex, x, rfl, hpos, hle⟩ := exists_factor_of_ofPercentages? hfirst hsecond h
  exact ⟨hconvex, x, rfl, hpos.le, hle⟩

/-- A convex mean of numbers between zero and one. -/
theorem AreConvex.between_mean (h : weights.AreConvex) {x y : Extended} (hx : Between 0 1 x)
    (hy : Between 0 1 y) : Between 0 1 (weights.mean x y) := by
  obtain ⟨first, second, rfl, hfirst, hsecond, hsum⟩ := h
  obtain ⟨a, rfl, ha, ha'⟩ := hx
  obtain ⟨b, rfl, hb, hb'⟩ := hy
  unfold mean
  rw [rational_mul, rational_mul, rational_add]
  refine ⟨_, rfl, by positivity, ?_⟩
  calc a * first + b * second ≤ 1 * first + 1 * second :=
        add_le_add (mul_le_mul_of_nonneg_right ha' hfirst) (mul_le_mul_of_nonneg_right hb' hsecond)
    _ = 1 := by rw [one_mul, one_mul, hsum]

end Weights

/-- Products of numbers from zero to one lie between them, too. -/
theorem Extended.Between.mul_unit {x y : Extended} (hx : Between 0 1 x) (hy : Between 0 1 y) :
    Between 0 1 (x * y) := by
  obtain ⟨a, rfl, ha, ha'⟩ := hx
  obtain ⟨b, rfl, hb, hb'⟩ := hy
  exact ⟨a * b, rational_mul, mul_nonneg ha hb, mul_le_one₀ ha' hb hb'⟩

namespace Color

variable {color first second : Color Extended} {space : Space} {weights : Weights Extended}
  {arc : HueArc}

/-- A value that both sides have, if need be by taking over that of the other. -/
theorem borrow_eq_some {x y : Option Extended} {a b : Extended} (h : borrow x y = some (a, b))
    {P : Extended → Prop} (hx : ∀ value ∈ x, P value) (hy : ∀ value ∈ y, P value) : P a ∧ P b := by
  -- A part that is missing is taken from the other colour.
  cases x with
  | none =>
    cases y with
    | none => cases h
    | some _ =>
      cases h
      exact ⟨hy _ rfl, hy _ rfl⟩
  | some _ =>
    cases y with
    | none =>
      cases h
      exact ⟨hx _ rfl, hx _ rfl⟩
    | some _ =>
      cases h
      exact ⟨hx _ rfl, hy _ rfl⟩

/-- The alpha of a mix of colours in range. -/
theorem between_alpha_interpolate (hweights : weights.AreConvex)
    (hfirst : ∀ alpha ∈ first.alpha, Between 0 1 alpha)
    (hsecond : ∀ alpha ∈ second.alpha, Between 0 1 alpha) :
    ∀ alpha ∈ (interpolate first second weights arc).alpha, Between 0 1 alpha := by
  intro alpha halpha
  obtain ⟨⟨a, b⟩, hborrow, rfl⟩ := Option.map_eq_some_iff.1 halpha
  obtain ⟨ha, hb⟩ := borrow_eq_some hborrow hfirst hsecond
  exact hweights.between_mean ha hb

/-- The hue of a mix is brought into one turn. -/
theorem hue_interpolate {index : Index} {hue : Extended}
    (hindex : first.space.hueIndex? = some index)
    (hhue : (interpolate first second weights arc).components.get index = some hue) :
    ∃ x, hue = Cylinder.normalizeHue x := by
  unfold interpolate at hhue
  dsimp only at hhue
  rw [Triple.get_ofFn, Option.map_eq_some_iff] at hhue
  obtain ⟨⟨a, b⟩, -, rfl⟩ := hhue
  unfold interpolateComponent
  rw [hindex, if_pos (beq_self_eq_true (some index))]
  exact ⟨_, rfl⟩

end Color

end CssColor
