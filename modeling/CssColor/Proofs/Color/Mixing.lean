import CssColor.Proofs.Color.HueArc
import Mathlib.Tactic.FieldSimp
import Mathlib.Tactic.Positivity

/-!
# Mixes lie between their colours

The percentages of a mix fail only where both are zero, and otherwise are convex weights with a
factor that is positive. Under convex weights every component other than the hue, and the alpha, is
a mean of the two values, where a missing one counts as the other; premultiplied alpha scales the
weights, and they stay convex (`Color.exists_scaledWeights`). So a mix lies between its colours, is
missing only what both of them miss, and is one of them where that has all the weight
(`Color.interpolate_between`).

A value that one of the colours misses is taken over from the other one, and a mean of equal values
is that value. The hue is the one exception: the longer way between equal hues is a full turn, of
which a mix goes a part (`Color.interpolate_borrowed`).
-/

namespace CssColor

open Extended

/-! ## Percentages -/

namespace Weights

variable {firstShare secondShare : Option Extended}

/-- A percentage that is left out is what the other one leaves of 100%. -/
theorem add_completed {a b : ℚ} (hmissing : firstShare = none ∨ secondShare = none)
    (h : completed firstShare secondShare = (rational a, rational b)) : a + b = 100 := by
  -- A share that is missing is the rest to a hundred, and both are halves if both are.
  cases firstShare with
  | none =>
    cases secondShare with
    | none =>
      rw [completed, fifty_eq] at h
      cases h
      norm_num
    | some second =>
      rw [completed, Prod.mk.injEq, hundred_eq] at h
      obtain ⟨hother, rfl⟩ := h
      rw [rational_sub, rational.injEq] at hother
      linarith
  | some first =>
    obtain rfl : secondShare = none := hmissing.resolve_left (by simp)
    rw [completed, Prod.mk.injEq, hundred_eq] at h
    obtain ⟨rfl, hother⟩ := h
    rw [rational_sub, rational.injEq] at hother
    linarith

/-- Only two percentages of zero give no weights. -/
theorem ofPercentages?_eq_none_iff (hfirst : ∀ share ∈ firstShare, Between 0 100 share)
    (hsecond : ∀ share ∈ secondShare, Between 0 100 share) :
    ofPercentages? firstShare secondShare = none ↔
      firstShare = some 0.0 ∧ secondShare = some 0.0 := by
  obtain ⟨a, b, hcompleted, ha, hb, heq⟩ := exists_ofPercentages?_eq hfirst hsecond
  have hnone : ofPercentages? firstShare secondShare = none ↔ a + b = 0 := by
    rw [heq]
    split <;> simp [*]
  rw [hnone]
  constructor
  · -- Shares that were completed add up to a hundred, so both were given.
    intro hsum
    obtain ⟨rfl, rfl⟩ : a = 0 ∧ b = 0 := ⟨by linarith, by linarith⟩
    have hgiven : ¬ (firstShare = none ∨ secondShare = none) := by
      intro hmissing
      linarith [add_completed hmissing hcompleted]
    rw [not_or, ← ne_eq, ← ne_eq, Option.ne_none_iff_exists', Option.ne_none_iff_exists'] at hgiven
    obtain ⟨⟨first, rfl⟩, second, rfl⟩ := hgiven
    cases hcompleted
    rw [zero_eq]
    exact ⟨rfl, rfl⟩
  · rintro ⟨rfl, rfl⟩
    rw [completed, zero_eq] at hcompleted
    cases hcompleted
    norm_num

end Weights

/-! ## Means -/

/-- The mix of two values under weights: it is missing only where both are, and it is one of the
values where that has all the weight. -/
structure Weights.Mixes (weights : Weights Extended) (first second mixed : Option Extended) :
    Prop where
  eq_none_iff : mixed = none ↔ first = none ∧ second = none
  eq_first : weights.first = 1.0 → ∀ a ∈ first, mixed = some a
  eq_second : weights.second = 1.0 → ∀ b ∈ second, mixed = some b

/-- A value between two others, where a missing one counts as the other. -/
def LiesBetween (first second mixed : Option Extended) : Prop :=
  ∀ a ∈ first.or second, ∀ b ∈ second.or first, ∃ c ∈ mixed, a ≤ c ∧ c ≤ b ∨ b ≤ c ∧ c ≤ a

section Means

variable {x y : Option Extended} {p q u v a b c : ℚ}

/-- Two values are both missing, or both sides have one, if need be that of the other. -/
theorem Color.borrow_cases (hx : ∀ value ∈ x, Scalar.isFinite value = true)
    (hy : ∀ value ∈ y, Scalar.isFinite value = true) :
    borrow x y = none ∧ x = none ∧ y = none ∨
      ∃ a b : ℚ, borrow x y = some (rational a, rational b) := by
  -- Nothing is borrowed only where both parts are missing.
  cases hborrow : borrow x y with
  | none =>
    cases x with
    | none =>
      cases y with
      | none => exact .inl ⟨rfl, rfl, rfl⟩
      | some _ => cases hborrow
    | some _ => cases y <;> cases hborrow
  | some pair =>
    obtain ⟨ha, hb⟩ := borrow_eq_some hborrow hx hy
    obtain ⟨a, ha⟩ := isFinite_iff.1 ha
    obtain ⟨b, hb⟩ := isFinite_iff.1 hb
    exact .inr ⟨a, b, by rw [← ha, ← hb]⟩

/-- Two missing parts are mixed to a missing part. -/
theorem Weights.mixes_none : Mixes ⟨rational p, rational q⟩ none none none :=
  ⟨by simp, by simp, by simp⟩

/-- A missing part lies between missing parts. -/
theorem liesBetween_none : LiesBetween none none none := by
  rintro _ ⟨⟩

/-- A mix of two values that is one of them where that has all the weight. -/
theorem Weights.mixes_of_borrow (hborrow : Color.borrow x y = some (rational a, rational b))
    (hfirst : p = 1 → c = a) (hsecond : q = 1 → c = b) :
    Mixes ⟨rational p, rational q⟩ x y (some (rational c)) := by
  rw [Color.borrow_eq_some_iff] at hborrow
  obtain ⟨ha, hb⟩ := hborrow
  -- A mix of two parts is there, and it is one of them where that has the full weight.
  refine ⟨?_, ?_, ?_⟩
  · constructor
    · intro h
      cases h
    · rintro ⟨rfl, rfl⟩
      cases ha
  · rintro hp value rfl
    rw [one_eq, rational.injEq] at hp
    rw [hfirst hp, ← ha, Option.some_or]
  · rintro hq value rfl
    rw [one_eq, rational.injEq] at hq
    rw [hsecond hq, ← hb, Option.some_or]

/-- A mean under weights that have all where the weights of the mix have all. -/
theorem Weights.mixes_of_mean (hborrow : Color.borrow x y = some (rational a, rational b))
    (hsum : u + v = 1) (hfirst : p = 1 → u = 1) (hsecond : q = 1 → v = 1) :
    Mixes ⟨rational p, rational q⟩ x y (some (rational (a * u + b * v))) := by
  refine mixes_of_borrow hborrow (fun hp => ?_) fun hq => ?_
  · obtain rfl : u = 1 := hfirst hp
    obtain rfl : v = 0 := by linarith
    rw [mul_one, mul_zero, add_zero]
  · obtain rfl : v = 1 := hsecond hq
    obtain rfl : u = 0 := by linarith
    rw [mul_one, mul_zero, zero_add]

/-- A convex mean of two numbers lies between them. -/
theorem liesBetween_of_borrow (hborrow : Color.borrow x y = some (rational a, rational b))
    (hu : 0 ≤ u) (hv : 0 ≤ v) (hsum : u + v = 1) :
    LiesBetween x y (some (rational (a * u + b * v))) := by
  rw [Color.borrow_eq_some_iff] at hborrow
  obtain ⟨ha, hb⟩ := hborrow
  -- The mean is a way from either of the two, in the direction of the other one.
  have hfirst : a * u + b * v = a + v * (b - a) := by linear_combination a * hsum
  have hsecond : a * u + b * v = b - u * (b - a) := by linear_combination b * hsum
  rw [LiesBetween, ha, hb]
  rintro _ ⟨⟩ _ ⟨⟩
  refine ⟨_, rfl, ?_⟩
  simp only [rational_le_iff]
  rcases le_total a b with hle | hge
  · have hway : 0 ≤ b - a := by linarith
    left
    exact ⟨by nlinarith, by nlinarith⟩
  · have hway : b - a ≤ 0 := by linarith
    right
    exact ⟨by nlinarith, by nlinarith⟩

end Means

namespace Color

variable {arc : HueArc} {first second : Color Extended} {index : Index} {p q s t : ℚ}

/-! ## Components -/

/-- The alphas scale the weights of all components but the hue, and these stay convex. -/
theorem exists_scaledWeights (arc : HueArc) (hp : 0 ≤ p) (hq : 0 ≤ q) (hsum : p + q = 1)
    (hs : 0 ≤ s) (ht : 0 ≤ t) :
    ∃ u v : ℚ, 0 ≤ u ∧ 0 ≤ v ∧ u + v = 1 ∧ (p = 1 → u = 1) ∧ (q = 1 → v = 1) ∧ ∀ a b : ℚ,
      interpolateComponent false ⟨rational p, rational q⟩ arc (rational s, rational t)
        (rational (s * p + t * q)) (rational a) (rational b) = rational (a * u + b * v) := by
  unfold interpolateComponent Weights.mean
  simp only [Bool.false_eq_true, if_false, zero_eq, rational_beq_iff, rational_mul, rational_add]
  by_cases halpha : s * p + t * q = 0
  · -- A mix without any alpha is not scaled.
    refine ⟨p, q, hp, hq, hsum, id, id, fun a b => ?_⟩
    rw [if_pos halpha]
  · have hpos : 0 < s * p + t * q := lt_of_le_of_ne (by positivity) (Ne.symm halpha)
    refine ⟨s * p / (s * p + t * q), t * q / (s * p + t * q), by positivity, by positivity,
      by rw [← add_div, div_self halpha], ?_, ?_, fun a b => ?_⟩
    · rintro rfl
      obtain rfl : q = 0 := by linarith
      rw [mul_zero, add_zero] at halpha ⊢
      exact div_self halpha
    · rintro rfl
      obtain rfl : p = 0 := by linarith
      rw [mul_zero, zero_add] at halpha ⊢
      exact div_self halpha
    · rw [if_neg halpha, rational_div halpha]
      congr 1
      field_simp

/-- The alphas that two colours are mixed with, which are one where both are missing, and the alpha
of their mix. -/
theorem exists_alphas (arc : HueArc) (hfirst : first.InRange) (hsecond : second.InRange)
    (hsum : p + q = 1) :
    ∃ s t : ℚ, 0 ≤ s ∧ 0 ≤ t ∧
      (borrow first.alpha second.alpha).getD (1.0, 1.0) = (rational s, rational t) ∧
      (interpolate first second ⟨rational p, rational q⟩ arc).alpha.getD 1.0 =
        rational (s * p + t * q) := by
  unfold interpolate
  dsimp only
  -- If both alphas are missing, both colours are opaque.
  cases hborrow : borrow first.alpha second.alpha with
  | none =>
    refine ⟨1, 1, zero_le_one, zero_le_one, by rw [Option.getD_none, one_eq], ?_⟩
    rw [Option.map_none, Option.getD_none, one_eq, one_mul, one_mul, hsum]
  | some pair =>
    obtain ⟨alpha, other⟩ := pair
    obtain ⟨⟨s, rfl, hs, -⟩, t, rfl, ht, -⟩ :=
      borrow_eq_some hborrow hfirst.between_alpha hsecond.between_alpha
    exact ⟨s, t, hs, ht, rfl, rfl⟩

/-- A component other than the hue is a convex mean of both values. -/
theorem exists_get_interpolate (arc : HueArc) (hfirst : first.InRange) (hsecond : second.InRange)
    (hp : 0 ≤ p) (hq : 0 ≤ q) (hsum : p + q = 1) (hindex : first.space.hueIndex? ≠ some index)
    {a b : ℚ} (hborrow : borrow (first.components.get index) (second.components.get index) =
      some (rational a, rational b)) :
    ∃ u v : ℚ, 0 ≤ u ∧ 0 ≤ v ∧ u + v = 1 ∧ (p = 1 → u = 1) ∧ (q = 1 → v = 1) ∧
      (interpolate first second ⟨rational p, rational q⟩ arc).components.get index =
        some (rational (a * u + b * v)) := by
  obtain ⟨s, t, hs, ht, halphas, halpha⟩ := exists_alphas arc hfirst hsecond hsum
  obtain ⟨u, v, hu, hv, huv, hup, hvq, hmean⟩ := exists_scaledWeights arc hp hq hsum hs ht
  refine ⟨u, v, hu, hv, huv, hup, hvq, ?_⟩
  rw [get_interpolate _ hborrow, beq_eq_false_iff_ne.2 hindex, halphas, halpha, hmean]

/-- Borrowed hues are within one turn, as those of both colours are. -/
theorem hues_of_borrow (hspace : first.space = second.space) (hfirst : first.InRange)
    (hsecond : second.InRange) (hindex : first.space.hueIndex? = some index) {a b : ℚ}
    (hborrow : borrow (first.components.get index) (second.components.get index) =
      some (rational a, rational b)) : (0 ≤ a ∧ a < 360) ∧ 0 ≤ b ∧ b < 360 := by
  have hturns := borrow_eq_some hborrow (P := fun x => 0.0 ≤ x ∧ x < 360.0)
    (fun _ hx => hfirst.hue_in_turn hindex hx)
    (fun _ hx => hsecond.hue_in_turn (hspace ▸ hindex) hx)
  rw [zero_eq, fullTurn_eq] at hturns
  simpa only [rational_le_iff, rational_lt_iff] using hturns

/-- Every component of a mix is missing only where both colours miss it, and that of one colour
where this has all the weight. -/
theorem mixes_get (hspace : first.space = second.space) (hfirst : first.InRange)
    (hsecond : second.InRange) (hp : 0 ≤ p) (hq : 0 ≤ q) (hsum : p + q = 1) (index : Index) :
    Weights.Mixes ⟨rational p, rational q⟩ (first.components.get index)
      (second.components.get index)
      ((interpolate first second ⟨rational p, rational q⟩ arc).components.get index) := by
  rcases borrow_cases (fun _ h => hfirst.components_finite h)
    (fun _ h => hsecond.components_finite h) with ⟨hborrow, hx, hy⟩ | ⟨a, b, hborrow⟩
  · rw [get_interpolate_of_none _ hborrow, hx, hy]
    exact Weights.mixes_none
  · by_cases hindex : first.space.hueIndex? = some index
    · -- At an end of the way is one of the hues, or that hue raised by a full turn.
      obtain ⟨ha, hb⟩ := hues_of_borrow hspace hfirst hsecond hindex hborrow
      obtain ⟨start, stop, hadjust, hends, -⟩ := arc.exists_adjust_eq ha hb
      rw [get_interpolate_hue hsum hindex hborrow hadjust]
      refine Weights.mixes_of_borrow hborrow ?_ ?_
      · rintro rfl
        obtain rfl : q = 0 := by linarith
        rw [zero_mul, add_zero]
        exact Cylinder.toIcoMod_eq_of_modEq ha hends.modEq_start
      · rintro rfl
        rw [one_mul, add_sub_cancel]
        exact Cylinder.toIcoMod_eq_of_modEq hb hends.modEq_stop
    · obtain ⟨u, v, -, -, huv, hup, hvq, hget⟩ :=
        exists_get_interpolate arc hfirst hsecond hp hq hsum hindex hborrow
      rw [hget]
      exact Weights.mixes_of_mean hborrow huv hup hvq

/-- The alpha of a mix is the mean of both alphas, where there are any. -/
theorem alpha_interpolate {a b : ℚ}
    (hborrow : borrow first.alpha second.alpha = some (rational a, rational b)) :
    (interpolate first second ⟨rational p, rational q⟩ arc).alpha =
      some (rational (a * p + b * q)) := by
  unfold interpolate
  dsimp only
  rw [hborrow]
  rfl

/-- A component other than the hue lies between those of the colours. -/
theorem liesBetween_get (hfirst : first.InRange) (hsecond : second.InRange) (hp : 0 ≤ p)
    (hq : 0 ≤ q) (hsum : p + q = 1) (hindex : first.space.hueIndex? ≠ some index) :
    LiesBetween (first.components.get index) (second.components.get index)
      ((interpolate first second ⟨rational p, rational q⟩ arc).components.get index) := by
  rcases borrow_cases (fun _ h => hfirst.components_finite h)
    (fun _ h => hsecond.components_finite h) with ⟨hborrow, hx, hy⟩ | ⟨a, b, hborrow⟩
  · rw [get_interpolate_of_none _ hborrow, hx, hy]
    exact liesBetween_none
  · obtain ⟨u, v, hu, hv, huv, -, -, hget⟩ :=
      exists_get_interpolate arc hfirst hsecond hp hq hsum hindex hborrow
    rw [hget]
    exact liesBetween_of_borrow hborrow hu hv huv

/-- The alpha of a mix is missing only where both are, is one of them where that has all the weight,
and lies between them. -/
theorem mixes_alpha (arc : HueArc) (hfirst : first.InRange) (hsecond : second.InRange) (hp : 0 ≤ p)
    (hq : 0 ≤ q) (hsum : p + q = 1) :
    Weights.Mixes ⟨rational p, rational q⟩ first.alpha second.alpha
        (interpolate first second ⟨rational p, rational q⟩ arc).alpha ∧
      LiesBetween first.alpha second.alpha
        (interpolate first second ⟨rational p, rational q⟩ arc).alpha := by
  -- If both alphas are missing, so is that of the mix.
  rcases borrow_cases (fun _ h => hfirst.alpha_finite h) (fun _ h => hsecond.alpha_finite h) with
    ⟨hborrow, hx, hy⟩ | ⟨a, b, hborrow⟩
  · have hnone : (interpolate first second ⟨rational p, rational q⟩ arc).alpha = none := by
      unfold interpolate
      dsimp only
      rw [hborrow, Option.map_none]
    rw [hnone, hx, hy]
    exact ⟨Weights.mixes_none, liesBetween_none⟩
  · rw [alpha_interpolate hborrow]
    exact ⟨Weights.mixes_of_mean hborrow hsum id id, liesBetween_of_borrow hborrow hp hq hsum⟩

/-- The more weight the second colour has, the nearer the alpha of a mix is to its own. -/
theorem alpha_monotone {p' q' : ℚ} (hfirst : first.InRange) (hsecond : second.InRange)
    (hsum : p + q = 1) (hsum' : p' + q' = 1) (hle : q ≤ q') :
    ∀ a ∈ first.alpha.or second.alpha, ∀ b ∈ second.alpha.or first.alpha,
    ∀ c ∈ (interpolate first second ⟨rational p, rational q⟩ arc).alpha,
    ∀ d ∈ (interpolate first second ⟨rational p', rational q'⟩ arc).alpha,
      (a ≤ b → c ≤ d) ∧ (b ≤ a → d ≤ c) := by
  intro a ha b hb c hc d hd
  have hborrow := borrow_eq_some_iff.2 ⟨ha, hb⟩
  obtain ⟨⟨s, rfl, -⟩, t, rfl, -⟩ :=
    borrow_eq_some hborrow hfirst.between_alpha hsecond.between_alpha
  rw [alpha_interpolate hborrow] at hc hd
  cases hc
  cases hd
  simp only [rational_le_iff]
  -- The mixed alpha moves by the difference of the alphas as the weight grows.
  have hmove : (s * p' + t * q') - (s * p + t * q) = (t - s) * (q' - q) := by
    linear_combination s * hsum' - s * hsum
  have hgrow : 0 ≤ q' - q := by linarith
  constructor
  · intro hst
    have := mul_nonneg (sub_nonneg.2 hst) hgrow
    linarith
  · intro hts
    have := mul_nonneg (sub_nonneg.2 hts) hgrow
    linarith

/-! ## Mixes -/

/-- Percentages fail only where both are zero, and otherwise give convex weights and a factor above
zero and up to one. Under convex weights every component of a mix but the hue lies between those of
the colours, and so does the alpha, which moves from the first to the second as the second weight
grows. Only what both colours miss is missing, and a colour with all the weight is kept. -/
theorem interpolate_between (arc : HueArc) {firstShare secondShare : Option Extended}
    (hspace : first.space = second.space) (hfirst : first.InRange) (hsecond : second.InRange)
    (hfirstShare : ∀ share ∈ firstShare, Between 0 100 share)
    (hsecondShare : ∀ share ∈ secondShare, Between 0 100 share) :
    (Weights.ofPercentages? firstShare secondShare = none ↔
      firstShare = some 0.0 ∧ secondShare = some 0.0) ∧
    (∀ {weights factor}, Weights.ofPercentages? firstShare secondShare = some (weights, factor) →
      weights.AreConvex ∧ 0.0 < factor ∧ factor ≤ 1.0) ∧
    ∀ {weights : Weights Extended}, weights.AreConvex →
      let mixed := interpolate first second weights arc
      (∀ index, weights.Mixes (first.components.get index) (second.components.get index)
        (mixed.components.get index)) ∧
      (∀ index, first.space.hueIndex? ≠ some index →
        LiesBetween (first.components.get index) (second.components.get index)
          (mixed.components.get index)) ∧
      weights.Mixes first.alpha second.alpha mixed.alpha ∧
      LiesBetween first.alpha second.alpha mixed.alpha ∧
      ∀ {others : Weights Extended}, others.AreConvex → weights.second ≤ others.second →
        ∀ a ∈ first.alpha.or second.alpha, ∀ b ∈ second.alpha.or first.alpha,
        ∀ c ∈ mixed.alpha, ∀ d ∈ (interpolate first second others arc).alpha,
          (a ≤ b → c ≤ d) ∧ (b ≤ a → d ≤ c) := by
  refine ⟨Weights.ofPercentages?_eq_none_iff hfirstShare hsecondShare, ?_, ?_⟩
  · -- The weights and the factor are those of the shares.
    intro weights factor h
    obtain ⟨hconvex, x, rfl, hpos, hle⟩ :=
      Weights.exists_factor_of_ofPercentages? hfirstShare hsecondShare h
    rw [zero_eq, one_eq, rational_lt_iff, rational_le_iff]
    exact ⟨hconvex, hpos, hle⟩
  · rintro weights ⟨p, q, rfl, hp, hq, hsum⟩ mixed
    -- Each part of the mix is a weighted mean, and lies between its ends unless it is a hue.
    obtain ⟨hmixes, hbetween⟩ := mixes_alpha arc hfirst hsecond hp hq hsum
    refine ⟨mixes_get hspace hfirst hsecond hp hq hsum, ?_, hmixes, hbetween, ?_⟩
    · intro index hindex
      exact liesBetween_get hfirst hsecond hp hq hsum hindex
    · rintro _ ⟨p', q', rfl, -, -, hsum'⟩ hle
      exact alpha_monotone hfirst hsecond hsum hsum' (rational_le_iff.1 hle)

/-- A transparent and an opaque colour of LCh, of which one has no hue, in shares of 30% and the
rest. -/
theorem interpolate_between_transparent :
    let first : Color Extended :=
      ⟨.lch, ⟨some (rational 80), none, some (rational 300)⟩, some (rational 0)⟩
    let second := lchOfHue none
    first.InRange ∧ second.InRange ∧
      Weights.ofPercentages? (some (rational 30)) none =
        some (⟨rational (3 / 10), rational (7 / 10)⟩, rational 1) ∧
      LiesBetween (first.components.get .first) (second.components.get .first)
        ((interpolate first second ⟨rational (3 / 10), rational (7 / 10)⟩
          .longer).components.get .first) := by
  intro first second
  have hfirst : first.InRange := by
    refine inRange_of_rationals ?_ ?_ ?_
    · intro index x hx
      cases index <;> cases hx <;> rfl
    · rintro _ ⟨⟩
      exact ⟨0, rfl, le_rfl, zero_le_one⟩
    · rintro _ ⟨⟩ _ ⟨⟩
      exact ⟨300, rfl, by norm_num, by norm_num⟩
  have hsecond : second.InRange := inRange_lchOfHue (by rintro _ ⟨⟩)
  -- A missing share is the rest to a hundred.
  have hweights : Weights.ofPercentages? (some (rational 30)) none =
      some (⟨rational (3 / 10), rational (7 / 10)⟩, rational 1) := by
    simp only [Weights.ofPercentages?, Weights.completed, hundred_eq, zero_eq, one_eq,
      rational_sub, rational_add, rational_beq_iff, rational_lt_iff]
    norm_num [rational_div]
  have hshare : ∀ share ∈ some (rational 30), Between 0 100 share := by
    rintro _ ⟨⟩
    exact ⟨30, rfl, by norm_num, by norm_num⟩
  obtain ⟨-, hconvex, hmix⟩ := @interpolate_between first second .longer (some (rational 30)) none
    rfl hfirst hsecond hshare (by rintro _ ⟨⟩)
  obtain ⟨-, hbetween, -⟩ := hmix (hconvex hweights).1
  exact ⟨hfirst, hsecond, hweights, hbetween .first (by decide)⟩

/-! ## Missing values -/

/-- A value that one side misses and the other one has. -/
def Lent (x y : Option Extended) (value : Extended) : Prop :=
  x = some value ∧ y = none ∨ x = none ∧ y = some value

/-- A part that is lent stands on both sides. -/
theorem Lent.borrow_eq {x y : Option Extended} {value : Extended} (h : Lent x y value) :
    borrow x y = some (value, value) := by
  rcases h with ⟨rfl, rfl⟩ | ⟨rfl, rfl⟩ <;> rfl

/-- What one of the colours misses is in the mix what the other one has. A hue under the longer arc
is turned by the share of the second colour in a full turn, and so is the same only where one of the
colours has all the weight. -/
theorem interpolate_borrowed (arc : HueArc) {weights : Weights Extended}
    (hspace : first.space = second.space) (hfirst : first.InRange) (hsecond : second.InRange)
    (hweights : weights.AreConvex) :
    let mixed := interpolate first second weights arc
    (∀ alpha, Lent first.alpha second.alpha alpha → mixed.alpha = some alpha) ∧
    ∀ index value, Lent (first.components.get index) (second.components.get index) value →
      ((first.space.hueIndex? = some index → arc = .longer →
          weights.first = 0.0 ∨ weights.second = 0.0) →
        mixed.components.get index = some value) ∧
      (first.space.hueIndex? = some index → arc = .longer →
        ∃ share hue turned : ℚ, weights.second = rational share ∧ value = rational hue ∧
          mixed.components.get index = some (rational turned) ∧ 0 ≤ turned ∧ turned < 360 ∧
          turned ≡ hue + share * 360 [PMOD 360]) := by
  intro mixed
  obtain ⟨p, q, rfl, hp, hq, hsum⟩ := hweights
  have hself {u v : ℚ} (a : ℚ) (huv : u + v = 1) : a * u + a * v = a := by
    linear_combination a * huv
  constructor
  · intro alpha halpha
    have hborrow := halpha.borrow_eq
    obtain ⟨⟨a, rfl, -⟩, -⟩ := borrow_eq_some hborrow hfirst.between_alpha hsecond.between_alpha
    rw [alpha_interpolate hborrow, hself a hsum]
  · intro index value hvalue
    have hborrow := hvalue.borrow_eq
    obtain ⟨hfinite, -⟩ := borrow_eq_some hborrow (fun _ h => hfirst.components_finite h)
      (fun _ h => hsecond.components_finite h)
    obtain ⟨a, rfl⟩ := isFinite_iff.1 hfinite
    by_cases hindex : first.space.hueIndex? = some index
    · obtain ⟨ha, -⟩ := hues_of_borrow hspace hfirst hsecond hindex hborrow
      rw [get_interpolate_hue hsum hindex hborrow (arc.adjust_self a), add_sub_cancel_left]
      constructor
      · intro hshares
        rw [Option.some.injEq, rational.injEq]
        refine Cylinder.toIcoMod_eq_of_modEq ha ?_
        by_cases hlonger : arc = .longer
        · -- All the weight is at one end of the full turn.
          rw [if_pos hlonger]
          rcases hshares hindex hlonger with hzero | hzero
          · rw [zero_eq, rational.injEq] at hzero
            obtain rfl : q = 1 := by linarith
            exact AddCommGroup.modEq_iff_zsmul.2 ⟨-1, by simp⟩
          · rw [zero_eq, rational.injEq] at hzero
            rw [hzero, zero_mul, add_zero]
        · rw [if_neg hlonger, mul_zero, add_zero]
      · intro _ hlonger
        have hmem := toIcoMod_mem_Ico' fullTurn_pos (a + q * 360)
        rw [if_pos hlonger]
        exact ⟨q, a, _, rfl, rfl, rfl, hmem.1, hmem.2, Cylinder.toIcoMod_modEq _⟩
    · refine ⟨fun _ => ?_, fun h => absurd h hindex⟩
      obtain ⟨u, v, -, -, huv, -, -, hget⟩ :=
        exists_get_interpolate arc hfirst hsecond hp hq hsum hindex hborrow
      rw [hget, hself a huv]

/-- A hue that one of two colours misses, and an arc that leaves it as it is. -/
theorem interpolate_borrowed_shorter :
    (lchOfHue none).InRange ∧ (lchOfHue (some 40)).InRange ∧
      Lent ((lchOfHue none).components.get .third) ((lchOfHue (some 40)).components.get .third)
        (rational 40) ∧
      (interpolate (lchOfHue none) (lchOfHue (some 40)) ⟨rational (1 / 2), rational (1 / 2)⟩
        .shorter).components.get .third = some (rational 40) := by
  have hfirst : (lchOfHue none).InRange := inRange_lchOfHue (by rintro _ ⟨⟩)
  have hsecond : (lchOfHue (some 40)).InRange := by
    refine inRange_lchOfHue ?_
    rintro _ ⟨⟩
    norm_num
  -- The missing hue is lent by the other colour, so the arc has no length.
  have hlent : Lent ((lchOfHue none).components.get .third)
      ((lchOfHue (some 40)).components.get .third) (rational 40) := .inr ⟨rfl, rfl⟩
  have hconvex : Weights.AreConvex ⟨rational (1 / 2), rational (1 / 2)⟩ :=
    ⟨_, _, rfl, by norm_num, by norm_num, by norm_num⟩
  have hspace : (lchOfHue none).space = (lchOfHue (some 40)).space := rfl
  have hmixed := (interpolate_borrowed .shorter hspace hfirst hsecond hconvex).2 .third _ hlent
  exact ⟨hfirst, hsecond, hlent, hmixed.1 (by rintro - ⟨⟩)⟩

/-- Half of the longer way from a hue to itself ends at the opposite one. -/
theorem interpolate_missingHue_ne :
    (lchOfHue none).InRange ∧ (lchOfHue (some 40)).InRange ∧
      Weights.AreConvex ⟨rational (1 / 2), rational (1 / 2)⟩ ∧
      Lent ((lchOfHue none).components.get .third) ((lchOfHue (some 40)).components.get .third)
        (rational 40) ∧
      (interpolate (lchOfHue none) (lchOfHue (some 40)) ⟨rational (1 / 2), rational (1 / 2)⟩
        .longer).components.get .third ≠ some (rational 40) := by
  refine ⟨inRange_lchOfHue (by rintro _ ⟨⟩), inRange_lchOfHue ?_,
    ⟨_, _, rfl, by norm_num, by norm_num, by norm_num⟩, .inr ⟨rfl, rfl⟩, by decide +kernel⟩
  rintro _ ⟨⟩
  norm_num

end Color

end CssColor
