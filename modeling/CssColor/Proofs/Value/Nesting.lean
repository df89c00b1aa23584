import CssColor.Value.Resolve
import Mathlib.Tactic.Common

/-!
# The bound on nested colours

Resolving a colour value goes into origins and the colours of a mix, and into a text of the options
where the keyword `currentcolor` stands, which may hold origins and mixes and the keyword again.
`ColorValue.Resolves` says by rules, with no order of recursion fixed beforehand, what each value
resolves to at a place: how many levels lie around it, and whether it is part of the value of
`currentcolor`. Every value has exactly one result at every place, so the recursion ends.

The bound on the levels only ever rejects. `ColorValue.nesting` is the number of levels that a value
needs, and `ColorValue.resolveUnlimited` resolves it without a bound: `ColorValue.resolve` gives the
same where the levels are enough, and fails otherwise.
-/

namespace CssColor.ColorValue

variable {K : Type} [Scalar K] [Elementary K]

/-! ## The rules -/

/-- Where a colour value is resolved. -/
structure Place where
  /-- How many levels lie around the value. -/
  depth : ℕ
  /-- Whether the value is part of the value of `currentcolor`. -/
  isCurrent : Bool

namespace Place

/-- The place of a value that is part of no other. -/
def outermost : Place := ⟨0, false⟩

/-- Whether a further level may be entered. -/
def HasRoom (place : Place) : Prop := place.depth < maxNestingDepth

/-- The place one level deeper. -/
def inner (place : Place) : Place := { place with depth := place.depth + 1 }

/-- The place of the value of `currentcolor`. -/
def current (place : Place) : Place := { place.inner with isCurrent := true }

end Place

/-- The value of `currentcolor` that the options give, if there is one that can be read. -/
def currentValue? (options : Options K) : Option (ColorValue K) := do
  ofValue? options.properties (← options.currentColor)

/-- What a value resolves to at a place. The second colour of a mix is looked at only where the
first one resolves. -/
inductive Resolves (options : Options K) : Place → ColorValue K → Option (Resolved K) → Prop
  | named {place name} : Resolves options place (named name) (Resolved.ofName? name)
  | transparent {place} : Resolves options place transparent (some ⟨.transparent .rgb, true⟩)
  | hex {place digits} : Resolves options place (hex digits) (some (.ofRgba digits))
  | function {place space arguments} : Resolves options place (function space arguments)
      (Resolved.ofFunction? space arguments options.dimensions)
  | relative {place origin space arguments result} : place.HasRoom →
      Resolves options place.inner origin result →
      Resolves options place (relative origin space arguments) (result.bind fun origin =>
        Resolved.ofOrigin? origin.color space arguments options.dimensions)
  | relativeTooDeep {place origin space arguments} : ¬ place.HasRoom →
      Resolves options place (relative origin space arguments) none
  | mix {place space arc first firstShare second secondShare firstResult secondResult} :
      place.HasRoom → Resolves options place.inner first (some firstResult) →
      Resolves options place.inner second secondResult →
      Resolves options place (mix space arc first firstShare second secondShare)
        (secondResult.bind fun secondResult =>
          Resolved.ofMix? space arc firstResult firstShare secondResult secondShare)
  | mixFails {place space arc first firstShare second secondShare} :
      place.HasRoom → Resolves options place.inner first none →
      Resolves options place (mix space arc first firstShare second secondShare) none
  | mixTooDeep {place space arc first firstShare second secondShare} : ¬ place.HasRoom →
      Resolves options place (mix space arc first firstShare second secondShare) none
  | currentColor {place value result} : place.isCurrent = false →
      currentValue? options = some value → place.HasRoom →
      Resolves options place.current value result → Resolves options place currentColor result
  | currentColorTooDeep {place} : ¬ place.HasRoom → Resolves options place currentColor none
  | currentColorUnknown {place} : currentValue? options = none →
      Resolves options place currentColor none
  | currentColorInside {place} : place.isCurrent = true → Resolves options place currentColor none

variable {options : Options K}

/-- The rules give a value one result at most. -/
theorem Resolves.unique {place : Place} {value : ColorValue K} {result other : Option (Resolved K)}
    (h : Resolves options place value result) (hother : Resolves options place value other) :
    result = other := by
  -- Each pair of rules for one value agrees, or its conditions exclude each other.
  induction h generalizing other with
  | named | transparent | hex | function => cases hother; rfl
  | relative hroom _ ih =>
    cases hother with
    | relative _ horigin => rw [ih horigin]
    | relativeTooDeep hdeep => exact absurd hroom hdeep
  | relativeTooDeep hdeep =>
    cases hother with
    | relative hroom => exact absurd hroom hdeep
    | relativeTooDeep => rfl
  | mix hroom _ _ ihfirst ihsecond =>
    cases hother with
    | mix _ hfirst hsecond =>
      cases ihfirst hfirst
      rw [ihsecond hsecond]
    | mixFails _ hfirst => cases ihfirst hfirst
    | mixTooDeep hdeep => exact absurd hroom hdeep
  | mixFails hroom _ ih =>
    cases hother with
    | mix _ hfirst => cases ih hfirst
    | mixFails => rfl
    | mixTooDeep => rfl
  | mixTooDeep hdeep =>
    cases hother with
    | mix hroom => exact absurd hroom hdeep
    | mixFails => rfl
    | mixTooDeep => rfl
  | currentColor hcurrent hvalue hroom _ ih =>
    cases hother with
    | currentColor _ hvalue' _ hresult =>
      cases hvalue.symm.trans hvalue'
      exact ih hresult
    | currentColorTooDeep hdeep => exact absurd hroom hdeep
    | currentColorUnknown hunknown => cases hvalue.symm.trans hunknown
    | currentColorInside hinside => cases hcurrent.symm.trans hinside
  | currentColorTooDeep hdeep =>
    cases hother with
    | currentColor _ _ hroom => exact absurd hroom hdeep
    | _ => rfl
  | currentColorUnknown hunknown =>
    cases hother with
    | currentColor _ hvalue => cases hvalue.symm.trans hunknown
    | _ => rfl
  | currentColorInside hinside =>
    cases hother with
    | currentColor hcurrent => cases hcurrent.symm.trans hinside
    | _ => rfl

/-! ## Every value has a result -/

/-- What gives the colour of `currentcolor` at a place: nothing inside its own value. -/
def currentAt (options : Options K) (place : Place) : ℕ → Option (Resolved K) :=
  if place.isCurrent then fun _ => none else resolveCurrentColor options

/-- The result of a value at a place. -/
def resolveAt (options : Options K) (place : Place) (value : ColorValue K) :
    Option (Resolved K) :=
  resolveWith (currentAt options place) options.dimensions (maxNestingDepth - place.depth) value

/-- A value is resolved from the outermost place. -/
theorem resolve_eq_resolveAt (value : ColorValue K) :
    value.resolve options = resolveAt options .outermost value := rfl

/-- The keyword `currentcolor` takes the levels that are left. -/
theorem resolveWith_currentColor (current : ℕ → Option (Resolved K)) (dimensions : Lookup K)
    (levels : ℕ) : resolveWith current dimensions levels currentColor = current levels := by
  rw [resolveWith]

/-- Where there is room the levels that are left are one more than at the place inside. -/
theorem Place.HasRoom.levels_eq {place : Place} (h : place.HasRoom) :
    maxNestingDepth - place.depth = maxNestingDepth - place.inner.depth + 1 := by
  have hlt : place.depth < maxNestingDepth := h
  have hinner : place.inner.depth = place.depth + 1 := rfl
  omega

/-- Without room no levels are left. -/
theorem Place.levels_eq_zero {place : Place} (h : ¬ place.HasRoom) :
    maxNestingDepth - place.depth = 0 := by
  have hle : ¬ place.depth < maxNestingDepth := h
  omega

section Steps

variable {place : Place}

/-- A relative colour is resolved from its origin, one place further in. -/
theorem resolveAt_relative (h : place.HasRoom) (origin : ColorValue K) (space : Space)
    (arguments : Arguments K) : resolveAt options place (relative origin space arguments) =
      (resolveAt options place.inner origin).bind fun origin =>
        Resolved.ofOrigin? origin.color space arguments options.dimensions := by
  unfold resolveAt
  rw [h.levels_eq]
  rfl

/-- A mix is resolved from its colours, one place further in. -/
theorem resolveAt_mix (h : place.HasRoom) (space : Space) (arc : Option HueArc)
    (first : ColorValue K) (firstShare : Option K) (second : ColorValue K)
    (secondShare : Option K) :
    resolveAt options place (mix space arc first firstShare second secondShare) =
      (resolveAt options place.inner first).bind fun firstResult =>
        (resolveAt options place.inner second).bind fun secondResult =>
          Resolved.ofMix? space arc firstResult firstShare secondResult secondShare := by
  unfold resolveAt
  rw [h.levels_eq]
  rfl

/-- A relative colour fails where there is no room for its origin. -/
theorem resolveAt_relative_of_tooDeep (h : ¬ place.HasRoom) (origin : ColorValue K) (space : Space)
    (arguments : Arguments K) :
    resolveAt options place (relative origin space arguments) = none := by
  unfold resolveAt
  rw [Place.levels_eq_zero h]
  rfl

/-- A mix fails where there is no room for its colours. -/
theorem resolveAt_mix_of_tooDeep (h : ¬ place.HasRoom) (space : Space) (arc : Option HueArc)
    (first : ColorValue K) (firstShare : Option K) (second : ColorValue K)
    (secondShare : Option K) :
    resolveAt options place (mix space arc first firstShare second secondShare) = none := by
  unfold resolveAt
  rw [Place.levels_eq_zero h]
  rfl

/-- The keyword `currentcolor` gives nothing inside its own value. -/
theorem resolveAt_currentColor_inside (h : place.isCurrent = true) :
    resolveAt options place currentColor = none := by
  have hcurrent : currentAt options place = fun _ => none := if_pos h
  unfold resolveAt
  rw [resolveWith_currentColor, hcurrent]

/-- The current colour takes one level, and its value is resolved without another one. -/
theorem resolveCurrentColor_eq (options : Options K) (levels : ℕ) :
    resolveCurrentColor options levels = (currentValue? options).bind fun value =>
      match levels with
      | 0 => none
      | levels + 1 => resolveWith (fun _ => none) options.dimensions levels value := by
  unfold resolveCurrentColor currentValue?
  cases options.currentColor with
  | none => rfl
  | some text => rfl

/-- Elsewhere the keyword gives the colour of its value, one level deeper. -/
theorem resolveAt_currentColor (h : place.isCurrent = false) (hroom : place.HasRoom) :
    resolveAt options place currentColor =
      (currentValue? options).bind (resolveAt options place.current) := by
  have hcurrent : currentAt options place = resolveCurrentColor options :=
    if_neg (by rw [h]; exact Bool.false_ne_true)
  unfold resolveAt
  rw [resolveWith_currentColor, hcurrent, hroom.levels_eq]
  exact resolveCurrentColor_eq options _

/-- The current colour fails where there is no room for its value. -/
theorem resolveAt_currentColor_of_tooDeep (hroom : ¬ place.HasRoom) :
    resolveAt options place currentColor = none := by
  cases h : place.isCurrent with
  | true => exact resolveAt_currentColor_inside h
  | false =>
    have hcurrent : currentAt options place = resolveCurrentColor options :=
      if_neg (by rw [h]; exact Bool.false_ne_true)
    unfold resolveAt
    rw [resolveWith_currentColor, hcurrent, Place.levels_eq_zero hroom, resolveCurrentColor_eq]
    cases currentValue? options <;> rfl

end Steps

/-- The rules give every value the result at its place, where `hcurrent` says so for the keyword
`currentcolor`. -/
theorem resolves_resolveAt_of_currentColor {isCurrent : Bool}
    (hcurrent : ∀ place : Place, place.isCurrent = isCurrent →
      Resolves options place currentColor (resolveAt options place currentColor))
    (value : ColorValue K) (place : Place) (h : place.isCurrent = isCurrent) :
    Resolves options place value (resolveAt options place value) := by
  -- The induction is on the value, for any place.
  -- Going into an origin or a mix does not change whether this is the value of `currentcolor`.
  induction value generalizing place with
  | named =>
    rw [resolveAt, resolveWith]
    exact .named
  | transparent =>
    rw [resolveAt, resolveWith]
    exact .transparent
  | hex =>
    rw [resolveAt, resolveWith]
    exact .hex
  | function =>
    rw [resolveAt, resolveWith]
    exact .function
  | currentColor => exact hcurrent place h
  | relative origin space arguments ih =>
    by_cases hroom : place.HasRoom
    · rw [resolveAt_relative hroom]
      exact .relative hroom (ih place.inner h)
    · rw [resolveAt_relative_of_tooDeep hroom]
      exact .relativeTooDeep hroom
  | mix space arc first firstShare second secondShare ihfirst ihsecond =>
    by_cases hroom : place.HasRoom
    · rw [resolveAt_mix hroom]
      have hfirst := ihfirst place.inner h
      have hsecond := ihsecond place.inner h
      cases hresult : resolveAt options place.inner first with
      | none =>
        rw [hresult] at hfirst
        exact .mixFails hroom hfirst
      | some firstResult =>
        rw [hresult] at hfirst
        exact .mix hroom hfirst hsecond
    · rw [resolveAt_mix_of_tooDeep hroom]
      exact .mixTooDeep hroom

/-- The rules give every value its result at every place. -/
theorem resolves_resolveAt (place : Place) (value : ColorValue K) :
    Resolves options place value (resolveAt options place value) := by
  -- Inside the value of `currentcolor` the recursion is on the tree alone.
  have hcurrent : ∀ place : Place, place.isCurrent = true →
      Resolves options place currentColor (resolveAt options place currentColor) :=
    fun place h => by
      rw [resolveAt_currentColor_inside h]
      exact .currentColorInside h
  have hinside := resolves_resolveAt_of_currentColor hcurrent
  cases h : place.isCurrent with
  | true => exact hinside value place h
  | false =>
    -- Outside of it the keyword leads there, once.
    refine resolves_resolveAt_of_currentColor (fun place h => ?_) value place h
    by_cases hroom : place.HasRoom
    · rw [resolveAt_currentColor h hroom]
      cases hvalue : currentValue? options with
      | none => exact .currentColorUnknown hvalue
      | some current => exact .currentColor h hvalue hroom (hinside current place.current rfl)
    · rw [resolveAt_currentColor_of_tooDeep hroom]
      exact .currentColorTooDeep hroom

/-! ## Without the bound -/

/-- The colour of a value with no bound on the levels, where `current` is that of `currentcolor`. -/
def resolveUnlimitedWith (current : Option (Resolved K)) (dimensions : Lookup K) :
    ColorValue K → Option (Resolved K)
  | named name => Resolved.ofName? name
  | transparent => some ⟨.transparent .rgb, true⟩
  | currentColor => current
  | hex digits => some (.ofRgba digits)
  | function space arguments => Resolved.ofFunction? space arguments dimensions
  | relative origin space arguments => do
    let origin ← resolveUnlimitedWith current dimensions origin
    Resolved.ofOrigin? origin.color space arguments dimensions
  | mix space arc first firstShare second secondShare => do
    let first ← resolveUnlimitedWith current dimensions first
    let second ← resolveUnlimitedWith current dimensions second
    Resolved.ofMix? space arc first firstShare second secondShare

/-- The colour of a value with no bound on the levels. The value of `currentcolor` may still not
hold the keyword. -/
def resolveUnlimited (options : Options K) (value : ColorValue K) : Option (Resolved K) :=
  resolveUnlimitedWith
    ((currentValue? options).bind (resolveUnlimitedWith none options.dimensions))
    options.dimensions value

omit [Scalar K] [Elementary K] in
/-- How many levels a value needs, where the keyword `currentcolor` needs `current`. -/
def nestingWith (current : ℕ) : ColorValue K → ℕ
  | currentColor => current
  | relative origin _ _ => nestingWith current origin + 1
  | mix _ _ first _ second _ => max (nestingWith current first) (nestingWith current second) + 1
  | _ => 0

/-- How many levels a value needs. The keyword `currentcolor` needs one more than its value, in
which the keyword itself needs none. -/
def nesting (options : Options K) (value : ColorValue K) : ℕ :=
  nestingWith ((currentValue? options).elim 0 fun current => nestingWith 0 current + 1) value

/-- The bound on the levels only ever rejects, if it does so for the keyword `currentcolor`. -/
theorem resolveWith_eq_ite {current : ℕ → Option (Resolved K)} {unlimited : Option (Resolved K)}
    {needed : ℕ} (hcurrent : ∀ levels, current levels = if needed ≤ levels then unlimited else none)
    (dimensions : Lookup K) (levels : ℕ) (value : ColorValue K) :
    resolveWith current dimensions levels value =
      if nestingWith needed value ≤ levels then resolveUnlimitedWith unlimited dimensions value
      else none := by
  induction value generalizing levels with
  | named | transparent | hex | function =>
    rw [nestingWith, if_pos (Nat.zero_le levels)]
    · cases levels <;> rfl
    all_goals intros; contradiction
  | currentColor =>
    rw [resolveWith_currentColor, hcurrent]
    rfl
  | relative origin space arguments ih =>
    cases levels with
    | zero => rfl
    | succ levels =>
      -- The step takes one level, as the nesting of the origin with the colour around it does.
      have hstep : resolveWith current dimensions (levels + 1) (relative origin space arguments) =
          (resolveWith current dimensions levels origin).bind fun origin =>
            Resolved.ofOrigin? origin.color space arguments dimensions := rfl
      rw [hstep, ih, nestingWith]
      simp only [Nat.add_le_add_iff_right]
      split
      · rfl
      · rfl
  | mix space arc first firstShare second secondShare ihfirst ihsecond =>
    cases levels with
    | zero => rfl
    | succ levels =>
      have hstep : resolveWith current dimensions (levels + 1)
          (mix space arc first firstShare second secondShare) =
          (resolveWith current dimensions levels first).bind fun firstResult =>
            (resolveWith current dimensions levels second).bind fun secondResult =>
              Resolved.ofMix? space arc firstResult firstShare secondResult secondShare := rfl
      rw [hstep, ihfirst, ihsecond, nestingWith]
      simp only [Nat.add_le_add_iff_right, Nat.max_le]
      -- The mix fails as soon as one of its colours needs more levels than there are.
      by_cases hfirst : nestingWith needed first ≤ levels
      · by_cases hsecond : nestingWith needed second ≤ levels
        · rw [if_pos hfirst, if_pos hsecond, if_pos ⟨hfirst, hsecond⟩]
          rfl
        · have hboth : ¬ (nestingWith needed first ≤ levels ∧ nestingWith needed second ≤ levels) :=
            fun h => hsecond h.2
          rw [if_pos hfirst, if_neg hsecond, if_neg hboth]
          cases resolveUnlimitedWith unlimited dimensions first <;> rfl
      · have hboth : ¬ (nestingWith needed first ≤ levels ∧ nestingWith needed second ≤ levels) :=
          fun h => hfirst h.1
        rw [if_neg hfirst, if_neg hboth]
        rfl

/-- The bound on the levels only ever rejects the keyword `currentcolor`. -/
theorem resolveCurrentColor_eq_ite (options : Options K) (levels : ℕ) :
    resolveCurrentColor options levels =
      if ((currentValue? options).elim 0 fun current => nestingWith 0 current + 1) ≤ levels then
        (currentValue? options).bind (resolveUnlimitedWith none options.dimensions)
      else none := by
  rw [resolveCurrentColor_eq]
  cases currentValue? options with
  | none => exact (ite_self none).symm
  | some value =>
    cases levels with
    | zero => rfl
    | succ levels =>
      -- Inside its own value the keyword gives nothing at any level.
      have hinside : ∀ levels : ℕ, (none : Option (Resolved K)) =
          if 0 ≤ levels then none else none := fun levels => (ite_self none).symm
      have hvalue := resolveWith_eq_ite hinside options.dimensions levels value
      simp only [Option.elim_some, Nat.add_le_add_iff_right, Option.bind_some]
      exact hvalue

/-- Resolving a colour value ends with exactly one result, wherever the value stands. At the
outermost place that is the result of `ColorValue.resolve`: where the value needs no more levels
than are allowed it is the result with no bound on the levels, and otherwise there is none. -/
theorem resolve_eq_unlimited_or_none (options : Options K) (value : ColorValue K) :
    (∀ place, ∃! result, Resolves options place value result) ∧
      Resolves options .outermost value (value.resolve options) ∧
      value.resolve options =
        if value.nesting options ≤ maxNestingDepth then value.resolveUnlimited options
        else none := by
  refine ⟨fun place => ?_, ?_, ?_⟩
  · have hresult : Resolves options place value (resolveAt options place value) :=
      resolves_resolveAt place value
    exact ⟨_, hresult, fun other hother => hother.unique hresult⟩
  · rw [resolve_eq_resolveAt]
    exact resolves_resolveAt .outermost value
  · exact resolveWith_eq_ite (resolveCurrentColor_eq_ite options) options.dimensions
      maxNestingDepth value

end CssColor.ColorValue
