import CssColor.Proofs.Color.Range
import CssColor.Proofs.Value.Parsed
import CssColor.Value.Resolve

/-!
# The ranges of resolved colours

Every colour that a value resolves to is in range, and it is a legacy colour if and only if its
space is one (`ColorValue.inRange_of_resolveWith`). Each way to a colour ends in a step that sees to
this: components are made finite and clamped, a conversion makes them finite, and a mix brings its
hue into one turn. Values that are not finite may come out of expressions at any depth.
-/

namespace CssColor

open Extended

/-- A colour in range, which is a legacy colour if and only if its space is one. -/
structure Resolved.InRange {K : Type} [Scalar K] (resolved : Resolved K) : Prop where
  color_inRange : resolved.color.InRange
  isLegacy_eq : resolved.isLegacy = resolved.color.space.isLegacy

/-! ## Arguments -/

/-- What an argument gives is made finite, if it gives anything. -/
theorem Argument.eq_toFinite_of_resolve {scope : Scope Extended} {argument : Argument Extended}
    {x : Extended} (h : argument.resolve scope = some (some x)) : ∃ y, x = Scalar.toFinite y := by
  cases argument with
  | missing => cases h
  | number y =>
    cases h
    exact ⟨y, rfl⟩
  | percentage y =>
    rw [resolve, Option.map_eq_some_iff] at h
    obtain ⟨basis, -, hx⟩ := h
    cases hx
    exact ⟨_, rfl⟩
  | dimension y unit =>
    rw [resolve] at h
    split at h
    · obtain ⟨degrees, -, hx⟩ := Option.map_eq_some_iff.1 h
      cases hx
      exact ⟨degrees, rfl⟩
    · cases h
  | keyword name =>
    rw [resolve, Option.map_eq_some_iff] at h
    obtain ⟨binding, -, hx⟩ := h
    obtain ⟨y, -, rfl⟩ := Option.map_eq_some_iff.1 hx
    exact ⟨y, rfl⟩
  | expression tree =>
    rw [resolve] at h
    split at h
    · cases h
    · next y _ =>
      cases h
      exact ⟨y, rfl⟩
    · cases h

/-- An argument gives a finite number, if any. -/
theorem Argument.finite_of_resolve {scope : Scope Extended} {argument : Argument Extended}
    {value : Option Extended} (h : argument.resolve scope = some value) :
    ∀ x ∈ value, Scalar.isFinite x = true := by
  rintro x rfl
  obtain ⟨y, rfl⟩ := eq_toFinite_of_resolve h
  exact isFinite_toFinite y

/-- A hue that is brought into one turn, where one without a remainder becomes zero. -/
theorem Cylinder.inTurn_normalizeHue_or_zero (hue : Extended) :
    InTurn (if Number.isNaN (normalizeHue hue) then 0.0 else normalizeHue hue) := by
  rcases normalizeHue_eq_nan_or_inTurn hue with hnan | hturn
  · rw [hnan]
    exact inTurn_zero
  · obtain ⟨a, ha, -⟩ := id hturn
    rw [ha, isNaN_rational, ← ha]
    exact hturn

/-- A component that is brought within the range of its space stays finite. -/
theorem Space.isFinite_clampComponent (space : Space) (index : Index) {x : Extended}
    (h : Scalar.isFinite x = true) : Scalar.isFinite (space.clampComponent index x) = true := by
  obtain ⟨a, rfl⟩ := isFinite_iff.1 h
  have hpercent : Scalar.isFinite (Number.clamp 0.0 100.0 (rational a)) = true := by
    rw [zero_eq, hundred_eq]
    exact (between_clamp (by norm_num) a).isFinite
  have hunit : Scalar.isFinite (Number.clamp 0.0 1.0 (rational a)) = true := by
    rw [zero_eq, one_eq]
    exact (between_clamp zero_le_one a).isFinite
  have hnonneg : Scalar.isFinite (Number.max (rational a) 0.0) = true := by
    rw [zero_eq, max_rational]
    exact isFinite_rational
  have hhue := (Cylinder.inTurn_normalizeHue_or_zero (rational a)).isFinite
  -- Each range is one of these.
  unfold clampComponent
  split <;> assumption

/-- A hue that is brought within its range is within one turn. -/
theorem Space.inTurn_clampComponent {space : Space} {index : Index}
    (h : space.hueIndex? = some index) (x : Extended) : InTurn (space.clampComponent index x) := by
  have hhue := Cylinder.inTurn_normalizeHue_or_zero x
  cases space <;> cases h <;> exact hhue

/-- A colour of finite components is in range when they are brought into theirs. -/
theorem Color.inRange_clamp {color : Color Extended}
    (hcomponents : ∀ index, ∀ x ∈ color.components.get index, Scalar.isFinite x = true)
    (halpha : ∀ alpha ∈ color.alpha, Between 0 1 alpha) : color.clamp.InRange := by
  refine inRange_of_rationals (fun index x hx => ?_) halpha fun index hindex x hx => ?_
  · rw [get_clamp] at hx
    obtain ⟨y, hy, rfl⟩ := Option.map_eq_some_iff.1 hx
    exact Space.isFinite_clampComponent _ _ (hcomponents index y hy)
  · rw [get_clamp] at hx
    obtain ⟨y, -, rfl⟩ := Option.map_eq_some_iff.1 hx
    exact Space.inTurn_clampComponent hindex y

namespace Arguments

/-- The arguments of a colour are resolved one by one. -/
theorem exists_of_resolve {K : Type} [Scalar K] {space : Space}
    {bindings : List (String × Option K)} {defaultAlpha : Option K} {dimensions : Lookup K}
    {arguments : Arguments K} {color : Color K}
    (h : arguments.resolve space bindings defaultAlpha dimensions = some color) :
    ∃ components alpha, color = Color.clamp ⟨space, components, alpha⟩ ∧
      (∀ index, (arguments.components.get index).resolve
        (componentScope space bindings dimensions index) = some (components.get index)) ∧
      (arguments.alpha = none ∧ alpha = defaultAlpha ∨ ∃ argument value,
        arguments.alpha = some argument ∧
          argument.resolve (alphaScope bindings dimensions) = some value ∧
          alpha = value.map (Number.clamp 0.0 1.0)) := by
  unfold resolve at h
  obtain ⟨first, hfirst, h⟩ := Option.bind_eq_some_iff.1 h
  obtain ⟨second, hsecond, h⟩ := Option.bind_eq_some_iff.1 h
  obtain ⟨third, hthird, h⟩ := Option.bind_eq_some_iff.1 h
  -- The three results, gathered under their positions.
  have hcomponents : ∀ index, (arguments.components.get index).resolve
      (componentScope space bindings dimensions index) =
        some ((⟨first, second, third⟩ : Triple (Option K)).get index) := by
    intro index
    cases index with
    | first => exact hfirst
    | second => exact hsecond
    | third => exact hthird
  cases halpha : arguments.alpha with
  | none =>
    rw [halpha] at h
    cases h
    exact ⟨_, _, rfl, hcomponents, Or.inl ⟨rfl, rfl⟩⟩
  | some argument =>
    rw [halpha] at h
    obtain ⟨value, hvalue, h⟩ := Option.bind_eq_some_iff.1 h
    cases h
    exact ⟨_, _, rfl, hcomponents, Or.inr ⟨argument, value, rfl, hvalue, rfl⟩⟩

variable {space : Space} {bindings : List (String × Option Extended)}
  {defaultAlpha : Option Extended} {dimensions : Lookup Extended} {arguments : Arguments Extended}
  {color : Color Extended}

/-- Arguments give a colour in range, if the alpha they have by default is. -/
theorem inRange_of_resolve (hdefault : ∀ alpha ∈ defaultAlpha, Between 0 1 alpha)
    (h : arguments.resolve space bindings defaultAlpha dimensions = some color) :
    color.InRange ∧ color.space = space := by
  obtain ⟨components, alpha, rfl, hcomponents, halpha⟩ := exists_of_resolve h
  refine ⟨Color.inRange_clamp (fun index => Argument.finite_of_resolve (hcomponents index)) ?_, rfl⟩
  rcases halpha with ⟨-, rfl⟩ | ⟨argument, value, -, hvalue, rfl⟩
  · exact hdefault
  · intro alpha halpha
    obtain ⟨x, hx, rfl⟩ := Option.map_eq_some_iff.1 halpha
    obtain ⟨a, rfl⟩ := isFinite_iff.1 (Argument.finite_of_resolve hvalue x hx)
    rw [zero_eq, one_eq]
    exact between_clamp zero_le_one a

end Arguments

/-! ## Colours -/

namespace Resolved

variable {space : Space} {arguments : Arguments Extended} {dimensions : Lookup Extended}
  {resolved : Resolved Extended}

/-- Finite components and an alpha between zero and one make a colour without a hue. -/
theorem inRange_ofValues (hspace : space.hueIndex? = none) {values : Triple Extended}
    {alpha : Extended} (hvalues : ∀ index, Scalar.isFinite (values.get index) = true)
    (halpha : Between 0 1 alpha) : (Color.ofValues space values alpha).InRange := by
  refine Color.inRange_of_rationals (fun index x hx => ?_) ?_ fun index hindex => ?_
  · have hget : (values.map some).get index = some (values.get index) := Triple.get_map _ _ _
    cases hget.symm.trans hx
    exact hvalues index
  · rintro _ ⟨⟩
    exact halpha
  · cases hspace.symm.trans hindex

/-- The legacy colour of four bytes is in range. -/
theorem inRange_ofRgba (digits : Rgba) : (ofRgba digits : Resolved Extended).InRange := by
  have hbyte (byte : UInt8) : (Scalar.ofByte byte : Extended) = rational byte.toNat := rfl
  refine ⟨inRange_ofValues rfl (fun index => by cases index <;> rfl) ?_, rfl⟩
  have hlt : ((digits.alpha.toNat : ℕ) : ℚ) ≤ 255 := by
    exact_mod_cast Nat.le_of_lt_succ digits.alpha.toNat_lt
  rw [hbyte, byteMax_eq, rational_div (by norm_num)]
  exact ⟨digits.alpha.toNat / 255, rfl, div_nonneg (Nat.cast_nonneg _) (by norm_num),
    by linarith⟩

/-- A colour function without an origin gives a colour in range. -/
theorem inRange_of_ofFunction? (h : ofFunction? space arguments dimensions = some resolved) :
    resolved.InRange := by
  obtain ⟨color, hcolor, rfl⟩ := Option.map_eq_some_iff.1 h
  have hopaque : ∀ alpha ∈ some (1.0 : Extended), Between 0 1 alpha := by
    rintro _ ⟨⟩
    exact ⟨1, one_eq, zero_le_one, le_rfl⟩
  obtain ⟨hrange, hspace⟩ := Arguments.inRange_of_resolve hopaque hcolor
  exact ⟨hrange, by rw [hspace]⟩

variable [Elementary Extended]

/-- A colour relative to an origin in range is in range. -/
theorem inRange_of_ofOrigin? {origin : Color Extended} (horigin : origin.InRange)
    (h : ofOrigin? origin space arguments dimensions = some resolved) : resolved.InRange := by
  obtain ⟨color, hcolor, rfl⟩ := Option.map_eq_some_iff.1 h
  obtain ⟨hrange, hspace⟩ := Arguments.inRange_of_resolve
    (Color.between_alpha_toFinite horigin.between_alpha) hcolor
  unfold Space.relativeOutput
  cases hlegacy : space.isLegacy with
  | true =>
    -- The arguments of a legacy space give a colour of sRGB.
    have hne : color.space ≠ .srgb := by
      rintro hsrgb
      rw [← hspace, hsrgb] at hlegacy
      cases hlegacy
    refine ⟨Color.inRange_toSpace hne rfl hrange.between_alpha, ?_⟩
    rw [if_pos rfl, Color.toSpace_space]
    rfl
  | false =>
    -- All others stay as the arguments give them.
    have hself : color.toSpace space = color := if_pos hspace
    rw [if_neg Bool.false_ne_true, hself]
    exact ⟨hrange, by rw [hspace, hlegacy]⟩

/-- The colour that a mix ends in. Only in sRGB and its cylinders it is a legacy colour. -/
theorem inRange_of_mixed {mixed : Color Extended} {isLegacy : Bool}
    (hlegacy : isLegacy = true → mixed.space ∈ [Space.srgb, .hsl, .hwb])
    (halpha : ∀ alpha ∈ mixed.alpha, Between 0 1 alpha)
    (hhue : ∀ index ∈ mixed.space.hueIndex?, ∀ x ∈ mixed.components.get index,
      ∃ y, x = Cylinder.normalizeHue y) :
    InRange ⟨if isLegacy then mixed.toSpace .rgb
      else if mixed.space.isLegacy then mixed.toSpace .srgb else mixed.toFinite, isLegacy⟩ := by
  cases isLegacy with
  | true =>
    -- The mix is of no colours in RGB, so the conversion makes it finite.
    have hne : mixed.space ≠ .rgb := by
      intro hrgb
      have hmem := hlegacy rfl
      rw [hrgb] at hmem
      exact absurd hmem (by decide)
    exact ⟨Color.inRange_toSpace hne rfl halpha, by rw [if_pos rfl, Color.toSpace_space]; rfl⟩
  | false =>
    rw [if_neg Bool.false_ne_true]
    cases hspace : mixed.space.isLegacy with
    | true =>
      have hne : mixed.space ≠ .srgb := by
        intro hsrgb
        rw [hsrgb] at hspace
        cases hspace
      exact ⟨Color.inRange_toSpace hne rfl halpha, by rw [if_pos rfl, Color.toSpace_space]; rfl⟩
    | false =>
      -- The mix stays in its space, and its hue within one turn.
      rw [if_neg Bool.false_ne_true]
      refine ⟨Color.inRange_of_rationals Color.toFinite_components_finite
        (Color.between_alpha_toFinite halpha) fun index hindex x hx => ?_, hspace.symm⟩
      rw [Color.get_toFinite] at hx
      obtain ⟨y, hy, rfl⟩ := Option.map_eq_some_iff.1 hx
      obtain ⟨z, rfl⟩ := hhue index hindex y hy
      exact Cylinder.inTurn_toFinite_normalizeHue z

/-- A mix of colours in range is in range. -/
theorem inRange_of_ofMix? {arc : Option HueArc} {first second : Resolved Extended}
    {firstShare secondShare : Option Extended} (hfirst : first.color.InRange)
    (hsecond : second.color.InRange) (hfirstShare : ∀ share ∈ firstShare, Between 0 100 share)
    (hsecondShare : ∀ share ∈ secondShare, Between 0 100 share)
    (h : ofMix? space arc first firstShare second secondShare = some resolved) :
    resolved.InRange := by
  obtain ⟨⟨weights, factor⟩, hweights, h⟩ := Option.bind_eq_some_iff.1 h
  obtain ⟨hconvex, hfactor⟩ :=
    Weights.areConvex_of_ofPercentages? hfirstShare hsecondShare hweights
  have hspace : (first.color.toSpaceForMixing space).space = space :=
    Color.toSpaceForMixing_space
  -- Converting to the space of the mix keeps the alpha.
  have hfirstAlpha : ∀ alpha ∈ (first.color.toSpaceForMixing space).alpha, Between 0 1 alpha := by
    rw [Color.toSpaceForMixing_alpha]
    exact hfirst.between_alpha
  have hsecondAlpha : ∀ alpha ∈ (second.color.toSpaceForMixing space).alpha,
      Between 0 1 alpha := by
    rw [Color.toSpaceForMixing_alpha]
    exact hsecond.between_alpha
  generalize first.color.toSpaceForMixing space = a at h hspace hfirstAlpha
  generalize second.color.toSpaceForMixing space = b at h hsecondAlpha
  subst hspace
  cases h
  refine inRange_of_mixed (fun hlegacy => ?_) (fun alpha halpha => ?_) fun index hindex x hx => ?_
  · rw [Bool.and_eq_true, List.contains_iff_mem] at hlegacy
    exact hlegacy.2
  · obtain ⟨x, hx, rfl⟩ := Option.map_eq_some_iff.1 halpha
    exact (Color.between_alpha_interpolate hconvex hfirstAlpha hsecondAlpha x hx).mul_unit hfactor
  · -- A hue is reduced to one turn when the colours are mixed.
    have hhue : a.space.hueIndex? = some index := hindex
    exact Color.hue_interpolate hhue hx

end Resolved

/-! ## Values -/

namespace ColorValue

/-- A share that was checked lies between zero and a hundred. -/
theorem between_of_shareBetween {share : Option Extended} (h : ShareBetween share) :
    ∀ x ∈ share, Between 0 100 x := by
  intro x hx
  have hbetween := h x hx
  unfold Number.isBetween at hbetween
  rw [Bool.and_eq_true, decide_eq_true_iff, decide_eq_true_iff, zero_eq, hundred_eq,
    ← between_iff] at hbetween
  exact hbetween

section Contexts

variable [Elementary Extended] {current : ℕ → Option (Resolved Extended)}
  {dimensions : Lookup Extended}

/-- A value resolves to a colour in range, if `currentcolor` does. -/
theorem inRange_of_resolveWith
    (hcurrent : ∀ {levels resolved}, current levels = some resolved → resolved.InRange)
    {levels : ℕ} {value : ColorValue Extended} {resolved : Resolved Extended}
    (hshares : value.SharesBetween)
    (h : resolveWith current dimensions levels value = some resolved) : resolved.InRange := by
  -- The cases of the recursion: a value of each kind, and the last level for those that nest.
  induction levels, value using resolveWith.induct generalizing resolved with
  | case1 _ name =>
    rw [resolveWith] at h
    obtain ⟨bytes, -, rfl⟩ := Option.map_eq_some_iff.1 h
    exact Resolved.inRange_ofRgba _
  | case2 =>
    rw [resolveWith] at h
    cases h
    exact ⟨Resolved.inRange_ofValues rfl (fun index => by cases index <;> rfl)
      ⟨0, zero_eq, le_rfl, zero_le_one⟩, rfl⟩
  | case3 levels =>
    rw [resolveWith] at h
    exact hcurrent h
  | case4 _ digits =>
    rw [resolveWith] at h
    cases h
    exact Resolved.inRange_ofRgba digits
  | case5 _ space arguments =>
    rw [resolveWith] at h
    exact Resolved.inRange_of_ofFunction? h
  | case6 =>
    rw [resolveWith] at h
    cases h
  | case7 levels origin space arguments ih =>
    rw [resolveWith] at h
    obtain ⟨origin, horigin, h⟩ := Option.bind_eq_some_iff.1 h
    exact Resolved.inRange_of_ofOrigin? (ih hshares horigin).color_inRange h
  | case8 =>
    rw [resolveWith] at h
    cases h
  | case9 levels space arc first firstShare second secondShare ihfirst ihsecond =>
    rw [resolveWith] at h
    obtain ⟨hfirst, hfirstShare, hsecond, hsecondShare⟩ := hshares
    obtain ⟨_, hresolvedFirst, h⟩ := Option.bind_eq_some_iff.1 h
    obtain ⟨_, hresolvedSecond, h⟩ := Option.bind_eq_some_iff.1 h
    exact Resolved.inRange_of_ofMix? (ihfirst hfirst hresolvedFirst).color_inRange
      (ihsecond hsecond hresolvedSecond).color_inRange (between_of_shareBetween hfirstShare)
      (between_of_shareBetween hsecondShare) h

/-- The colour of `currentcolor` in a context, which has none inside of its own value. -/
def currentIn (options : Options Extended) (inside : Bool) : ℕ → Option (Resolved Extended) :=
  if inside then fun _ => none else resolveCurrentColor options

/-- The value of `currentcolor` resolves to a colour in range. -/
theorem inRange_of_resolveCurrentColor {options : Options Extended} {levels : ℕ}
    {resolved : Resolved Extended} (h : resolveCurrentColor options levels = some resolved) :
    resolved.InRange := by
  obtain ⟨text, -, h⟩ := Option.bind_eq_some_iff.1 h
  obtain ⟨value, hvalue, h⟩ := Option.bind_eq_some_iff.1 h
  obtain ⟨tokens, -, hparse⟩ := Option.bind_eq_some_iff.1 hvalue
  obtain ⟨rest, hrule, -⟩ := Rule.parse_eq_some_iff.1 hparse
  have hshares := rule_sharesBetween maxBlockDepth _ _ _ hrule
  cases levels with
  | zero => cases h
  | succ levels =>
    refine inRange_of_resolveWith (fun hcurrent => ?_) hshares h
    cases hcurrent

/-- A value that the grammar reads, at any depth and in any context, resolves to a colour in range:
its components and its alpha are missing or finite, its alpha between zero and one, its hue within
one turn, and it is a legacy colour if and only if its space is one. Powers, roots and angles may
come out at anything. -/
theorem resolved_inRange (options : Options Extended) (inside : Bool) (levels depth : ℕ)
    {tokens rest : List (Token Extended)} {value : ColorValue Extended}
    {resolved : Resolved Extended} (hvalue : (rule levels).run tokens = (some value, rest))
    (hresolved : resolveWith (currentIn options inside) options.dimensions depth value =
      some resolved) : resolved.InRange := by
  refine inRange_of_resolveWith (fun {levels resolved} hcurrent => ?_)
    (rule_sharesBetween levels _ _ _ hvalue) hresolved
  cases inside with
  | true => cases hcurrent
  | false => exact inRange_of_resolveCurrentColor hcurrent

end Contexts

/-- The tokens of `lch(50 20 400)`, with the given hue. -/
def lchTokens (hue : ℚ) : List (Token Extended) :=
  [.function "lch", .number (rational 50), .number (rational 20), .number (rational hue),
    .closeParen]

/-- The tokens of `color-mix(in lch, lch(50 20 400), lch(50 20 350) 30%)`. -/
def lchMixTokens : List (Token Extended) :=
  [.function "color-mix", .ident "in", .ident "lch", .comma] ++ lchTokens 400 ++ [.comma] ++
    lchTokens 350 ++ [.percentage (rational 30), .closeParen]

/-- A mix of two hues whose shorter arc passes zero. It needs no powers, roots or angles. -/
theorem resolved_inRange_lchMix :
    let _ : Elementary Extended := ⟨fun _ _ => .nan, fun _ => .nan, fun _ _ => .nan,
      fun _ _ => .nan, fun _ => .nan, fun _ => .nan⟩
    ∃ value rest resolved, (rule 2).run lchMixTokens = (some value, rest) ∧
      resolve {} value = some resolved ∧ resolved = ⟨⟨.lch,
        ⟨some (rational 50), some (rational 20), some (rational 25)⟩, some (rational 1)⟩, false⟩ ∧
      resolved.InRange := by
  intro _
  -- The hues 40 and 350 are mixed over zero, since the arc there is the shorter one.
  have hmix : ((rule 2).run lchMixTokens).1.bind (resolve {}) = some ⟨⟨.lch,
      ⟨some (rational 50), some (rational 20), some (rational 25)⟩, some (rational 1)⟩, false⟩ := by
    decide +kernel
  obtain ⟨value, hvalue, hresolved⟩ := Option.bind_eq_some_iff.1 hmix
  have hrun : (rule 2).run lchMixTokens = (some value, ((rule 2).run lchMixTokens).2) :=
    Prod.ext hvalue rfl
  exact ⟨value, _, _, hrun, hresolved, rfl,
    resolved_inRange {} false 2 maxNestingDepth hrun hresolved⟩

end ColorValue

end CssColor
