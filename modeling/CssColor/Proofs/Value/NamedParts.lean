import CssColor.Proofs.Value.Range

/-!
# Colours that name the parts of their origin

A colour relative to an origin, all of whose arguments are names of components or of the alpha, has
those parts of the origin in their places (`ColorValue.resolveWith_naming`): the origin is
converted to the space, its parts are made finite, rearranged (`Color.rearranged`) and brought
within the ranges of the space. A colour function without an origin has gone through all that
already, so its own names in order give the same colour again.
-/

namespace CssColor

open Extended

/-! ## Parts -/

/-- A part of a colour: one of its components, or its alpha. -/
inductive Part where
  | component (index : Index)
  | alpha
deriving DecidableEq, Repr

/-- The name of a part in a space. -/
def Space.partName (space : Space) : Part → String
  | .component index => space.componentNames.get index
  | .alpha => "alpha"

/-- The three components in order. -/
def Part.inOrder : Triple Part := .ofFn .component

section Parts

variable {K : Type}

/-- The part of a colour. A missing one is `none`. -/
def Color.part (color : Color K) : Part → Option K
  | .component index => color.components.get index
  | .alpha => color.alpha

/-- The arguments that name a part for each component, and one for the alpha if it is given. -/
def Arguments.naming (space : Space) (parts : Triple Part) (alpha : Option Part) : Arguments K where
  components := parts.map fun part => .keyword (space.partName part)
  alpha := alpha.map fun part => .keyword (space.partName part)

variable [Scalar K] [Elementary K]

/-- The colour in a space with other parts of it as its components, and one as its alpha if it is
given. All parts are finite and within their ranges, and a legacy space gives a colour of sRGB. -/
def Color.rearranged (color : Color K) (space : Space) (parts : Triple Part)
    (alpha : Option Part) : Color K :=
  let converted := (color.toSpace space).toFinite
  let alpha :=
    match alpha with
    | some part => converted.part part
    | none => color.alpha
  let placed : Color K := ⟨space, parts.map converted.part, alpha.map (Number.clamp 0.0 1.0)⟩
  placed.clamp.toSpace space.relativeOutput

/-- The names of a space are told apart, so each stands for its own part. -/
theorem Color.lookup_partName (color : Color K) (space : Space) (part : Part) :
    (color.bindings space).lookup (space.partName part) =
      some ((color.toSpace space).toFinite.part part) := by
  cases space <;> rcases part with (_ | _ | _) | _ <;> rfl

end Parts

/-! ## Numbers that stay as they are -/

section Settled

variable {x : Extended}

/-- A rational of the size of a finite number. -/
def Extended.IsStorable (x : Extended) : Prop := Between (-largestValue) largestValue x

/-- The largest finite number has no sign. -/
theorem Extended.largestValue_nonneg : 0 ≤ largestValue := Nat.cast_nonneg _

/-- What lies between minus a full turn and a full turn is storable. -/
theorem Extended.Between.isStorable {lo hi : ℚ} (h : Between lo hi x) (hlo : -360 ≤ lo)
    (hhi : hi ≤ 360) : IsStorable x := by
  obtain ⟨a, rfl, ha, ha'⟩ := h
  have hlow := le_largestValue (neg_le_of_neg_le (hlo.trans ha))
  exact ⟨a, rfl, neg_le_of_neg_le hlow, le_largestValue (ha'.trans hhi)⟩

/-- A hue within one turn is storable. -/
theorem Extended.InTurn.isStorable (h : InTurn x) : IsStorable x := by
  obtain ⟨a, rfl, ha, ha'⟩ := h
  exact Between.isStorable ⟨a, rfl, ha, ha'.le⟩ (by norm_num) le_rfl

/-- A storable number is finite, so it stays as it is. -/
theorem Extended.IsStorable.toFinite_eq_self (h : IsStorable x) : Scalar.toFinite x = x := by
  obtain ⟨a, rfl, hlow, hhigh⟩ := h
  unfold Scalar.toFinite
  rw [isNaN_rational]
  exact clamp_eq_self hlow hhigh

/-- What a number is replaced by if it is not finite is storable. -/
theorem Extended.isStorable_toFinite (x : Extended) : IsStorable (Scalar.toFinite x) := by
  have hsigns := neg_le_self largestValue_nonneg
  unfold Scalar.toFinite
  cases x with
  | nan => exact Between.isStorable ⟨0, zero_eq, le_rfl, le_rfl⟩ (by norm_num) (by norm_num)
  | infinite s =>
    cases s with
    | false => exact ⟨largestValue, rfl, hsigns, le_rfl⟩
    | true => exact ⟨-largestValue, rfl, le_rfl, hsigns⟩
  | rational a =>
    rw [isNaN_rational]
    exact between_clamp hsigns a

/-- A hue within one turn is not moved. -/
theorem Cylinder.normalizeHue_of_inTurn (h : InTurn x) : normalizeHue x = x := by
  obtain ⟨a, rfl, hlow, hhigh⟩ := h
  rw [normalizeHue_rational, (toIcoMod_eq_self fullTurn_pos).2 ⟨hlow, by rwa [zero_add]⟩]

/-- A component is clamped to a percentage or to a share of one, kept from being negative, brought
into one turn, or left alone. -/
theorem Space.clampComponent_cases (space : Space) (index : Index) :
    (space.clampComponent index : Extended → Extended) = Number.clamp 0.0 100.0 ∨
      (space.clampComponent index : Extended → Extended) = Number.clamp 0.0 1.0 ∨
      (space.clampComponent index : Extended → Extended) = (Number.max · 0.0) ∨
      (∀ x : Extended, InTurn (space.clampComponent index x) ∧
        (InTurn x → space.clampComponent index x = x)) ∨
      (space.clampComponent index : Extended → Extended) = id := by
  -- A hue within one turn is a number that is not moved.
  have hhue : ∀ x : Extended,
      InTurn (if Number.isNaN (Cylinder.normalizeHue x) then 0.0 else Cylinder.normalizeHue x) ∧
        (InTurn x → (if Number.isNaN (Cylinder.normalizeHue x) then 0.0
          else Cylinder.normalizeHue x) = x) := by
    refine fun x => ⟨Cylinder.inTurn_normalizeHue_or_zero x, fun hx => ?_⟩
    obtain ⟨a, rfl, -⟩ := id hx
    rw [Cylinder.normalizeHue_of_inTurn hx, isNaN_rational]
    rfl
  cases space <;> cases index <;> first
    | exact .inr (.inr (.inr (.inr rfl)))
    | exact .inl rfl
    | exact .inr (.inl rfl)
    | exact .inr (.inr (.inl rfl))
    | exact .inr (.inr (.inr (.inl hhue)))

/-- A clamped number is storable, and clamping it once more changes nothing. -/
theorem Extended.clamp_settled {hi : ℚ} (hpos : 0 ≤ hi) (hle : hi ≤ 360) (a : ℚ) :
    IsStorable (Number.clamp (rational 0) (rational hi) (rational a)) ∧
      Number.clamp (rational 0) (rational hi)
        (Number.clamp (rational 0) (rational hi) (rational a)) =
          Number.clamp (rational 0) (rational hi) (rational a) := by
  have hbetween := between_clamp hpos a
  obtain ⟨b, hb, hlo, hhi⟩ := id hbetween
  exact ⟨hbetween.isStorable (by norm_num) hle, by rw [hb, clamp_eq_self hlo hhi]⟩

/-- A component that has been brought within the range of its space is storable and stays there. -/
theorem Space.clampComponent_settled (space : Space) (index : Index) (h : IsStorable x) :
    IsStorable (space.clampComponent index x) ∧
      space.clampComponent index (space.clampComponent index x) =
        space.clampComponent index x := by
  obtain ⟨a, rfl, hlow, hhigh⟩ := id h
  -- One case for each way to bring a component into its range.
  rcases space.clampComponent_cases index with heq | heq | heq | hhue | heq
  · rw [heq, zero_eq, hundred_eq]
    exact clamp_settled (by norm_num) (by norm_num) a
  · rw [heq, zero_eq, one_eq]
    exact clamp_settled (by norm_num) (by norm_num) a
  · rw [heq]
    dsimp only
    rw [zero_eq, max_rational, max_rational, max_eq_left (le_max_right a 0)]
    exact ⟨⟨_, rfl, hlow.trans (le_max_left a 0), max_le hhigh largestValue_nonneg⟩, rfl⟩
  · obtain ⟨hturn, -⟩ := hhue (rational a)
    exact ⟨hturn.isStorable, (hhue _).2 hturn⟩
  · rw [heq]
    exact ⟨h, rfl⟩

end Settled

/-! ## Colours -/

section Colors

variable {space : Space} {dimensions : Lookup Extended} {color : Color Extended}

/-- All parts of the colour are missing or storable, and its components are within the ranges of
its space. -/
structure Color.IsStored (color : Color Extended) : Prop where
  components : ∀ index, ∀ x ∈ color.components.get index,
    IsStorable x ∧ color.space.clampComponent index x = x
  alpha : ∀ alpha ∈ color.alpha, Between 0 1 alpha

/-- A number between zero and one is not changed by clamping it. -/
theorem Extended.Between.clamp_eq_self {x : Extended} (h : Between 0 1 x) :
    Number.clamp 0.0 1.0 x = x := by
  obtain ⟨a, rfl, hlow, hhigh⟩ := h
  rw [zero_eq, one_eq, Extended.clamp_eq_self hlow hhigh]

/-- An alpha between zero and one stays as it is when it is made finite and clamped. -/
theorem alpha_settled {alpha : Option Extended} (h : ∀ x ∈ alpha, Between 0 1 x) :
    alpha.map (Number.clamp 0.0 1.0) = alpha ∧ alpha.map Scalar.toFinite = alpha := by
  cases alpha with
  | none => exact ⟨rfl, rfl⟩
  | some x =>
    have hx := h x rfl
    have hfinite := (hx.isStorable (by norm_num) (by norm_num)).toFinite_eq_self
    have hclamp := hx.clamp_eq_self
    simp only [Option.map_some, hfinite, hclamp, and_self]

/-- A settled colour stays as it is when its parts are made finite and brought into range again. -/
theorem Color.IsStored.clamp_toFinite (h : color.IsStored) :
    color.toFinite = color ∧ color.clamp = color := by
  obtain ⟨space, ⟨first, second, third⟩, alpha⟩ := color
  -- What has been stored is finite and within its range, so neither step changes it.
  have hmap : ∀ index : Index, ∀ component : Option Extended,
      (∀ x ∈ component, IsStorable x ∧ space.clampComponent index x = x) →
        component.map Scalar.toFinite = component ∧
          component.map (space.clampComponent index) = component := by
    intro index component hcomponent
    cases component with
    | none => exact ⟨rfl, rfl⟩
    | some x =>
      obtain ⟨hstorable, hrange⟩ := hcomponent x rfl
      simp only [Option.map_some, hstorable.toFinite_eq_self, hrange, and_self]
  obtain ⟨hfinite, hrange⟩ := hmap .first first (h.components .first)
  obtain ⟨hfinite', hrange'⟩ := hmap .second second (h.components .second)
  obtain ⟨hfinite'', hrange''⟩ := hmap .third third (h.components .third)
  have halpha := (alpha_settled h.alpha).2
  refine ⟨?_, ?_⟩
  · show (⟨space, ⟨first.map _, second.map _, third.map _⟩, alpha.map _⟩ : Color Extended) = _
    rw [hfinite, hfinite', hfinite'', halpha]
  · show (⟨space, ⟨first.map _, second.map _, third.map _⟩, alpha⟩ : Color Extended) = _
    rw [hrange, hrange', hrange'']

/-- Arguments without names to refer to give a settled colour. -/
theorem Arguments.isStored_of_resolve {arguments : Arguments Extended}
    (h : arguments.resolve space [] (some 1.0) dimensions = some color) :
    color.IsStored ∧ color.space = space := by
  have hopaque : ∀ alpha ∈ some (1.0 : Extended), Between 0 1 alpha := by
    rintro _ ⟨⟩
    exact ⟨1, one_eq, zero_le_one, le_rfl⟩
  obtain ⟨hrange, hspace⟩ := inRange_of_resolve hopaque h
  refine ⟨⟨fun index x hx => ?_, hrange.between_alpha⟩, hspace⟩
  obtain ⟨components, alpha, rfl, hcomponents, -⟩ := exists_of_resolve h
  rw [Color.get_clamp] at hx
  obtain ⟨y, hy, rfl⟩ := Option.map_eq_some_iff.1 hx
  obtain ⟨z, rfl⟩ := Argument.eq_toFinite_of_resolve (by rw [hcomponents index, hy])
  exact space.clampComponent_settled index (isStorable_toFinite z)

variable [Elementary Extended]

/-- A keyword for a part of the origin resolves to this part. -/
theorem Argument.resolve_partName (color : Color Extended) (scope : Scope Extended) (part : Part)
    (hscope : scope.bindings = color.bindings space) :
    (Argument.keyword (space.partName part)).resolve scope =
      some ((color.toSpace space).toFinite.part part) := by
  -- Making a value finite twice is making it finite once.
  have hfinite : ∀ value : Option Extended,
      (value.map Scalar.toFinite).map Scalar.toFinite = value.map Scalar.toFinite := by
    intro value
    rw [Option.map_map]
    exact congrArg (value.map ·) (funext fun x => (isStorable_toFinite x).toFinite_eq_self)
  rw [Argument.resolve, hscope, Color.lookup_partName, Option.map_some]
  cases part with
  | component index =>
    show some (((color.toSpace space).toFinite.components.get index).map Scalar.toFinite) =
      some ((color.toSpace space).toFinite.components.get index)
    rw [Color.get_toFinite, hfinite]
  | alpha => exact congrArg some (hfinite _)

/-- Arguments that name parts of an origin in range give these parts in their places. -/
theorem Resolved.ofOrigin?_naming (h : color.InRange) (space : Space) (parts : Triple Part)
    (alpha : Option Part) (dimensions : Lookup Extended) :
    ofOrigin? color space (.naming space parts alpha) dimensions =
      some ⟨color.rearranged space parts alpha, false⟩ := by
  have hcomponent (index : Index) (part : Part) := Argument.resolve_partName color
    (Arguments.componentScope space (color.bindings space) dimensions index) part rfl
  obtain ⟨hclamp, hfinite⟩ := alpha_settled h.between_alpha
  unfold ofOrigin? Color.rearranged Arguments.resolve Arguments.naming
  cases alpha with
  | none =>
    -- The alpha of the origin needs no clamping.
    simp only [Triple.map, Option.map_none, hcomponent, hfinite, hclamp]
    rfl
  | some part =>
    have halpha := Argument.resolve_partName color
      (Arguments.alphaScope (color.bindings space) dimensions) part rfl
    simp only [Triple.map, Option.map_some, hcomponent, halpha]
    rfl

/-- A settled colour of a modern space is what its own parts in order give. -/
theorem Color.IsStored.rearranged_inOrder (h : color.IsStored)
    (hlegacy : color.space.isLegacy = false) :
    color.rearranged color.space Part.inOrder none = color ∧
      color.rearranged color.space Part.inOrder (some .alpha) = color := by
  obtain ⟨hfinite, hclamp⟩ := h.clamp_toFinite
  obtain ⟨halpha, -⟩ := alpha_settled h.alpha
  -- The colour is put out in its own space, so it is converted neither before nor after.
  have hself : color.toSpace color.space = color := if_pos rfl
  have houtput : color.space.relativeOutput = color.space := by
    rw [Space.relativeOutput, hlegacy, if_neg Bool.false_ne_true]
  have hsame : (⟨color.space, color.components, color.alpha.map (Number.clamp 0.0 1.0)⟩ :
      Color Extended).clamp.toSpace color.space = color := by
    rw [halpha, hclamp, hself]
  unfold rearranged
  simp only [hself, hfinite, houtput]
  exact ⟨hsame, hsame⟩

end Colors

/-! ## Values -/

namespace ColorValue

section Contexts

variable [Elementary Extended]

/-- A colour relative to an origin, whose arguments are names of parts, has the parts of the
origin's colour that they name, at any depth and in any context. With the names of a modern space
in order, and those of the alpha or none, it is the colour of an origin that is a function of that
space. Powers, roots and angles may come out at anything. -/
theorem resolveWith_naming (options : Options Extended) (inside : Bool) (levels : ℕ)
    {origin : ColorValue Extended} {resolved : Resolved Extended} (hshares : origin.SharesBetween)
    (hresolved : resolveWith (currentIn options inside) options.dimensions levels origin =
      some resolved) (space : Space) :
    (∀ parts alpha, resolveWith (currentIn options inside) options.dimensions (levels + 1)
        (relative origin space (.naming space parts alpha)) =
          some ⟨resolved.color.rearranged space parts alpha, false⟩) ∧
      ∀ arguments, origin = function space arguments → space.isLegacy = false →
        ∀ alpha ∈ [none, some Part.alpha],
          resolveWith (currentIn options inside) options.dimensions (levels + 1)
            (relative origin space (.naming space Part.inOrder alpha)) = some resolved := by
  -- The resolved origin is in range, so each of its parts is storable.
  have hrange : resolved.color.InRange := by
    refine (inRange_of_resolveWith (fun {levels resolved} hcurrent => ?_) hshares
      hresolved).color_inRange
    cases inside with
    | true => cases hcurrent
    | false => exact inRange_of_resolveCurrentColor hcurrent
  have hparts : ∀ parts alpha, resolveWith (currentIn options inside) options.dimensions
      (levels + 1) (relative origin space (.naming space parts alpha)) =
        some ⟨resolved.color.rearranged space parts alpha, false⟩ := by
    intro parts alpha
    rw [resolveWith, hresolved]
    exact Resolved.ofOrigin?_naming hrange space parts alpha options.dimensions
  refine ⟨hparts, ?_⟩
  rintro arguments rfl hlegacy alpha halpha
  -- The origin is a colour function of the same space, and no part of it changes.
  rw [resolveWith] at hresolved
  obtain ⟨color, hcolor, rfl⟩ := Option.map_eq_some_iff.1 hresolved
  obtain ⟨hsettled, rfl⟩ := Arguments.isStored_of_resolve hcolor
  obtain ⟨hdefault, hnamed⟩ := hsettled.rearranged_inOrder hlegacy
  rw [hparts, hlegacy]
  rcases List.mem_pair.1 halpha with rfl | rfl
  · rw [hdefault]
  · rw [hnamed]

end Contexts

/-- The parts of `lab(50 none 20 / 50%)` as `lab(from … b a alpha / l)`, where a lightness of 50 is
an alpha of one, and in order as `lab(from … l a b / alpha)`. -/
theorem resolveWith_naming_lab :
    let _ : Elementary Extended := ⟨fun _ _ => .nan, fun _ => .nan, fun _ _ => .nan,
      fun _ _ => .nan, fun _ => .nan, fun _ => .nan⟩
    let origin : ColorValue Extended :=
      function .lab ⟨⟨.number (rational 50), .missing, .number (rational 20)⟩,
        some (.percentage (rational 50))⟩
    let resolved : Resolved Extended :=
      ⟨⟨.lab, ⟨some (rational 50), none, some (rational 20)⟩, some (rational (1 / 2))⟩, false⟩
    let options : Options Extended := {}
    origin.SharesBetween ∧
      resolveWith (currentIn options false) options.dimensions 31 origin = some resolved ∧
      (relative origin .lab ⟨⟨.keyword "b", .keyword "a", .keyword "alpha"⟩,
        some (.keyword "l")⟩).resolve options = some ⟨⟨.lab,
          ⟨some (rational 20), none, some (rational (1 / 2))⟩, some (rational 1)⟩, false⟩ ∧
      (relative origin .lab ⟨⟨.keyword "l", .keyword "a", .keyword "b"⟩,
        some (.keyword "alpha")⟩).resolve options = some resolved := by
  intro _ origin resolved options
  have hshares : origin.SharesBetween := trivial
  have hresolved : resolveWith (currentIn options false) options.dimensions 31 origin =
      some resolved := by
    decide +kernel
  obtain ⟨hparts, hinOrder⟩ := resolveWith_naming options false 31 hshares hresolved .lab
  have hrearranged : resolved.color.rearranged .lab
      ⟨.component .third, .component .second, .alpha⟩ (some (.component .first)) =
        ⟨.lab, ⟨some (rational 20), none, some (rational (1 / 2))⟩, some (rational 1)⟩ := by
    decide +kernel
  refine ⟨hshares, hresolved, ?_, hinOrder _ rfl rfl _ (List.mem_pair.2 (.inr rfl))⟩
  rw [← hrearranged]
  exact hparts ⟨.component .third, .component .second, .alpha⟩ (some (.component .first))

end ColorValue

end CssColor
