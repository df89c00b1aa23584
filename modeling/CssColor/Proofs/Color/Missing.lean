import CssColor.Proofs.Color.Range

/-!
# Missing components in another space

A component of a colour that is converted to be mixed is missing for one of two reasons: the colour
misses a component of the same kind (`Color.Misses`), or it is a hue, and with zeros for what is
missing the converted colour is a gray (`Color.filledIn`). All others are those of the plain
conversion (`Color.components_toSpaceForMixing`). Between the two scales of sRGB the plain
conversion keeps what is missing itself, at places of the same kind.
-/

namespace CssColor

/-! ## Kinds -/

namespace Index

/-- There are three components. -/
theorem exists_iff {p : Index → Prop} :
    (∃ index, p index) ↔ p .first ∨ p .second ∨ p .third := by
  constructor
  · rintro ⟨index, h⟩
    cases index with
    | first => exact .inl h
    | second => exact .inr (.inl h)
    | third => exact .inr (.inr h)
  · rintro (h | h | h)
    · exact ⟨.first, h⟩
    · exact ⟨.second, h⟩
    · exact ⟨.third, h⟩

instance instDecidableExists {p : Index → Prop} [DecidablePred p] : Decidable (∃ index, p index) :=
  decidable_of_iff _ exists_iff.symm

end Index

/-- A space has at most one component of a kind, unless the kind is `other`. -/
theorem Space.index_eq_of_kind_eq {space : Space} {i j : Index}
    (hne : space.componentKinds.get i ≠ .other)
    (heq : space.componentKinds.get i = space.componentKinds.get j) : i = j := by
  revert hne heq
  cases space <;> cases i <;> cases j <;> decide

namespace Color

/-- The first component of a kind is the one that the space has of it. -/
theorem indexOfKind?_eq_some_iff {space : Space} {kind : ComponentKind} {index : Index}
    (hkind : kind ≠ .other) :
    indexOfKind? space.componentKinds kind = some index ↔
      space.componentKinds.get index = kind := by
  constructor
  · intro h
    unfold indexOfKind? at h
    split_ifs at h with hfirst hsecond hthird
    · cases h
      exact hfirst
    · cases h
      exact hsecond
    · cases h
      exact hthird
  · -- Kinds are not repeated within a space, except for the one that nothing is carried over to.
    rintro rfl
    have hindex {other : Index}
        (h : space.componentKinds.get other = space.componentKinds.get index) : other = index :=
      Space.index_eq_of_kind_eq (h ▸ hkind) h
    unfold indexOfKind?
    split_ifs with hfirst hsecond hthird
    · exact congrArg some (@hindex .first hfirst)
    · exact congrArg some (@hindex .second hsecond)
    · exact congrArg some (@hindex .third hthird)
    · cases index with
      | first => exact absurd rfl hfirst
      | second => exact absurd rfl hsecond
      | third => exact absurd rfl hthird

variable {K : Type} {color : Color K} {space : Space} {index : Index}

/-- A component of the kind is missing in the colour. Those of the kind `other` say nothing about
another space. -/
def Misses (color : Color K) (kind : ComponentKind) : Prop :=
  kind ≠ .other ∧
    ∃ index, color.space.componentKinds.get index = kind ∧ color.components.get index = none

instance instDecidableMisses (kind : ComponentKind) : Decidable (color.Misses kind) :=
  inferInstanceAs (Decidable (_ ∧ _))

/-- What a colour misses carries over to the component of the same kind. -/
theorem carriesMissing_iff :
    color.carriesMissing space index = true ↔ color.Misses (space.componentKinds.get index) := by
  unfold carriesMissing Misses
  simp only [List.any_cons, List.any_nil, Bool.or_false, Bool.or_eq_true, Bool.and_eq_true,
    Option.isNone_iff_eq_none, bne_iff_ne, beq_iff_eq]
  rw [← Index.exists_iff (p := fun source => (color.components.get source = none ∧
    color.space.componentKinds.get source ≠ .other) ∧
      indexOfKind? space.componentKinds (color.space.componentKinds.get source) = some index)]
  constructor
  · -- A component that is missing here carries over to the one of the same kind there.
    rintro ⟨source, ⟨hmissing, hkind⟩, hindex⟩
    rw [indexOfKind?_eq_some_iff hkind] at hindex
    rw [hindex]
    exact ⟨hkind, source, rfl, hmissing⟩
  · rintro ⟨hkind, source, hsource, hmissing⟩
    rw [← hsource] at hkind
    exact ⟨source, ⟨hmissing, hkind⟩, (indexOfKind?_eq_some_iff hkind).2 hsource.symm⟩

/-! ## Conversions -/

variable [Scalar K]

/-- Whether a colour is a gray depends on its space and on its components, with zeros for the
missing ones. -/
theorem isAchromatic_congr {first second : Color K} (hspace : first.space = second.space)
    (hvalues : ∀ index, (first.components.get index).getD 0.0 =
      (second.components.get index).getD 0.0) : first.isAchromatic = second.isAchromatic := by
  have hsecond : first.values.second = second.values.second := hvalues .second
  have hthird : first.values.third = second.values.third := hvalues .third
  unfold isAchromatic
  rw [hspace, hsecond, hthird]

variable [Elementary K]

/-- What the plain conversion leaves missing, the colour misses. -/
theorem misses_of_get_toSpace (h : color.space ≠ space)
    (hnone : (color.toSpace space).components.get index = none) :
    color.Misses (space.componentKinds.get index) := by
  unfold toSpace at hnone
  rw [if_neg h] at hnone
  dsimp only at hnone
  rw [Triple.get_map, Option.map_eq_none_iff] at hnone
  unfold componentsIn at hnone
  -- Only two conversions keep missing components, and both keep the kinds in their places.
  split at hnone
  · next hsource =>
    rw [Triple.get_map, Option.map_eq_none_iff] at hnone
    exact ⟨by cases index <;> decide, index, by rw [hsource]; rfl, hnone⟩
  · next hsource =>
    rw [Triple.get_map, Option.map_eq_none_iff] at hnone
    exact ⟨by cases index <;> decide, index, by rw [hsource]; rfl, hnone⟩
  · rw [Triple.get_map] at hnone
    cases hnone

/-- The colour in another space, with zeros in place of the components whose kind it misses. -/
def filledIn (color : Color K) (space : Space) : Color K :=
  { color.toSpace space with
    components := .ofFn fun index =>
      if color.Misses (space.componentKinds.get index) then some 0.0
      else (color.toSpace space).components.get index }

/-- A component of a colour that is converted to be mixed. -/
theorem get_toSpaceForMixing (h : color.space ≠ space) (index : Index) :
    (color.toSpaceForMixing space).components.get index =
      if color.Misses (space.componentKinds.get index) ∨
          space.hueIndex? = some index ∧ (color.filledIn space).isAchromatic = true then none
      else (color.toSpace space).components.get index := by
  have hcarried (index : Index) :
      (if color.carriesMissing space index = true then none
        else (color.toSpace space).components.get index) =
      if color.Misses (space.componentKinds.get index) then none
        else (color.toSpace space).components.get index :=
    if_congr carriesMissing_iff rfl rfl
  -- A component that carries over counts as zero, and so does one that is filled in.
  have hgray : Color.isAchromatic { color.toSpace space with
      components := .ofFn fun index =>
        if color.carriesMissing space index = true then none
        else (color.toSpace space).components.get index } =
      (color.filledIn space).isAchromatic := by
    refine isAchromatic_congr rfl fun index => ?_
    rw [Triple.get_ofFn, hcarried index]
    unfold filledIn
    rw [Triple.get_ofFn]
    split <;> rfl
  unfold toSpaceForMixing
  rw [if_neg h]
  dsimp only
  rw [Triple.get_ofFn, Triple.get_ofFn, hcarried index, hgray]
  by_cases hmisses : color.Misses (space.componentKinds.get index)
  · rw [if_pos hmisses, ite_self, if_pos (.inl hmisses)]
  · simp only [hmisses, if_false, false_or, Bool.and_eq_true, beq_iff_eq,
      and_comm (a := space.hueIndex? = some index)]

/-- In its own space a colour to be mixed stays as it is. In another one it misses the components
whose kind it missed before, and the hue if the colour is a gray once zeros are filled in; the
others are those of the plain conversion, and so is its alpha. -/
theorem components_toSpaceForMixing (color : Color K) (space : Space) :
    color.toSpaceForMixing color.space = color ∧
    (color.space ≠ space →
      (color.toSpaceForMixing space).space = space ∧
      (color.toSpaceForMixing space).alpha = color.alpha ∧
      ∀ index,
        ((color.toSpaceForMixing space).components.get index = none ↔
          color.Misses (space.componentKinds.get index) ∨
            space.hueIndex? = some index ∧ (color.filledIn space).isAchromatic = true) ∧
        ∀ value, (color.toSpaceForMixing space).components.get index = some value →
          (color.toSpace space).components.get index = some value) := by
  constructor
  · exact if_pos rfl
  · intro h
    refine ⟨toSpaceForMixing_space, toSpaceForMixing_alpha, fun index => ?_⟩
    rw [get_toSpaceForMixing h]
    split_ifs with hmissing
    · exact ⟨iff_of_true rfl hmissing, fun value hvalue => by cases hvalue⟩
    · -- A component that was filled has a value, unless it was missing before.
      refine ⟨iff_of_false ?_ hmissing, fun value hvalue => hvalue⟩
      intro hnone
      exact hmissing (.inl (misses_of_get_toSpace h hnone))

open Extended in
/-- A green without a saturation is a gray in HWB, which has no component of that kind. -/
theorem components_toSpaceForMixing_gray :
    let _ : Elementary Extended := ⟨fun _ _ => .nan, fun _ => .nan, fun _ _ => .nan,
      fun _ _ => .nan, fun _ => .nan, fun _ => .nan⟩
    let green : Color Extended :=
      ⟨.hsl, ⟨some (rational 120), none, some (rational 50)⟩, some (rational 1)⟩
    green.space ≠ .hwb ∧
      ¬ green.Misses (Space.hwb.componentKinds.get .first) ∧
      (green.filledIn .hwb).isAchromatic = true ∧
      (green.toSpaceForMixing .hwb).components.get .first = none := by
  intro _ green
  have hspace : green.space ≠ .hwb := by decide
  have hgray : (green.filledIn .hwb).isAchromatic = true := by decide +kernel
  have hmissing := (((components_toSpaceForMixing green .hwb).2 hspace).2.2 .first).1
  exact ⟨hspace, by decide, hgray, hmissing.2 (.inr ⟨rfl, hgray⟩)⟩

end Color

end CssColor
