import CssColor.Proofs.Number.Extended
import CssColor.Proofs.Value.Nesting
import Mathlib.Order.MinMax

/-!
# The value of `currentcolor`

Resolving a value that holds the keyword `currentcolor` is resolving the value with its meaning in
place of the keyword (`ColorValue.resolve_replaceCurrent`). Nothing of the way the keyword is looked
up is seen around it: neither that its value comes from a text, nor the level that it takes, nor
that the keyword may not stand in its own value.

`ColorValue.replaceCurrent` puts a value in place of the keyword, and `ColorValue.mentionsCurrent`
tells whether there is one. With no bound on the levels this is the substitution lemma of an
evaluator (`resolveUnlimitedWith_replaceCurrent`). The bound stays out of the way, as the keyword
takes one level more than its value in the same place (`nestingWith_replaceCurrent`).
-/

namespace CssColor.ColorValue

variable {K : Type}

/-- The value with `current` in place of the keyword `currentcolor`, also in origins and in the
colours of mixes. -/
def replaceCurrent (value current : ColorValue K) : ColorValue K :=
  match value with
  | currentColor => current
  | relative origin space arguments => relative (origin.replaceCurrent current) space arguments
  | mix space arc first firstShare second secondShare =>
    mix space arc (first.replaceCurrent current) firstShare (second.replaceCurrent current)
      secondShare
  | value => value

/-- Whether the keyword `currentcolor` occurs in a value. -/
def mentionsCurrent : ColorValue K → Bool
  | currentColor => true
  | relative origin _ _ => origin.mentionsCurrent
  | mix _ _ first _ second _ => first.mentionsCurrent || second.mentionsCurrent
  | _ => false

/-! ## Levels -/

section Levels

variable {needed needed' : ℕ}

/-- The levels that the keyword needs are those of the value in its place. -/
theorem nestingWith_replaceCurrent (needed : ℕ) (current value : ColorValue K) :
    nestingWith needed (value.replaceCurrent current) =
      nestingWith (nestingWith needed current) value := by
  induction value with
  | named | transparent | hex | function => rfl
  | currentColor => rfl
  | relative origin space arguments ih => exact congrArg (· + 1) ih
  | mix space arc first firstShare second secondShare ihfirst ihsecond =>
    exact congrArg₂ (max · · + 1) ihfirst ihsecond

/-- If the keyword needs more levels, a value needs as many or more. -/
theorem nestingWith_mono (h : needed ≤ needed') (value : ColorValue K) :
    nestingWith needed value ≤ nestingWith needed' value := by
  induction value with
  | named | transparent | hex | function => simp only [nestingWith, le_refl]
  | currentColor => exact h
  | relative origin space arguments ih => exact Nat.add_le_add_right ih 1
  | mix space arc first firstShare second secondShare ihfirst ihsecond =>
    exact Nat.add_le_add_right (max_le_max ihfirst ihsecond) 1

/-- The levels of a value without the keyword are its own. -/
theorem nestingWith_of_not_mentionsCurrent (needed needed' : ℕ) {value : ColorValue K}
    (h : value.mentionsCurrent = false) : nestingWith needed value = nestingWith needed' value := by
  induction value with
  | named | transparent | hex | function => rfl
  | currentColor => cases h
  | relative origin space arguments ih => exact congrArg (· + 1) (ih h)
  | mix space arc first firstShare second secondShare ihfirst ihsecond =>
    obtain ⟨hfirst, hsecond⟩ := Bool.or_eq_false_iff.1 h
    exact congrArg₂ (max · · + 1) (ihfirst hfirst) (ihsecond hsecond)

end Levels

/-! ## Colours -/

variable [Scalar K] [Elementary K]

/-- With no bound on the levels, a value in place of the keyword stands for its colour. -/
theorem resolveUnlimitedWith_replaceCurrent (keyword : Option (Resolved K)) (dimensions : Lookup K)
    (current value : ColorValue K) :
    resolveUnlimitedWith keyword dimensions (value.replaceCurrent current) =
      resolveUnlimitedWith (resolveUnlimitedWith keyword dimensions current) dimensions value := by
  induction value with
  | named | transparent | hex | function => rfl
  | currentColor => rfl
  | relative origin space arguments ih =>
    rw [replaceCurrent, resolveUnlimitedWith, resolveUnlimitedWith, ih]
  | mix space arc first firstShare second secondShare ihfirst ihsecond =>
    rw [replaceCurrent, resolveUnlimitedWith, resolveUnlimitedWith, ihfirst, ihsecond]

/-- A value without the keyword has its colour whatever the keyword stands for. -/
theorem resolveUnlimitedWith_of_not_mentionsCurrent (keyword keyword' : Option (Resolved K))
    (dimensions : Lookup K) {value : ColorValue K} (h : value.mentionsCurrent = false) :
    resolveUnlimitedWith keyword dimensions value =
      resolveUnlimitedWith keyword' dimensions value := by
  induction value with
  | named | transparent | hex | function => rfl
  | currentColor => cases h
  | relative origin space arguments ih =>
    rw [resolveUnlimitedWith, resolveUnlimitedWith, ih h]
  | mix space arc first firstShare second secondShare ihfirst ihsecond =>
    obtain ⟨hfirst, hsecond⟩ := Bool.or_eq_false_iff.1 h
    rw [resolveUnlimitedWith, resolveUnlimitedWith, ihfirst hfirst, ihsecond hsecond]

variable {options : Options K} {current value : ColorValue K} {levels : ℕ}

/-- Where the levels are enough, a value resolves as with no bound, and the keyword stands for the
colour of its own value. -/
theorem resolveWith_of_nestingWith_le (hcurrent : currentValue? options = some current)
    (hlevels : nestingWith (nestingWith 0 current + 1) value ≤ levels) :
    resolveWith (resolveCurrentColor options) options.dimensions levels value =
      resolveUnlimitedWith (resolveUnlimitedWith none options.dimensions current)
        options.dimensions value := by
  have hbounded :=
    resolveWith_eq_ite (resolveCurrentColor_eq_ite options) options.dimensions levels value
  rw [hcurrent] at hbounded
  exact hbounded.trans (if_pos hlevels)

/-- The keyword `currentcolor` stands for its value: where that does not hold the keyword itself and
the nested levels are within the bound, a value resolves as it does with the value of the keyword in
its place. -/
theorem resolve_replaceCurrent (hcurrent : currentValue? options = some current)
    (hfree : current.mentionsCurrent = false)
    (hlevels : nestingWith (nestingWith 0 current + 1) value ≤ maxNestingDepth) :
    value.resolve options = (value.replaceCurrent current).resolve options := by
  have hreplaced : nestingWith (nestingWith 0 current + 1) (value.replaceCurrent current) ≤
      maxNestingDepth := by
    rw [nestingWith_replaceCurrent, nestingWith_of_not_mentionsCurrent _ 0 hfree]
    exact (nestingWith_mono (Nat.le_succ _) value).trans hlevels
  -- Within the bound both are resolved without it, where the keyword is substituted.
  have hkeyword := resolveUnlimitedWith_of_not_mentionsCurrent
    (resolveUnlimitedWith none options.dimensions current) none options.dimensions hfree
  calc value.resolve options
    _ = resolveUnlimitedWith (resolveUnlimitedWith none options.dimensions current)
        options.dimensions value := resolveWith_of_nestingWith_le hcurrent hlevels
    _ = resolveUnlimitedWith (resolveUnlimitedWith none options.dimensions current)
        options.dimensions (value.replaceCurrent current) := by
      rw [resolveUnlimitedWith_replaceCurrent, hkeyword]
    _ = (value.replaceCurrent current).resolve options :=
      (resolveWith_of_nestingWith_le hcurrent hreplaced).symm

/-- The keyword in the origin of a colour of a mix, where its value is relative to the value of a
property. Both give the colour three quarters of the way to that value. It needs no powers, roots or
angles. -/
theorem resolve_replaceCurrent_mix :
    let _ : Elementary Extended := ⟨fun _ _ => .nan, fun _ => .nan, fun _ _ => .nan,
      fun _ _ => .nan, fun _ => .nan, fun _ => .nan⟩
    let options : Options Extended :=
      { currentColor := some "rgb(from var(--accent) b g r)"
        properties := .table (.ofList [("--accent", "#369")]) }
    let current : ColorValue Extended :=
      relative (hex ⟨51, 102, 153, 255⟩) .rgb ⟨⟨.keyword "b", .keyword "g", .keyword "r"⟩, none⟩
    let mixed (first second : ColorValue Extended) : ColorValue Extended :=
      mix .srgb none
        (relative first .hsl ⟨⟨.keyword "h", .keyword "s", .number (.rational 60)⟩, none⟩) none
        second (some (.rational 25))
    currentValue? options = some current ∧ current.mentionsCurrent = false ∧
      nestingWith (nestingWith 0 current + 1) (mixed currentColor currentColor) = 4 ∧
      (mixed currentColor currentColor).resolve options =
        (mixed current current).resolve options ∧
      (mixed current current).resolve options = some
        ⟨⟨.srgb, ⟨some (.rational 0.75), some (.rational 0.55), some (.rational 0.35)⟩,
          some (.rational 1)⟩, false⟩ := by
  intro _ options current mixed
  have hcurrent : currentValue? options = some current := by decide +kernel
  have hlevels : nestingWith (nestingWith 0 current + 1) (mixed currentColor currentColor) = 4 :=
    rfl
  exact ⟨hcurrent, rfl, hlevels,
    resolve_replaceCurrent hcurrent rfl (hlevels.le.trans (by decide)), by decide +kernel⟩

end CssColor.ColorValue
