import CssColor.Proofs.Calc.Closure
import CssColor.Proofs.Calc.Value

/-!
# Totals of operands

What a sum adds and subtracts in rationals: the numbers, the percentages and the values of each unit
are folded into totals, and the values of the other terms are left. The sum of all of these is the
value of the sum (`Reduce.eq_totals_of_sum?`).
-/

namespace CssColor

open Token

namespace Extended

/-- The rational that a number is, and zero for the others. -/
def toRat (x : Extended) : ℚ := x.rational?.getD 0

/-- The number is a rational. -/
def IsRational (x : Extended) : Prop := x = rational x.toRat

/-- A number that is a rational is that rational. -/
theorem eq_of_rational? {x : Extended} {a : ℚ} (h : x.rational? = some a) :
    x = rational a := by
  cases x with
  | rational b => rw [Option.some.inj h]
  | _ => cases h

/-- The negation of a number has the negated rational, also where both are zero for want of one. -/
theorem toRat_neg (x : Extended) : (-x).toRat = -x.toRat := by
  cases x with
  | rational a => rfl
  | _ => exact neg_zero.symm

/-- The negation of a rational is a rational. -/
theorem IsRational.neg {x : Extended} (h : x.IsRational) : (-x).IsRational := by
  rw [h]
  rfl

/-- Rationals are added exactly, from left to right. -/
theorem sum_rational {xs : List Extended} (h : ∀ x ∈ xs, x.IsRational) :
    Number.sum xs = rational (xs.map toRat).sum := by
  have hfold : ∀ (xs : List Extended) (a : ℚ), (∀ x ∈ xs, x.IsRational) →
      xs.foldl (· + ·) (rational a) = rational (a + (xs.map toRat).sum) := by
    intro xs
    induction xs with
    | nil => exact fun a _ => congrArg rational (add_zero a).symm
    | cons x rest ih =>
      intro a h
      obtain ⟨hx, hrest⟩ := List.forall_mem_cons.1 h
      rw [List.foldl_cons, hx, rational_add, ih _ hrest, List.map_cons, List.sum_cons, add_assoc]
      rfl
  have hzero : (-0.0 : Extended) = rational 0 := congrArg rational (by norm_num)
  rw [Number.sum, hzero, hfold xs 0 h, zero_add]

end Extended

open Extended Expression

variable {σ : Assignment} {q : ℚ} {operands : List (Operand Extended)} {term : Term Extended}

/-- The value of a term, or zero where it has none. -/
def Assignment.valueOf (σ : Assignment) (term : Term Extended) : ℚ := (term.value? σ).getD 0

/-- The value of a term that has one. -/
theorem Assignment.valueOf_eq (h : term.value? σ = some q) : σ.valueOf term = q := by
  rw [valueOf, h]
  rfl

/-- A term that has a value has the value that is assumed for it. -/
theorem Assignment.value?_eq_valueOf (h : (term.value? σ).isSome = true) :
    term.value? σ = some (σ.valueOf term) := by
  obtain ⟨q, hq⟩ := Option.isSome_iff_exists.1 h
  rw [hq, valueOf_eq hq]

/-- The values of operands. -/
def Assignment.operandValues (σ : Assignment) (operands : List (Operand Extended)) :
    List (Operator × Option ℚ) :=
  operands.map fun operand => (operand.operator, operand.term.value? σ)

namespace Reduce

/-! ## Operands by kind -/

/-- The total of terms. -/
def termTotal (σ : Assignment) (terms : List (Term Extended)) : ℚ := (terms.map σ.valueOf).sum

/-- The total of numbers. -/
def numberTotal (values : List Extended) : ℚ := (values.map toRat).sum

/-- The total of values with a unit. -/
def unitTotal (σ : Assignment) (values : List (Extended × String)) : ℚ :=
  (values.map fun value => value.1.toRat * σ.unit value.2.toLower).sum

/-- The total of terms, one term at a time. -/
theorem termTotal_cons (term : Term Extended) (rest : List (Term Extended)) :
    termTotal σ (term :: rest) = σ.valueOf term + termTotal σ rest := List.sum_cons

/-- The total of numbers, one number at a time. -/
theorem numberTotal_cons (value : Extended) (rest : List Extended) :
    numberTotal (value :: rest) = value.toRat + numberTotal rest := List.sum_cons

/-- The total of values with units, one value at a time. -/
theorem unitTotal_cons (value : Extended × String) (rest : List (Extended × String)) :
    unitTotal σ (value :: rest) = value.1.toRat * σ.unit value.2.toLower + unitTotal σ rest :=
  List.sum_cons

/-- A sum is what is added less what is subtracted. -/
theorem eq_of_sum? (h : Operator.sum? (σ.operandValues operands) = some q) :
    q = termTotal σ (under .add operands) - termTotal σ (under .subtract operands) := by
  induction operands generalizing q with
  | nil =>
    cases h
    exact (sub_self _).symm
  | cons operand rest ih =>
    obtain ⟨operator, term⟩ := operand
    obtain ⟨a, b, c, hvalue, haddend, hrest, rfl⟩ := Operator.sum?_cons.1 h
    -- A term is counted on the side of its sign.
    have hterm : ∀ terms, termTotal σ ([term] ++ terms) = a + termTotal σ terms := fun terms => by
      rw [List.singleton_append, termTotal_cons, Assignment.valueOf_eq hvalue]
    rw [ih hrest, under_cons, under_cons]
    cases operator with
    | multiply => cases haddend
    | divide => cases haddend
    | add =>
      cases haddend
      rw [if_pos rfl, if_neg (by decide), List.nil_append, hterm]
      ring
    | subtract =>
      cases haddend
      rw [if_pos rfl, if_neg (by decide), List.nil_append, hterm]
      ring

/-- The total of terms is put together from those of their kinds. -/
theorem termTotal_eq (terms : List (Term Extended)) : termTotal σ terms =
    numberTotal (numbers terms) + numberTotal (percentages terms) * σ.percent
      + unitTotal σ (dimensions terms) + termTotal σ (others terms) := by
  -- A number that is no rational has no value, and counts as zero in both sums.
  have hmap : ∀ (x : Extended) (scale : ℚ),
      (x.rational?.map (· * scale)).getD 0 = x.toRat * scale := by
    intro x scale
    cases x with
    | rational a => rfl
    | _ => exact (zero_mul scale).symm
  induction terms with
  | nil => simp [termTotal, numberTotal, unitTotal, numbers, percentages, dimensions, others]
  | cons term rest ih =>
    rw [termTotal_cons, ih]
    -- Each kind of term is in one of the four lists, and the others do not have it.
    cases term with
    | number x =>
      show x.toRat + _ = numberTotal (x :: numbers rest) + _ + _ + _
      rw [numberTotal_cons]
      show _ = _ + numberTotal (percentages rest) * _ + unitTotal σ (dimensions rest)
        + termTotal σ (others rest)
      ring
    | percentage x =>
      show (x.rational?.map (· * σ.percent)).getD 0 + _ =
        _ + numberTotal (x :: percentages rest) * _ + _ + _
      rw [numberTotal_cons, hmap]
      show _ = numberTotal (numbers rest) + _ + unitTotal σ (dimensions rest)
        + termTotal σ (others rest)
      ring
    | dimension x unit =>
      show (x.rational?.map (· * σ.unit unit.toLower)).getD 0 + _ =
        _ + _ + unitTotal σ ((x, unit) :: dimensions rest) + _
      rw [unitTotal_cons, hmap]
      show _ = numberTotal (numbers rest) + numberTotal (percentages rest) * _ + _
        + termTotal σ (others rest)
      ring
    | symbol name =>
      show _ = _ + _ + _ + termTotal σ (.symbol name :: others rest)
      rw [termTotal_cons]
      show _ = numberTotal (numbers rest) + numberTotal (percentages rest) * _
        + unitTotal σ (dimensions rest) + _
      ring
    | expression text kind =>
      show _ = _ + _ + _ + termTotal σ (.expression text kind :: others rest)
      rw [termTotal_cons]
      show _ = numberTotal (numbers rest) + numberTotal (percentages rest) * _
        + unitTotal σ (dimensions rest) + _
      ring

/-- The number that an operand adds to the total of a kind of terms. -/
def signed (take : Term Extended → Option Extended) (operand : Operand Extended) :
    Option Extended :=
  match operand.operator with
  | .add => take operand.term
  | .subtract => (take operand.term).map (-·)
  | _ => none

/-- The total of two lists of numbers. -/
theorem numberTotal_append (values values' : List Extended) :
    numberTotal (values ++ values') = numberTotal values + numberTotal values' := by
  rw [numberTotal, List.map_append, List.sum_append]
  rfl

/-- The signed numbers of one kind are those that are added less those that are subtracted. -/
theorem numberTotal_signed (take : Term Extended → Option Extended) :
    numberTotal (operands.filterMap (signed take)) =
      numberTotal ((under .add operands).filterMap take) -
        numberTotal ((under .subtract operands).filterMap take) := by
  induction operands with
  | nil => exact (sub_self _).symm
  | cons operand rest ih =>
    obtain ⟨operator, term⟩ := operand
    -- An operand is at most one signed number.
    have hcons : (⟨operator, term⟩ :: rest).filterMap (signed take) =
        (signed take ⟨operator, term⟩).toList ++ rest.filterMap (signed take) := by
      rw [List.filterMap_cons]
      cases signed take ⟨operator, term⟩ <;> rfl
    have htake : [term].filterMap take = (take term).toList := by
      rw [List.filterMap_cons]
      cases take term <;> rfl
    rw [under_cons, under_cons, hcons, List.filterMap_append, List.filterMap_append,
      numberTotal_append, numberTotal_append, numberTotal_append, ih]
    cases operator with
    | multiply => simp [signed, numberTotal]
    | divide => simp [signed, numberTotal]
    | add =>
      rw [if_pos rfl, if_neg (by decide), htake]
      show numberTotal (take term).toList + _ = _ + _ - (0 + _)
      ring
    | subtract =>
      rw [if_pos rfl, if_neg (by decide), htake]
      show numberTotal ((take term).map (-·)).toList + _ = 0 + _ - _
      have hneg : numberTotal ((take term).map (-·)).toList = -numberTotal (take term).toList := by
        cases take term with
        | none => exact neg_zero.symm
        | some x => simp [numberTotal, toRat_neg]
      rw [hneg]
      ring

/-- The number of a term that is one. -/
def number? : Term Extended → Option Extended
  | .number value => some value
  | _ => none

/-- The number of a percentage. -/
def percentage? : Term Extended → Option Extended
  | .percentage value => some value
  | _ => none

/-- The numbers among terms, as a list of those that are taken. -/
theorem numbers_eq (terms : List (Term Extended)) : numbers terms = terms.filterMap number? := by
  unfold numbers
  congr 1
  funext term
  cases term <;> rfl

/-- The percentages among terms, as a list of those that are taken. -/
theorem percentages_eq (terms : List (Term Extended)) :
    percentages terms = terms.filterMap percentage? := by
  unfold percentages
  congr 1
  funext term
  cases term <;> rfl

/-- The signed numbers are the numbers with the sign of their operands. -/
theorem signedNumbers_eq : signedNumbers operands = operands.filterMap (signed number?) := by
  unfold signedNumbers
  congr 1
  funext ⟨operator, term⟩
  cases operator <;> cases term <;> rfl

/-- The signed percentages are the percentages with the sign of their operands. -/
theorem signedPercentages_eq :
    signedPercentages operands = operands.filterMap (signed percentage?) := by
  unfold signedPercentages
  congr 1
  funext ⟨operator, term⟩
  cases operator <;> cases term <;> rfl

/-- The value of a sum is put together from the total of the numbers, that of the percentages, and
those of the values with a unit and of the other terms on both sides. -/
theorem eq_totals_of_sum? (h : Operator.sum? (σ.operandValues operands) = some q) :
    q = numberTotal (signedNumbers operands)
      + numberTotal (signedPercentages operands) * σ.percent
      + (unitTotal σ (dimensions (under .add operands))
        - unitTotal σ (dimensions (under .subtract operands)))
      + (termTotal σ (others (under .add operands))
        - termTotal σ (others (under .subtract operands))) := by
  rw [eq_of_sum? h, termTotal_eq (under .add operands), termTotal_eq (under .subtract operands),
    signedNumbers_eq, signedPercentages_eq, numberTotal_signed, numberTotal_signed, ← numbers_eq,
    ← numbers_eq, ← percentages_eq, ← percentages_eq]
  ring

/-! ## Rational operands -/

/-- All terms of the operands of a sum have a value if the sum has one. -/
theorem isSome_of_sum? (h : Operator.sum? (σ.operandValues operands) = some q) :
    ∀ operand ∈ operands, (operand.term.value? σ).isSome = true := by
  induction operands generalizing q with
  | nil => exact fun _ h => nomatch h
  | cons operand rest ih =>
    obtain ⟨a, b, c, hvalue, -, hrest, -⟩ := Operator.sum?_cons.1 h
    exact List.forall_mem_cons.2 ⟨Option.isSome_of_eq_some hvalue, ih hrest⟩

/-- A number in a term with a value is a rational. -/
theorem isRational_of_isSome {x : Extended} {f : ℚ → ℚ} (h : (x.rational?.map f).isSome = true) :
    x.IsRational := by
  cases x with
  | rational a => rfl
  | _ => cases h

variable (hoperands : ∀ operand ∈ operands, (operand.term.value? σ).isSome = true)

include hoperands

/-- The signed numbers of operands with values are rationals. -/
theorem isRational_of_mem_signed {take : Term Extended → Option Extended}
    (htake : ∀ term x, take term = some x → (term.value? σ).isSome = true → x.IsRational) :
    ∀ x ∈ operands.filterMap (signed take), x.IsRational := by
  intro x hx
  obtain ⟨⟨operator, term⟩, hoperand, hx⟩ := List.mem_filterMap.1 hx
  have hvalue := hoperands _ hoperand
  cases operator with
  | add => exact htake term x hx hvalue
  | subtract =>
    obtain ⟨y, hy, rfl⟩ := Option.map_eq_some_iff.1 hx
    exact (htake term y hy hvalue).neg
  | multiply => cases hx
  | divide => cases hx

/-- The numbers of a sum with a value are rationals. -/
theorem isRational_of_mem_signedNumbers : ∀ x ∈ signedNumbers operands, x.IsRational := by
  rw [signedNumbers_eq]
  refine isRational_of_mem_signed hoperands fun term x hx hvalue => ?_
  cases term with
  | number y =>
    cases hx
    exact isRational_of_isSome (f := id) (by rwa [Option.map_id])
  | _ => cases hx

/-- The percentages of a sum with a value are rationals. -/
theorem isRational_of_mem_signedPercentages : ∀ x ∈ signedPercentages operands, x.IsRational := by
  rw [signedPercentages_eq]
  refine isRational_of_mem_signed hoperands fun term x hx hvalue => ?_
  cases term with
  | percentage y =>
    cases hx
    exact isRational_of_isSome hvalue
  | _ => cases hx

/-- The values with units of a sum with a value are rationals. -/
theorem isRational_of_mem_dimensions {operator : Operator} :
    ∀ value ∈ dimensions (under operator operands), value.1.IsRational := by
  intro value hvalue
  obtain ⟨operand, hoperand, hterm⟩ := exists_of_mem_under (mem_of_mem_dimensions hvalue)
  have hsome := hoperands operand hoperand
  rw [hterm] at hsome
  exact isRational_of_isSome hsome

omit hoperands

/-- A value with a unit is added to the total of its unit. -/
theorem unitTotal_addDimension {value : Extended} {unit : String}
    {totals : List (Extended × String)} (hvalue : value.IsRational)
    (h : ∀ total ∈ totals, total.1.IsRational) :
    unitTotal σ (addDimension value unit totals) =
        value.toRat * σ.unit unit.toLower + unitTotal σ totals ∧
      ∀ total ∈ addDimension value unit totals, total.1.IsRational := by
  induction totals with
  | nil => exact ⟨unitTotal_cons _ _, fun total htotal => by rwa [List.mem_singleton.1 htotal]⟩
  | cons head rest ih =>
    obtain ⟨total, known⟩ := head
    obtain ⟨htotal, hrest⟩ := List.forall_mem_cons.1 h
    obtain ⟨heq, hall⟩ := ih hrest
    have hsum : total + value = rational (total.toRat + value.toRat) := by
      have htotal : total = rational total.toRat := htotal
      rw [htotal, hvalue]
      rfl
    rw [addDimension]
    -- The value is added to the total of its unit, or it goes to the end as a new total.
    split
    · next hknown =>
      refine ⟨?_, List.forall_mem_cons.2 ⟨?_, hrest⟩⟩
      · rw [unitTotal_cons, unitTotal_cons, ← hknown, hsum]
        show (total.toRat + value.toRat) * _ + _ = _
        ring
      · rw [hsum]
        rfl
    · refine ⟨?_, List.forall_mem_cons.2 ⟨htotal, hall⟩⟩
      rw [unitTotal_cons, unitTotal_cons, heq]
      ring

/-- Values are added to the totals of their units one by one. -/
theorem unitTotal_foldl_addDimension {values totals : List (Extended × String)}
    (hvalues : ∀ value ∈ values, value.1.IsRational) (h : ∀ total ∈ totals, total.1.IsRational) :
    unitTotal σ (values.foldl (fun totals (value, unit) => addDimension value unit totals) totals) =
        unitTotal σ values + unitTotal σ totals ∧
      ∀ total ∈ values.foldl (fun totals (value, unit) => addDimension value unit totals) totals,
        total.1.IsRational := by
  induction values generalizing totals with
  | nil => exact ⟨(zero_add _).symm, h⟩
  | cons value rest ih =>
    -- The first value is added to the totals, and the others to what that leaves.
    obtain ⟨hvalue, hrest⟩ := List.forall_mem_cons.1 hvalues
    obtain ⟨heq, hall⟩ := unitTotal_addDimension hvalue h
    obtain ⟨hsum, hrational⟩ := ih hrest hall
    refine ⟨?_, hrational⟩
    rw [List.foldl_cons, hsum, heq, unitTotal_cons]
    ring

/-- Values that are subtracted are added with their signs turned. -/
theorem unitTotal_append_neg (added subtracted : List (Extended × String)) :
    unitTotal σ (added ++ subtracted.map fun (value, unit) => (-value, unit)) =
      unitTotal σ added - unitTotal σ subtracted := by
  have hnegative : unitTotal σ (subtracted.map fun (value, unit) => (-value, unit)) =
      -unitTotal σ subtracted := by
    induction subtracted with
    | nil => exact neg_zero.symm
    | cons value rest ih =>
      rw [List.map_cons, unitTotal_cons, unitTotal_cons, ih, toRat_neg]
      ring
  rw [sub_eq_add_neg, ← hnegative, unitTotal, List.map_append, List.sum_append]
  rfl

/-- The totals of values by unit have the same total. -/
theorem unitTotal_totals {added subtracted : List (Extended × String)}
    (hadded : ∀ value ∈ added, value.1.IsRational)
    (hsubtracted : ∀ value ∈ subtracted, value.1.IsRational) :
    unitTotal σ (totals added subtracted) = unitTotal σ added - unitTotal σ subtracted ∧
      ∀ total ∈ totals added subtracted, total.1.IsRational := by
  have hsigned : ∀ value ∈ added ++ subtracted.map fun (value, unit) => (-value, unit),
      value.1.IsRational := by
    refine List.forall_mem_append.2 ⟨hadded, fun value hvalue => ?_⟩
    obtain ⟨other, hother, rfl⟩ := List.mem_map.1 hvalue
    exact (hsubtracted other hother).neg
  obtain ⟨heq, hall⟩ := unitTotal_foldl_addDimension (σ := σ) hsigned (List.forall_mem_nil _)
  rw [unitTotal_append_neg] at heq
  -- The totals are sorted, which changes none of them.
  have hperm : (totals added subtracted).Perm _ := List.mergeSort_perm _ dimensionLE
  refine ⟨?_, fun total htotal => hall total (hperm.mem_iff.1 htotal)⟩
  have hsum : unitTotal σ (totals added subtracted) = unitTotal σ _ := (hperm.map _).sum_eq
  rw [hsum, heq]
  exact add_zero _

end Reduce

end CssColor
