import CssColor.Proofs.Calc.Folding
import CssColor.Proofs.Number.Order
import Mathlib.Data.String.Basic

/-!
# Operands in any order

What operands are folded to does not depend on their order, up to the text (`reduce_eq_of_perm`).
The parts of an expression are sorted, the totals of the units too, and numbers are added and
multiplied in any order. What the sorting cannot settle are parts that are written in the same way
in the order by text, but differ in the expression. Names and simplified expressions with equal
texts have to be equal for that. In a divisor there is one more case, as percentages stand among the
names there: a sum with the text of a percentage is put in parentheses, and the percentage is not
(`reduceProduct_ne_of_swap`).
-/

namespace CssColor.Reduce

/-! ## The order of the parts -/

section Sorted

variable {terms terms' : List (Term Extended)} {values values' : List (Extended × String)}

/-- Terms are sorted by their texts. -/
theorem textLE_iff (a b : Term Extended) : textLE a b = true ↔ a.text ≤ b.text :=
  decide_eq_true_iff

/-- The place of a value with a unit: its unit, then its size. -/
def place (value : Extended × String) : String ×ₗ (ℕ ×ₗ ℚ) := toLex (value.2, value.1.place)

/-- The place of a value with a unit determines it. -/
theorem place_injective : Function.Injective place := by
  rintro ⟨x, unit⟩ ⟨y, unit'⟩ h
  obtain ⟨hunit, hplace⟩ := Prod.mk.inj (toLex.injective h)
  exact Prod.ext (Extended.place_injective hplace) hunit

/-- Values with units are sorted by their places. -/
theorem dimensionLE_iff (a b : Extended × String) :
    dimensionLE a b = true ↔ place a ≤ place b := by
  unfold place dimensionLE
  rw [Prod.Lex.toLex_le_toLex, ← Extended.totalLE_iff_place]
  split
  · next hlt => simp [hlt]
  · next hnlt =>
    split
    · next heq => simp [heq]
    · next hne => simp [hnlt, hne]

/-- Terms that have equal texts are sorted in either order, so they have to be written in the same
way for the text of all of them not to depend on the order. -/
theorem map_sorted_eq_of_perm {write : Term Extended → String}
    (hwrite : ∀ a ∈ terms, ∀ b ∈ terms, a.text = b.text → write a = write b)
    (h : terms.Perm terms') : (sorted terms).map write = (sorted terms').map write :=
  map_mergeSort_eq_of_perm textLE_iff hwrite h

/-- The texts of values with units do not depend on their order. -/
theorem dimensionTexts_eq_of_perm (h : values.Perm values') :
    dimensionTexts values = dimensionTexts values' := by
  unfold dimensionTexts
  rw [mergeSort_eq_of_perm dimensionLE_iff place_injective h]

end Sorted

/-! ## The totals of units -/

section Totals

variable {totals totals' values values' : List (Extended × String)} {unit known : String}
  {value : Extended}

/-- The total of a unit, if it has one. -/
def unitValue? (unit : String) (totals : List (Extended × String)) : Option Extended :=
  (totals.find? fun total => total.2 = unit).map Prod.fst

/-- No unit has two totals. -/
def HasUniqueUnits (totals : List (Extended × String)) : Prop := (totals.map Prod.snd).Nodup

/-- The first total is that of its unit. -/
theorem unitValue?_cons_of_eq (h : known = unit) :
    unitValue? unit ((value, known) :: totals) = some value := by
  unfold unitValue?
  rw [List.find?_cons_of_pos (by simpa using h)]
  rfl

/-- The total of another unit is looked for behind the first one. -/
theorem unitValue?_cons_of_ne (h : known ≠ unit) :
    unitValue? unit ((value, known) :: totals) = unitValue? unit totals := by
  unfold unitValue?
  rw [List.find?_cons_of_neg (by simpa using h)]

/-- A value is added to the total of its unit, which starts at zero. The other totals stay. -/
theorem unitValue?_addDimension : unitValue? known (addDimension value unit totals) =
    if known = unit then some ((unitValue? unit totals).getD (.rational 0) + value)
    else unitValue? known totals := by
  induction totals with
  -- There are no totals yet.
  | nil =>
    rw [addDimension]
    split
    · next heq =>
      rw [unitValue?_cons_of_eq heq.symm]
      exact congrArg some (Extended.zero_add value).symm
    · next hne => exact unitValue?_cons_of_ne (Ne.symm hne)
  | cons head rest ih =>
    obtain ⟨total, first⟩ := head
    rw [addDimension]
    -- The first total is the one that is added to.
    by_cases hfirst : first = unit
    · subst hfirst
      rw [if_pos rfl]
      split
      · next heq => rw [unitValue?_cons_of_eq heq.symm, unitValue?_cons_of_eq rfl, Option.getD_some]
      · next hne =>
        rw [unitValue?_cons_of_ne (Ne.symm hne), unitValue?_cons_of_ne (Ne.symm hne)]
    · rw [if_neg hfirst, unitValue?_cons_of_ne hfirst]
      by_cases hknown : first = known
      · -- The first total is the one that is asked for, and not the one that is added to.
        rw [if_neg (hknown ▸ hfirst), unitValue?_cons_of_eq hknown, unitValue?_cons_of_eq hknown]
      · rw [unitValue?_cons_of_ne hknown, unitValue?_cons_of_ne hknown, ih]

/-- A unit is appended if it is new; no other unit moves. -/
theorem map_snd_addDimension : (addDimension value unit totals).map Prod.snd =
    if unit ∈ totals.map Prod.snd then totals.map Prod.snd else totals.map Prod.snd ++ [unit] := by
  induction totals with
  | nil => rfl
  | cons head rest ih =>
    obtain ⟨total, first⟩ := head
    rw [addDimension]
    -- The first unit stays in front whether the value is added to its total or goes further back.
    by_cases hfirst : first = unit
    · simp [hfirst]
    · rw [if_neg hfirst, List.map_cons, ih, List.map_cons]
      by_cases hrest : unit ∈ rest.map Prod.snd
      · rw [if_pos hrest, if_pos (List.mem_cons_of_mem _ hrest)]
      · have hnew : unit ∉ first :: rest.map Prod.snd := by
          rintro (_ | ⟨_, hmem⟩)
          · exact hfirst rfl
          · exact hrest hmem
        rw [if_neg hrest, if_neg hnew]
        rfl

/-- A unit that is added to is not listed twice. -/
theorem HasUniqueUnits.addDimension (h : HasUniqueUnits totals) :
    HasUniqueUnits (addDimension value unit totals) := by
  unfold HasUniqueUnits
  rw [map_snd_addDimension]
  split
  · exact h
  · next hnew =>
    refine List.nodup_append.2 ⟨h, List.nodup_singleton unit, fun first hfirst last hlast heq => ?_⟩
    rw [List.mem_singleton.1 hlast] at heq
    exact hnew (heq ▸ hfirst)

/-- The totals that values add up to, each unit where it comes first. -/
def collect (values : List (Extended × String)) : List (Extended × String) :=
  values.foldl (fun totals (value, unit) => addDimension value unit totals) []

/-- Collecting values keeps each unit unique. -/
theorem hasUniqueUnits_collect (values : List (Extended × String)) :
    HasUniqueUnits (collect values) := by
  have hfold : ∀ totals, HasUniqueUnits totals → HasUniqueUnits
      (values.foldl (fun totals (value, unit) => Reduce.addDimension value unit totals) totals) := by
    induction values with
    | nil => exact fun _ h => h
    | cons value rest ih => exact fun _ h => ih _ h.addDimension
  exact hfold [] List.nodup_nil

/-- The total of a unit takes in the values of this unit one by one. -/
theorem unitValue?_collect (unit : String) (values : List (Extended × String)) :
    unitValue? unit (collect values) = (values.filter fun value => value.2 = unit).foldl
      (fun total value => some (total.getD (.rational 0) + value.1)) none := by
  -- In front of the values, some totals may have been collected already.
  have hfold : ∀ totals, unitValue? unit
      (values.foldl (fun totals (value, unit) => addDimension value unit totals) totals) =
        (values.filter fun value => value.2 = unit).foldl
          (fun total value => some (total.getD (.rational 0) + value.1))
          (unitValue? unit totals) := by
    induction values with
    | nil => exact fun _ => rfl
    | cons value rest ih =>
      intro totals
      obtain ⟨value, known⟩ := value
      rw [List.foldl_cons, ih, unitValue?_addDimension, List.filter_cons]
      by_cases hunit : known = unit
      · simp [hunit]
      · simp [hunit, Ne.symm hunit]
  exact hfold []

/-- The total of a unit does not depend on the order of the values. -/
theorem unitValue?_collect_of_perm (unit : String) (h : values.Perm values') :
    unitValue? unit (collect values) = unitValue? unit (collect values') := by
  rw [unitValue?_collect, unitValue?_collect]
  have hcomm : RightCommutative fun (total : Option Extended) (value : Extended × String) =>
      some (total.getD (.rational 0) + value.1) :=
    ⟨fun _ _ _ => congrArg some (Extended.add_right_comm _ _ _)⟩
  exact (h.filter _).foldl_eq none

/-- A unit that has one total has it once in the list. -/
theorem HasUniqueUnits.mem_iff (h : HasUniqueUnits totals) :
    (value, unit) ∈ totals ↔ unitValue? unit totals = some value := by
  induction totals with
  | nil => simp [unitValue?]
  | cons head rest ih =>
    obtain ⟨total, first⟩ := head
    obtain ⟨hfirst, hrest⟩ := List.nodup_cons.1 h
    -- No other total has the unit of the head.
    by_cases hunit : first = unit
    · subst hunit
      have hnone : (value, first) ∉ rest := fun hmem =>
        hfirst (List.mem_map.2 ⟨_, hmem, rfl⟩)
      rw [unitValue?_cons_of_eq rfl, List.mem_cons, or_iff_left hnone, Prod.mk.injEq,
        Option.some.injEq, and_iff_left rfl, eq_comm]
    · have hne : (value, unit) ≠ (total, first) := fun heq => hunit (congrArg Prod.snd heq).symm
      rw [unitValue?_cons_of_ne hunit, List.mem_cons, or_iff_right hne, ih hrest]

/-- Up to their order, the totals do not depend on the order of the values. -/
theorem perm_collect (h : values.Perm values') : (collect values).Perm (collect values') := by
  have hunique := hasUniqueUnits_collect values
  have hunique' := hasUniqueUnits_collect values'
  refine (List.perm_ext_iff_of_nodup hunique.of_map hunique'.of_map).2 fun ⟨value, unit⟩ => ?_
  rw [hunique.mem_iff, hunique'.mem_iff, unitValue?_collect_of_perm unit h]

/-- The sorted totals do not depend on the order of the values. -/
theorem totals_eq_of_perm {added added' subtracted subtracted' : List (Extended × String)}
    (h : added.Perm added') (h' : subtracted.Perm subtracted') :
    Reduce.totals added subtracted = Reduce.totals added' subtracted' :=
  mergeSort_eq_of_perm dimensionLE_iff place_injective (perm_collect (h.append (h'.map _)))

end Totals

/-! ## The operands by kind -/

section Kinds

variable {K : Type} {operands operands' : List (Operand K)}

/-- The terms under an operator are the same in another order. -/
theorem under_perm (operator : Operator) (h : operands.Perm operands') :
    (under operator operands).Perm (under operator operands') := h.filterMap _

/-- The percentages under an operator are the same in another order. -/
theorem percentages_perm (operator : Operator) (h : operands.Perm operands') :
    (percentages (under operator operands)).Perm (percentages (under operator operands')) :=
  (under_perm operator h).filterMap _

/-- The values with units under an operator are the same in another order. -/
theorem dimensions_perm (operator : Operator) (h : operands.Perm operands') :
    (dimensions (under operator operands)).Perm (dimensions (under operator operands')) :=
  (under_perm operator h).filterMap _

/-- The other terms under an operator are the same in another order. -/
theorem others_perm (operator : Operator) (h : operands.Perm operands') :
    (others (under operator operands)).Perm (others (under operator operands')) :=
  (under_perm operator h).filter _

/-- The divisors under an operator are the same in another order. -/
theorem divisors_perm (operator : Operator) (h : operands.Perm operands') :
    (divisors (under operator operands)).Perm (divisors (under operator operands')) :=
  (under_perm operator h).filter _

/-- The signed numbers are the same in another order. -/
theorem signedNumbers_perm [Scalar K] (h : operands.Perm operands') :
    (signedNumbers operands).Perm (signedNumbers operands') := h.filterMap _

/-- The signed percentages are the same in another order. -/
theorem signedPercentages_perm [Scalar K] (h : operands.Perm operands') :
    (signedPercentages operands).Perm (signedPercentages operands') := h.filterMap _

/-- The factors of the scale are the same in another order. -/
theorem scaleFactors_perm [Scalar K] (h : operands.Perm operands') :
    (scaleFactors operands).Perm (scaleFactors operands') := h.filterMap _

/-- A total does not depend on the order. -/
theorem total?_eq_of_perm {values values' : List Extended} (h : values.Perm values') :
    total? values = total? values' := by
  unfold total?
  rw [h.isEmpty_eq, Extended.sum_eq_of_perm h]

/-- Lists with the same members in another order are both empty, both the same single member, or
both longer than that. -/
theorem shape_of_perm {α : Type} {as bs : List α} (h : as.Perm bs) :
    (as = [] ∧ bs = []) ∨ (∃ a, as = [a] ∧ bs = [a]) ∨
      ∃ a a' rest b b' rest', as = a :: a' :: rest ∧ bs = b :: b' :: rest' := by
  have hlength := h.length_eq
  match as, bs with
  | [], bs => exact .inl ⟨rfl, h.nil_eq.symm⟩
  | [a], bs => exact .inr (.inl ⟨a, rfl, (List.singleton_perm.1 h).symm⟩)
  | a :: a' :: rest, b :: b' :: rest' => exact .inr (.inr ⟨_, _, _, _, _, _, rfl, rfl⟩)

end Kinds

/-! ## Sums and products -/

section Operands

variable {operands operands' : List (Operand Extended)}

/-- Names and simplified expressions with equal texts are equal. -/
def TextsTellApart (operands : List (Operand Extended)) : Prop :=
  ∀ a ∈ operands, ∀ b ∈ operands, a.term.isSymbolic = true → b.term.isSymbolic = true →
    a.term.text = b.term.text → a.term = b.term

/-- No sum that is divided by has the text of a percentage that is divided by. -/
def PercentagesTellApart (operands : List (Operand Extended)) : Prop :=
  ∀ x text, ⟨.divide, .percentage x⟩ ∈ operands → ⟨.divide, .expression text .sum⟩ ∈ operands →
    text ≠ (Term.percentage x).text

/-- If only one term is symbolic, texts tell terms apart. -/
theorem textsTellApart_of_single (term : Term Extended)
    (h : ∀ operand ∈ operands, operand.term.isSymbolic = true → operand.term = term) :
    TextsTellApart operands := fun a ha b hb hsymbolic hsymbolic' _ =>
  (h a ha hsymbolic).trans (h b hb hsymbolic').symm

/-- Symbolic terms with the same text are the same. -/
theorem TextsTellApart.eq {operator : Operator} {a b : Term Extended}
    (htexts : TextsTellApart operands) (ha : a ∈ under operator operands)
    (hb : b ∈ under operator operands) (hsymbolic : a.isSymbolic = true)
    (hsymbolic' : b.isSymbolic = true) (htext : a.text = b.text) : a = b :=
  htexts _ (mem_of_mem_under ha) _ (mem_of_mem_under hb) hsymbolic hsymbolic' htext

/-- Names and expressions are sorted by their texts. -/
theorem map_sorted_others_eq_of_perm (operator : Operator) (write : Term Extended → String)
    (htexts : TextsTellApart operands) (h : operands.Perm operands') :
    (sorted (others (under operator operands))).map write =
      (sorted (others (under operator operands'))).map write := by
  refine map_sorted_eq_of_perm (fun a ha b hb htext => congrArg write ?_) (others_perm operator h)
  exact htexts.eq (List.mem_filter.1 ha).1 (List.mem_filter.1 hb).1 (isSymbolic_of_mem_others ha)
    (isSymbolic_of_mem_others hb) htext

/-- A sum does not depend on the order of its operands. -/
theorem reduceSum_eq_of_perm (htexts : TextsTellApart operands) (h : operands.Perm operands') :
    reduceSum operands = reduceSum operands' := by
  -- The totals are the same, and so is the text that the sum would get.
  have hnumber := total?_eq_of_perm (signedNumbers_perm h)
  have hpercentage := total?_eq_of_perm (signedPercentages_perm h)
  have htotals := totals_eq_of_perm (dimensions_perm .add h) (dimensions_perm .subtract h)
  have hexpression (number percentage : Option Extended) (dimensions : List (Extended × String)) :
      sumText number percentage dimensions (others (under .add operands))
          (others (under .subtract operands)) =
        sumText number percentage dimensions (others (under .add operands'))
          (others (under .subtract operands')) := by
    unfold sumText
    rw [map_sorted_others_eq_of_perm .add _ htexts h,
      map_sorted_others_eq_of_perm .subtract _ htexts h]
  unfold reduceSum
  dsimp only
  rw [hnumber, hpercentage, htotals, hexpression]
  have hadded := others_perm .add h
  have hsubtracted := others_perm .subtract h
  generalize others (under .add operands) = addends at hadded ⊢
  generalize others (under .add operands') = addends' at hadded ⊢
  generalize others (under .subtract operands) = subtrahends at hsubtracted ⊢
  generalize others (under .subtract operands') = subtrahends' at hsubtracted ⊢
  generalize total? (signedNumbers operands') = number
  generalize total? (signedPercentages operands') = percentage
  generalize Reduce.totals (dimensions (under .add operands'))
    (dimensions (under .subtract operands')) = dimensions
  -- Which way the sum is folded depends on no more than which parts are there and which are single.
  rcases shape_of_perm hadded with ⟨rfl, rfl⟩ | ⟨addend, rfl, rfl⟩ | ⟨_, _, _, _, _, _, rfl, rfl⟩ <;>
  rcases shape_of_perm hsubtracted with
    ⟨rfl, rfl⟩ | ⟨subtrahend, rfl, rfl⟩ | ⟨_, _, _, _, _, _, rfl, rfl⟩ <;>
  rcases number with _ | number <;> rcases percentage with _ | percentage <;>
  rcases dimensions with _ | ⟨dimension, _ | ⟨_, _⟩⟩ <;> rfl

/-- Only a sum gets parentheses as a factor. -/
theorem factorText_eq_text_or (term : Term Extended) :
    term.factorText = term.text ∨ ∃ text, term = .expression text .sum := by
  cases term with
  | expression text kind =>
    cases kind with
    | sum => exact .inr ⟨text, rfl⟩
    | product => exact .inl rfl
  | _ => exact .inl rfl

/-- Percentages are the only divisors that are left besides names and expressions. -/
theorem exists_eq_percentage {terms : List (Term Extended)} {term : Term Extended}
    (h : term ∈ divisors terms) (hsymbolic : term.isSymbolic = false) :
    ∃ x, term = .percentage x := by
  have hkind := (List.mem_filter.1 h).2
  cases term with
  | percentage x => exact ⟨x, rfl⟩
  | number | dimension => cases hkind
  | symbol | expression => cases hsymbolic

/-- A divisor with the text of a percentage is written as the percentage is. -/
theorem factorText_eq_of_percentage {x : Extended} {term : Term Extended}
    (hpercentages : PercentagesTellApart operands)
    (hx : .percentage x ∈ divisors (under .divide operands))
    (hterm : term ∈ divisors (under .divide operands)) (htext : (Term.percentage x).text = term.text) :
    (Term.percentage x).factorText = term.factorText := by
  rcases factorText_eq_text_or term with hfactor | ⟨text, rfl⟩
  · rw [hfactor]
    exact htext
  · exact absurd htext.symm (hpercentages x text (mem_of_mem_under (List.mem_filter.1 hx).1)
      (mem_of_mem_under (List.mem_filter.1 hterm).1))

/-- Divisors are sorted by their texts. -/
theorem map_sorted_divisors_eq_of_perm (htexts : TextsTellApart operands)
    (hpercentages : PercentagesTellApart operands) (h : operands.Perm operands') :
    (sorted (divisors (under .divide operands))).map Term.factorText =
      (sorted (divisors (under .divide operands'))).map Term.factorText := by
  refine map_sorted_eq_of_perm (fun a ha b hb htext => ?_) (divisors_perm .divide h)
  cases hsymbolic : a.isSymbolic with
  -- A percentage is written like any term with the same text.
  | false =>
    obtain ⟨x, rfl⟩ := exists_eq_percentage ha hsymbolic
    exact factorText_eq_of_percentage hpercentages ha hb htext
  | true =>
    cases hsymbolic' : b.isSymbolic with
    | false =>
      obtain ⟨x, rfl⟩ := exists_eq_percentage hb hsymbolic'
      exact (factorText_eq_of_percentage hpercentages hb ha htext.symm).symm
    | true =>
      exact congrArg Term.factorText (htexts.eq (List.mem_filter.1 ha).1 (List.mem_filter.1 hb).1
        hsymbolic hsymbolic' htext)

/-- A product does not depend on the order of its operands. -/
theorem reduceProduct_eq_of_perm (htexts : TextsTellApart operands)
    (hpercentages : PercentagesTellApart operands) (h : operands.Perm operands') :
    reduceProduct operands = reduceProduct operands' := by
  have hscale := Extended.product_eq_of_perm (scaleFactors_perm h)
  have hpercent := percentages_perm .multiply h
  have hmultiplied := dimensions_perm .multiply h
  have hdivided := dimensions_perm .divide h
  have hfactors := others_perm .multiply h
  have hdivisors := divisors_perm .divide h
  have htext (scale : Extended) : productText scale (percentages (under .multiply operands))
      (dimensions (under .multiply operands)) (dimensions (under .divide operands))
      (others (under .multiply operands)) (divisors (under .divide operands)) =
        productText scale (percentages (under .multiply operands'))
          (dimensions (under .multiply operands')) (dimensions (under .divide operands'))
          (others (under .multiply operands')) (divisors (under .divide operands')) := by
    unfold productText
    rw [hpercent.isEmpty_eq, hmultiplied.isEmpty_eq, hfactors.isEmpty_eq,
      mergeSort_eq_of_perm Extended.totalLE_iff_place Extended.place_injective hpercent,
      dimensionTexts_eq_of_perm hmultiplied, dimensionTexts_eq_of_perm hdivided,
      map_sorted_others_eq_of_perm .multiply _ htexts h,
      map_sorted_divisors_eq_of_perm htexts hpercentages h]
  -- What is left depends only on which parts are there and which are single.
  unfold reduceProduct
  dsimp only
  rw [hscale, htext, h.isEmpty_eq, hfactors.isEmpty_eq, hdivisors.isEmpty_eq]
  generalize percentages (under .multiply operands) = shares at hpercent ⊢
  generalize percentages (under .multiply operands') = shares' at hpercent ⊢
  generalize dimensions (under .multiply operands) = multiplied at hmultiplied ⊢
  generalize dimensions (under .multiply operands') = multiplied' at hmultiplied ⊢
  generalize dimensions (under .divide operands) = divided at hdivided ⊢
  generalize dimensions (under .divide operands') = divided' at hdivided ⊢
  rcases shape_of_perm hpercent with ⟨rfl, rfl⟩ | ⟨share, rfl, rfl⟩ | ⟨_, _, _, _, _, _, rfl, rfl⟩ <;>
  rcases shape_of_perm hmultiplied with
    ⟨rfl, rfl⟩ | ⟨factor, rfl, rfl⟩ | ⟨_, _, _, _, _, _, rfl, rfl⟩ <;>
  rcases shape_of_perm hdivided with
    ⟨rfl, rfl⟩ | ⟨divisor, rfl, rfl⟩ | ⟨_, _, _, _, _, _, rfl, rfl⟩ <;> rfl

/-- Operands in another order have the same sum and the same product, texts included, if names and
simplified expressions with equal texts are equal and, for the product, if no sum that is divided by
has the text of a percentage that is divided by. -/
theorem reduce_eq_of_perm (h : operands.Perm operands') (htexts : TextsTellApart operands) :
    reduceSum operands = reduceSum operands' ∧
      (PercentagesTellApart operands → reduceProduct operands = reduceProduct operands') :=
  ⟨reduceSum_eq_of_perm htexts h, fun hpercentages =>
    reduceProduct_eq_of_perm htexts hpercentages h⟩

/-- Two values of one unit around another one, and two divisors. -/
def unsorted : List (Operand Extended) :=
  [⟨.add, .dimension (.rational 1) "px"⟩, ⟨.subtract, .dimension (.rational 2) "em"⟩,
    ⟨.add, .dimension (.rational 3) "px"⟩, ⟨.divide, .symbol "a"⟩,
    ⟨.divide, .percentage (.rational 50)⟩]

/-- A list that is not sorted and its reverse reduce to the same. -/
theorem reduce_eq_of_perm_unsorted :
    unsorted.Perm unsorted.reverse ∧ TextsTellApart unsorted ∧ PercentagesTellApart unsorted ∧
      reduceSum unsorted = reduceSum unsorted.reverse ∧
      reduceProduct unsorted = reduceProduct unsorted.reverse := by
  have hperm : unsorted.Perm unsorted.reverse := (List.reverse_perm unsorted).symm
  have htexts : TextsTellApart unsorted :=
    textsTellApart_of_single (.symbol "a") (by simp [unsorted, Term.isSymbolic])
  have hpercentages : PercentagesTellApart unsorted := by
    intro x text _ hsum
    simp [unsorted] at hsum
  obtain ⟨hreduceSum, hreduceProduct⟩ := reduce_eq_of_perm hperm htexts
  exact ⟨hperm, htexts, hpercentages, hreduceSum, hreduceProduct hpercentages⟩

/-- Two divisors with equal texts are left in their order. -/
theorem reduceProduct_of_equal_texts {a b : Term Extended}
    (hscale : scaleFactors [⟨.divide, a⟩, ⟨.divide, b⟩] = []) (hdimensions : dimensions [a, b] = [])
    (hdivisors : divisors [a, b] = [a, b]) (htext : a.text = b.text) :
    reduceProduct [⟨.divide, a⟩, ⟨.divide, b⟩] =
      some (.expression (quotientText ["1"] [a.factorText, b.factorText]) .product) := by
  have hsorted : sorted [a, b] = [a, b] := List.mergeSort_of_pairwise (by simp [textLE, htext])
  have hmultiplied : under .multiply [(⟨.divide, a⟩ : Operand Extended), ⟨.divide, b⟩] = [] := rfl
  have hdivided : under .divide [(⟨.divide, a⟩ : Operand Extended), ⟨.divide, b⟩] = [a, b] := rfl
  -- There is no number among the operands, so the scale is one, and it is the only factor.
  have hone : Scalar.text (Number.product ([] : List Extended)) = "1" := by decide +kernel
  have hnan : ¬ Number.isNaN (Number.product ([] : List Extended)) = true := by decide +kernel
  have hzero : ¬ (Number.product ([] : List Extended) == 0.0) = true := by decide +kernel
  have hwritten : productText (Number.product []) [] [] [] [] [a, b] =
      quotientText ["1"] [a.factorText, b.factorText] := by
    unfold productText
    rw [hsorted, hone]
    simp [dimensionTexts, sorted]
  unfold reduceProduct
  rw [hmultiplied, hdivided, hscale, hdimensions, hdivisors]
  simp [percentages, dimensions, others, hwritten, hnan, hzero]

/-- A sum and a percentage with equal texts. -/
theorem reduceProduct_ne_of_swap :
    let sum : Operand Extended := ⟨.divide, .expression "50%" .sum⟩
    let percentage : Operand Extended := ⟨.divide, .percentage (.rational 50)⟩
    [sum, percentage].Perm [percentage, sum] ∧ TextsTellApart [sum, percentage] ∧
      reduceProduct [sum, percentage] ≠ reduceProduct [percentage, sum] := by
  intro sum percentage
  have htext : (Term.percentage (Extended.rational 50)).text = "50%" := by decide +kernel
  refine ⟨.swap _ _ _, ?_, ?_⟩
  · -- There is one term that is a name or an expression.
    refine textsTellApart_of_single (.expression "50%" .sum) ?_
    simp [sum, percentage, Term.isSymbolic]
  · have hfactor : (Term.percentage (Extended.rational 50)).factorText = "50%" := htext
    have h : reduceProduct [sum, percentage] = _ :=
      reduceProduct_of_equal_texts rfl rfl rfl htext.symm
    have h' : reduceProduct [percentage, sum] = _ :=
      reduceProduct_of_equal_texts rfl rfl rfl htext
    rw [h, h', hfactor]
    decide +kernel

end Operands

end CssColor.Reduce
