import CssColor.Number.Double
import CssColor.Proofs.Calc.Leaves
import CssColor.Proofs.Calc.NormalForm
import CssColor.Proofs.Calc.Soundness
import Mathlib.Data.List.Forall2

/-!
# Evaluating expressions

The operands of a sum or a product are all evaluated, in order and each under its own operator
(`Expression.evaluateOperands_eq_some_iff`), before anything is folded, and what they evaluate to
always reduces to a term. So an expression of the grammar has no value if and only if a name in it
stands for a missing component (`Expression.evaluate_eq_none_iff`): no factor of zero and no number
that is infinite or not a number can hide such a name, and nothing else can go wrong.
-/

namespace CssColor.Expression

variable {K : Type}

/-! ## Parts -/

mutual

/-- The expression and its operands at any depth. -/
def parts : Expression K → List (Expression K)
  | leaf term => [leaf term]
  | sum operands => sum operands :: operandParts operands
  | product operands => product operands :: operandParts operands

/-- The parts of operands. -/
def operandParts : List (Operator × Expression K) → List (Expression K)
  | [] => []
  | (_, operand) :: rest => operand.parts ++ operandParts rest

end

/-- The operands that a product divides by. -/
def ownDivisors : Expression K → List (Expression K)
  | product operands => (operands.filter fun operand => operand.1 = .divide).map Prod.snd
  | _ => []

/-- All that is divided by in an expression, at any depth. -/
def divisors (tree : Expression K) : List (Expression K) := tree.parts.flatMap ownDivisors

section Parts

variable {tree part : Expression K} {operand : Operator × Expression K}
  {operands : List (Operator × Expression K)}

/-- An expression is a part of itself. -/
theorem mem_parts_self (tree : Expression K) : tree ∈ tree.parts := by
  cases tree with
  | leaf | sum | product => simp [parts]

/-- A part of an operand is a part of the operands. -/
theorem mem_operandParts (h : operand ∈ operands) (hpart : part ∈ operand.2.parts) :
    part ∈ operandParts operands := by
  induction operands with
  | nil => cases h
  | cons other rest ih =>
    rw [operandParts]
    rcases List.mem_cons.1 h with rfl | h
    · exact List.mem_append_left _ hpart
    · exact List.mem_append_right _ (ih h)

/-- A leaf of an operand is a leaf of the operands. -/
theorem mem_operandLeaves_of_mem {term : Term K} (h : operand ∈ operands)
    (hterm : term ∈ operand.2.leaves) : term ∈ operandLeaves operands := by
  induction operands with
  | nil => cases h
  | cons other rest ih =>
    rw [operandLeaves]
    rcases List.mem_cons.1 h with rfl | h
    · exact List.mem_append_left _ hterm
    · exact List.mem_append_right _ (ih h)

/-- The tree has the operands: it is their sum or their product. -/
def HasOperands (tree : Expression K) (operands : List (Operator × Expression K)) : Prop :=
  tree = sum operands ∨ tree = product operands

/-- The parts of an operand are parts of the tree. -/
theorem HasOperands.mem_parts (h : tree.HasOperands operands) (hmem : operand ∈ operands)
    (hpart : part ∈ operand.2.parts) : part ∈ tree.parts := by
  rcases h with rfl | rfl
  all_goals
    rw [parts]
    exact List.mem_cons_of_mem _ (mem_operandParts hmem hpart)

/-- The divisors in an operand are divisors in the tree. -/
theorem HasOperands.mem_divisors (h : tree.HasOperands operands) (hmem : operand ∈ operands)
    (hpart : part ∈ operand.2.divisors) : part ∈ tree.divisors := by
  obtain ⟨product, hproduct, hpart⟩ := List.mem_flatMap.1 hpart
  exact List.mem_flatMap.2 ⟨product, h.mem_parts hmem hproduct, hpart⟩

/-- The leaves of an operand are leaves of the tree. -/
theorem HasOperands.mem_leaves {term : Term K} (h : tree.HasOperands operands)
    (hmem : operand ∈ operands) (hterm : term ∈ operand.2.leaves) : term ∈ tree.leaves := by
  rcases h with rfl | rfl
  all_goals
    rw [leaves]
    exact mem_operandLeaves_of_mem hmem hterm

/-- What a product divides by is one of its divisors. -/
theorem mem_divisors_of_divide (h : (.divide, part) ∈ operands) :
    part ∈ (product operands).divisors := by
  refine List.mem_flatMap.2 ⟨product operands, mem_parts_self _, ?_⟩
  exact List.mem_map.2 ⟨_, List.mem_filter.2 ⟨h, decide_eq_true rfl⟩, rfl⟩

end Parts

variable [Scalar K] {scope : Scope K}

/-! ## Operands -/

/-- The value stands under the operator of the operand, and the operand evaluates to it. -/
def EvaluatesTo (scope : Scope K) (operand : Operator × Expression K) (value : Operand K) : Prop :=
  operand.1 = value.operator ∧ operand.2.evaluate scope = some value.term

section Operands

variable {operands : List (Operator × Expression K)} {values : List (Operand K)}

/-- Operands have values if each of them has its own. -/
theorem evaluateOperands_eq_some_iff : evaluateOperands scope operands = some values ↔
    List.Forall₂ (EvaluatesTo scope) operands values := by
  induction operands generalizing values with
  | nil =>
    rw [evaluateOperands, Option.some.injEq, List.forall₂_nil_left_iff]
    exact eq_comm
  | cons operand rest ih =>
    rw [evaluateOperands, List.forall₂_cons_left_iff]
    -- Evaluation goes on with the other operands only if the first one has a value.
    constructor
    · intro h
      obtain ⟨term, hterm, h⟩ := Option.bind_eq_some_iff.1 h
      obtain ⟨others, hothers, h⟩ := Option.bind_eq_some_iff.1 h
      cases h
      exact ⟨_, others, ⟨rfl, hterm⟩, ih.1 hothers, rfl⟩
    · rintro ⟨⟨operator, term⟩, others, ⟨rfl, hterm⟩, hothers, rfl⟩
      rw [hterm, ih.2 hothers]
      rfl

/-- What is related one by one has a partner on the other side. -/
theorem exists_of_mem_forall₂ {α β : Type} {R : α → β → Prop} {as : List α} {bs : List β}
    (h : List.Forall₂ R as bs) :
    (∀ a ∈ as, ∃ b ∈ bs, R a b) ∧ ∀ b ∈ bs, ∃ a ∈ as, R a b := by
  induction h with
  | nil => exact ⟨List.forall_mem_nil _, List.forall_mem_nil _⟩
  | cons hhead _ ih =>
    refine ⟨List.forall_mem_cons.2 ⟨⟨_, List.mem_cons_self, hhead⟩, fun a ha => ?_⟩,
      List.forall_mem_cons.2 ⟨⟨_, List.mem_cons_self, hhead⟩, fun b hb => ?_⟩⟩
    · obtain ⟨b, hb, hab⟩ := ih.1 a ha
      exact ⟨b, List.mem_cons_of_mem _ hb, hab⟩
    · obtain ⟨a, ha, hab⟩ := ih.2 b hb
      exact ⟨a, List.mem_cons_of_mem _ ha, hab⟩

/-- What an operand evaluates to is among the values, under its operator. -/
theorem exists_mem_of_evaluateOperands {operand : Operator × Expression K}
    (hvalues : evaluateOperands scope operands = some values) (hmem : operand ∈ operands) :
    ∃ term, ⟨operand.1, term⟩ ∈ values ∧ operand.2.evaluate scope = some term := by
  obtain ⟨⟨operator, term⟩, hterm, rfl, hevaluates⟩ :=
    (exists_of_mem_forall₂ (evaluateOperands_eq_some_iff.1 hvalues)).1 operand hmem
  exact ⟨term, hterm, hevaluates⟩

/-- Operands miss their values if one of them has none. -/
theorem evaluateOperands_eq_none_iff : evaluateOperands scope operands = none ↔
    ∃ operand ∈ operands, operand.2.evaluate scope = none := by
  induction operands with
  | nil => simp [evaluateOperands]
  | cons operand rest ih =>
    have hcons : evaluateOperands scope (operand :: rest) =
        (operand.2.evaluate scope).bind fun term =>
          (evaluateOperands scope rest).map (⟨operand.1, term⟩ :: ·) := by
      rw [evaluateOperands]
      cases operand.2.evaluate scope <;> cases evaluateOperands scope rest <;> rfl
    rw [hcons, List.exists_mem_cons_iff, ← ih]
    cases operand.2.evaluate scope <;> simp

omit [Scalar K] in
/-- The operands of a sum in normal form are added or subtracted. -/
theorem IsNormal.of_sum (h : (Expression.sum operands).IsNormal) :
    (∀ operand ∈ operands, operand.1 = .add ∨ operand.1 = .subtract) ∧
      ∀ operand ∈ operands, operand.2.IsNormal := by
  cases h with
  | sum _ hoperators hoperands =>
    exact ⟨List.forall_mem_cons.2 ⟨.inl rfl, hoperators⟩, hoperands⟩

omit [Scalar K] in
/-- The operands of a product in normal form are multiplied with or divided by. -/
theorem IsNormal.of_product (h : (Expression.product operands).IsNormal) :
    (∀ operand ∈ operands, operand.1 = .multiply ∨ operand.1 = .divide) ∧
      ∀ operand ∈ operands, operand.2.IsNormal := by
  cases h with
  | product _ hoperators hoperands =>
    exact ⟨List.forall_mem_cons.2 ⟨.inl rfl, hoperators⟩, hoperands⟩

/-- The values of the operands of a sum or a product reduce to a term. -/
theorem IsNormal.evaluate_isSome {tree : Expression K} (h : tree.IsNormal)
    (hoperands : tree.HasOperands operands)
    (hvalues : evaluateOperands scope operands = some values) :
    (tree.evaluate scope).isSome = true := by
  have hall := evaluateOperands_eq_some_iff.1 hvalues
  -- The first operand is added or multiplied, so there is something to reduce.
  rcases hoperands with rfl | rfl
  · cases h with
    | sum hrest hoperators hoperands =>
      obtain ⟨⟨operator, term⟩, rest, ⟨rfl, -⟩, -, rfl⟩ := List.forall₂_cons_left_iff.1 hall
      rw [evaluate, hvalues]
      exact reduceSum_isSome List.mem_cons_self (.inl rfl)
  · cases h with
    | product hrest hoperators hoperands =>
      obtain ⟨value, rest, -, -, rfl⟩ := List.forall₂_cons_left_iff.1 hall
      rw [evaluate, hvalues]
      exact reduceProduct_isSome (List.cons_ne_nil _ _)

/-- A sum or a product misses its value if an operand misses its own. -/
theorem IsNormal.evaluate_eq_none_iff_operand {tree : Expression K} (h : tree.IsNormal)
    (hoperands : tree.HasOperands operands) :
    tree.evaluate scope = none ↔ ∃ operand ∈ operands, operand.2.evaluate scope = none := by
  rw [← evaluateOperands_eq_none_iff]
  constructor
  · intro hnone
    -- With a value for each operand the sum or product has one, too.
    by_contra hvalues
    obtain ⟨values, hvalues⟩ := Option.ne_none_iff_exists'.1 hvalues
    have hsome := h.evaluate_isSome hoperands hvalues
    rw [hnone] at hsome
    cases hsome
  · intro hnone
    rcases hoperands with rfl | rfl <;> rw [evaluate, hnone] <;> rfl

end Operands

/-! ## Missing components -/

/-- A name at a leaf of the expression stands for a missing component. The first component of a name
counts. -/
def NamesMissing (scope : Scope K) (tree : Expression K) : Prop :=
  ∃ name, .symbol name ∈ tree.leaves ∧ scope.bindings.lookup name = some none

/-- A leaf has no value only if it is a name that stands for a missing component. -/
theorem evaluateTerm_eq_none_iff {term : Term K} : evaluateTerm scope term = none ↔
    ∃ name, term = .symbol name ∧ scope.bindings.lookup name = some none := by
  cases term with
  | number value => simp [evaluateTerm]
  | expression text kind => simp [evaluateTerm]
  | percentage value =>
    rw [evaluateTerm]
    split <;> simp
  | dimension value unit =>
    rw [evaluateTerm]
    split
    · simp
    · split <;> simp
  -- Only a name may be bound to a missing channel.
  | symbol name =>
    rw [evaluateTerm]
    split
    · next component hlookup => simp [hlookup]
    · next hlookup =>
      simp only [hlookup, Term.symbol.injEq, exists_eq_left', reduceCtorEq, iff_false]
      split <;> simp

omit [Scalar K] in
/-- A missing component is named in a sum or a product if it is named in an operand. -/
theorem HasOperands.namesMissing_iff {tree : Expression K}
    {operands : List (Operator × Expression K)} (h : tree.HasOperands operands) :
    tree.NamesMissing scope ↔ ∃ operand ∈ operands, operand.2.NamesMissing scope := by
  constructor
  · rintro ⟨name, hname, hmissing⟩
    have hleaves : tree.leaves = operandLeaves operands := by
      rcases h with rfl | rfl <;> rw [leaves]
    rw [hleaves] at hname
    obtain ⟨operand, hmem, hname⟩ := mem_operandLeaves hname
    exact ⟨operand, hmem, name, hname, hmissing⟩
  · rintro ⟨operand, hmem, name, hname, hmissing⟩
    exact ⟨name, h.mem_leaves hmem hname, hmissing⟩

/-- An expression that names a missing component has no value, and any other has one. -/
theorem IsNormal.evaluate_eq_none_iff_namesMissing {tree : Expression K} (h : tree.IsNormal) :
    tree.evaluate scope = none ↔ tree.NamesMissing scope := by
  induction h with
  | leaf hterm =>
    rw [evaluate, evaluateTerm_eq_none_iff]
    simp [NamesMissing, leaves, eq_comm]
  -- A sum fails exactly if one of its operands does, and so does a product.
  | @sum first rest hrest hoperators hoperands ih =>
    have hsum : HasOperands (.sum ((.add, first) :: rest)) ((.add, first) :: rest) := .inl rfl
    rw [(IsNormal.sum hrest hoperators hoperands).evaluate_eq_none_iff_operand hsum,
      hsum.namesMissing_iff]
    exact exists_congr fun operand => and_congr_right fun hmem => ih operand hmem
  | @product first rest hrest hoperators hoperands ih =>
    have hproduct : HasOperands (.product ((.multiply, first) :: rest)) ((.multiply, first) :: rest) :=
      .inr rfl
    rw [(IsNormal.product hrest hoperators hoperands).evaluate_eq_none_iff_operand hproduct,
      hproduct.namesMissing_iff]
    exact exists_congr fun operand => and_congr_right fun hmem => ih operand hmem

/-- An expression that the grammar reads has no value in a scope if and only if a name in it, at any
depth, stands for a missing component, the first component of a name being the one that counts. In
every other case it evaluates to a term. -/
theorem evaluate_eq_none_iff {levels : ℕ} {tokens rest : List (Token K)} {tree : Expression K}
    (h : (rule levels).run tokens = (some tree, rest)) (scope : Scope K) :
    tree.evaluate scope = none ↔
      ∃ name, .symbol name ∈ tree.leaves ∧ scope.bindings.lookup name = some none := by
  have hnormal : tree.IsNormal := rule_isNormal levels tokens tree rest h
  exact hnormal.evaluate_eq_none_iff_namesMissing

/-- In `calc(0 * (e - 1px))` the factor of zero does not hide that the component `e` is missing, nor
does the constant of the same name. -/
theorem evaluate_eq_none_iff_zeroFactor :
    let tree : Expression Double := product [(.multiply, leaf (.number 0.0)), (.multiply,
      sum [(.add, leaf (.symbol "e")), (.subtract, leaf (.dimension 1.0 "px"))])]
    let scope : Scope Double := { Scope.empty with bindings := [("e", none), ("e", some 1.0)] }
    (rule 2).run [.function "calc", .number 0.0, .whitespace, .delim '*', .whitespace, .openParen,
      .ident "e", .whitespace, .delim '-', .whitespace, .dimension 1.0 "px", .closeParen,
      .closeParen] = (some tree, []) ∧ tree.evaluate scope = none := by
  intro tree scope
  -- The scope binds the name twice, and the first binding counts.
  have hname : IsNormal (leaf (.symbol "e" : Term Double)) := .leaf (show "e".toLower = "e" by cbv)
  have hsum : IsNormal (sum [(.add, leaf (.symbol "e")), (.subtract,
      leaf (.dimension (1.0 : Double) "px"))]) := .sum (by simp) (by simp)
    (List.forall_mem_cons.2 ⟨hname, List.forall_mem_singleton.2 (.leaf trivial)⟩)
  have hnormal : tree.IsNormal := .product (by simp) (by simp)
    (List.forall_mem_cons.2 ⟨.leaf trivial, List.forall_mem_singleton.2 hsum⟩)
  have hread : (rule 2).run tree.callTokens = (some tree, []) := hnormal.run_callTokens (by decide)
  refine ⟨hread, (evaluate_eq_none_iff hread scope).2 ⟨"e", ?_, rfl⟩⟩
  simp [tree, leaves, operandLeaves]

end CssColor.Expression
