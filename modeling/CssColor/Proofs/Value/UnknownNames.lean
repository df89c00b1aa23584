import CssColor.Proofs.Calc.Evaluation
import CssColor.Proofs.Calc.Folding
import CssColor.Proofs.Value.Parsed
import CssColor.Proofs.Value.Range
import CssColor.Value.Specified

/-!
# Unknown names

A name that stands for nothing is found in two ways. A relative colour has no text as specified
because of the names in its arguments, and a colour does not resolve because of a name that is left
over when an argument is evaluated. The second way needs the name to come through: a component that
is missing makes an expression missing as a whole, and a product that is folded to zero or to what
is not a number drops the names in it. Where folding keeps the name (`Expression.Keeps`), the two
ways agree (`ColorValue.resolveWith_unknownName`).
-/

namespace CssColor

variable {K : Type} [Scalar K]

/-! ## Operands -/

namespace Reduce

variable {operands : List (Operand K)} {operator : Operator} {term value : Term K}

/-- The product of the numbers is a number, and it is zero only beside a value with a unit. -/
structure KeepsFactors (operands : List (Operand K)) : Prop where
  isNumber : Number.isNaN (scale operands) = false
  hasUnit : (scale operands == 0.0) = true →
    ¬ (dimensions (under .multiply operands) = [] ∧ dimensions (under .divide operands) = [])

/-- The sum of the numbers, if there are any, is a number. -/
def KeepsAddends (operands : List (Operand K)) : Prop :=
  ∀ total ∈ total? (signedNumbers operands), Number.isNaN total = false

/-- Such a product keeps a name or an expression. -/
theorem KeepsFactors.isSymbolic (h : KeepsFactors operands) (hmem : ⟨operator, term⟩ ∈ operands)
    (hoperator : operator = .multiply ∨ operator = .divide) (hterm : term.isSymbolic = true)
    (hvalue : reduceProduct operands = some value) : value.isSymbolic = true := by
  -- A symbolic factor is among the factors or the divisors that are kept.
  have hsome :
      ¬ (others (under .multiply operands) = [] ∧ divisors (under .divide operands) = []) := by
    rintro ⟨hfactors, hdivisors⟩
    rcases hoperator with rfl | rfl
    · exact List.ne_nil_of_mem (mem_others (mem_under hmem) hterm) hfactors
    · exact List.ne_nil_of_mem (mem_divisors (mem_under hmem) hterm) hdivisors
  -- Every other case of the fold has no such factor or divisor.
  cases productFold_of_reduceProduct hvalue with
  | expression => rfl
  | notANumber hscale =>
    rw [h.isNumber] at hscale
    cases hscale
  | zero hscale hmultiplied hdivided => exact absurd ⟨hmultiplied, hdivided⟩ (h.hasUnit hscale)
  | zeroPercentage hscale hmultiplied hdivided =>
    exact absurd ⟨hmultiplied, hdivided⟩ (h.hasUnit hscale)
  | percentage x hfactors hdivisors => exact absurd ⟨hfactors, hdivisors⟩ hsome
  | number hmeasured => exact absurd ⟨hmeasured.factors, hmeasured.divisors⟩ hsome
  | dimension x unit hmeasured => exact absurd ⟨hmeasured.factors, hmeasured.divisors⟩ hsome
  | ratio x divisor unit hmeasured => exact absurd ⟨hmeasured.factors, hmeasured.divisors⟩ hsome

/-- Such a sum keeps a name or an expression. -/
theorem KeepsAddends.isSymbolic (h : KeepsAddends operands) (hmem : ⟨operator, term⟩ ∈ operands)
    (hoperator : operator = .add ∨ operator = .subtract) (hterm : term.isSymbolic = true)
    (hvalue : reduceSum operands = some value) : value.isSymbolic = true := by
  -- A symbolic operand is among those that are neither numbers nor dimensions.
  have hsome : ¬ NoOthers operands := by
    intro hothers
    rw [hothers.isSymbolic_eq_false hoperator hmem] at hterm
    cases hterm
  cases sumFold_of_reduceSum hvalue with
  | expression => rfl
  | addend addend haddend => exact haddend
  | notANumber total htotal hnan =>
    rw [h total htotal] at hnan
    cases hnan
  | number total hparts hothers => exact absurd hothers hsome
  | percentage total hothers => exact absurd hothers hsome
  | dimension total unit hparts hothers => exact absurd hothers hsome

end Reduce

open Reduce

/-! ## Expressions -/

namespace Expression

/-- The name is at a leaf of the expression, and the sums and products around it keep it. -/
inductive Keeps (scope : Scope K) (name : String) : Expression K → Prop
  | leaf : Keeps scope name (leaf (.symbol name))
  | sum {operands : List (Operator × Expression K)} {operand : Operator × Expression K}
      (hmem : operand ∈ operands) (hoperand : Keeps scope name operand.2)
      (hkeeps : ∀ values, evaluateOperands scope operands = some values → KeepsAddends values) :
      Keeps scope name (sum operands)
  | product {operands : List (Operator × Expression K)} {operand : Operator × Expression K}
      (hmem : operand ∈ operands) (hoperand : Keeps scope name operand.2)
      (hkeeps : ∀ values, evaluateOperands scope operands = some values → KeepsFactors values) :
      Keeps scope name (product operands)

variable {scope : Scope K} {name : String} {tree : Expression K}

/-- A name that is no constant has no value of one. -/
theorem constant?_eq_none (h : isConstant name = false) : (constant? name : Option K) = none := by
  simp only [isConstant, Bool.or_eq_false_iff, beq_eq_false_iff_ne] at h
  obtain ⟨⟨⟨⟨he, hpi⟩, hinfinity⟩, hminus⟩, hnan⟩ := h
  unfold constant?
  split
  · exact absurd rfl he
  · exact absurd rfl hpi
  · exact absurd rfl hinfinity
  · exact absurd rfl hminus
  · exact absurd rfl hnan
  · rfl

/-- An expression that keeps a name which stands for nothing evaluates to no plain value. -/
theorem Keeps.isSymbolic (h : tree.Keeps scope name) (hnormal : tree.IsNormal)
    (hunbound : scope.bindings.lookup name = none) (hconstant : isConstant name = false)
    {value : Term K} (hvalue : tree.evaluate scope = some value) : value.isSymbolic = true := by
  -- On the way up from the name, each sum and product keeps what its operand has kept.
  induction h generalizing value with
  | leaf =>
    rw [evaluate, evaluateTerm, hunbound] at hvalue
    rw [constant?_eq_none hconstant] at hvalue
    cases hvalue
    rfl
  | sum hmem _ hkeeps ih =>
    rw [evaluate] at hvalue
    obtain ⟨values, hvalues, hvalue⟩ := Option.bind_eq_some_iff.1 hvalue
    obtain ⟨hoperators, hoperands⟩ := hnormal.of_sum
    obtain ⟨term, hterm, hevaluates⟩ := exists_mem_of_evaluateOperands hvalues hmem
    have hkept : term.isSymbolic = true := ih (hoperands _ hmem) hevaluates
    exact (hkeeps values hvalues).isSymbolic hterm (hoperators _ hmem) hkept hvalue
  | product hmem _ hkeeps ih =>
    rw [evaluate] at hvalue
    obtain ⟨values, hvalues, hvalue⟩ := Option.bind_eq_some_iff.1 hvalue
    obtain ⟨hoperators, hoperands⟩ := hnormal.of_product
    obtain ⟨term, hterm, hevaluates⟩ := exists_mem_of_evaluateOperands hvalues hmem
    have hkept : term.isSymbolic = true := ih (hoperands _ hmem) hevaluates
    exact (hkeeps values hvalues).isSymbolic hterm (hoperators _ hmem) hkept hvalue

end Expression

/-! ## Arguments -/

/-- An argument that is an expression is missing if it names a missing component, and otherwise it
resolves to nothing if it keeps a name that stands for nothing. -/
theorem Argument.resolve_expression {tree : Expression K} {scope : Scope K} {name : String}
    (hnormal : tree.IsNormal) (hunbound : scope.bindings.lookup name = none)
    (hconstant : Expression.isConstant name = false) :
    (tree.NamesMissing scope → (expression tree).resolve scope = some none) ∧
      (¬ tree.NamesMissing scope → tree.Keeps scope name →
        (expression tree).resolve scope = none) := by
  constructor
  · intro hmissing
    rw [Argument.resolve, hnormal.evaluate_eq_none_iff_namesMissing.2 hmissing]
  · -- The tree has a value, since nothing in it is missing.
    intro hpresent hkeeps
    have hsome : tree.evaluate scope ≠ none := fun hnone =>
      hpresent (hnormal.evaluate_eq_none_iff_namesMissing.1 hnone)
    obtain ⟨value, hvalue⟩ := Option.ne_none_iff_exists'.1 hsome
    have hsymbolic := hkeeps.isSymbolic hnormal hunbound hconstant hvalue
    rw [Argument.resolve, hvalue]
    cases value with
    | symbol | expression => rfl
    | number | percentage | dimension => cases hsymbolic

namespace Arguments

variable {space : Space} {bindings : List (String × Option K)} {dimensions : Lookup K}
  {arguments : Arguments K} {tree : Expression K} {name : String}

/-- The arguments, each with what it may refer to. -/
def inScopes (space : Space) (bindings : List (String × Option K)) (dimensions : Lookup K)
    (arguments : Arguments K) : List (Scope K × Argument K) :=
  let scope := componentScope space bindings dimensions
  [(scope .first, arguments.components.first), (scope .second, arguments.components.second),
    (scope .third, arguments.components.third)] ++
      arguments.alpha.toList.map fun alpha => (alphaScope bindings dimensions, alpha)

/-- The names that are bound are the same for all arguments. -/
theorem bindings_of_mem_inScopes {pair : Scope K × Argument K}
    (h : pair ∈ arguments.inScopes space bindings dimensions) : pair.1.bindings = bindings := by
  rcases List.mem_append.1 h with h | h
  · simp only [List.mem_cons, List.not_mem_nil, or_false] at h
    rcases h with rfl | rfl | rfl <;> rfl
  · obtain ⟨alpha, -, rfl⟩ := List.mem_map.1 h
    rfl

/-- Arguments give a colour only if each of them gives a component. -/
theorem resolve_eq_none {pair : Scope K × Argument K} {defaultAlpha : Option K}
    (h : pair ∈ arguments.inScopes space bindings dimensions)
    (hnone : pair.2.resolve pair.1 = none) :
    arguments.resolve space bindings defaultAlpha dimensions = none := by
  have hall : ∀ color, arguments.resolve space bindings defaultAlpha dimensions ≠ some color := by
    -- A colour would need a value for each argument in its scope.
    intro color hcolor
    obtain ⟨components, alpha, -, hcomponents, halpha⟩ := exists_of_resolve hcolor
    rcases List.mem_append.1 h with h | h
    · simp only [List.mem_cons, List.not_mem_nil, or_false] at h
      rcases h with rfl | rfl | rfl
      · cases hnone.symm.trans (hcomponents .first)
      · cases hnone.symm.trans (hcomponents .second)
      · cases hnone.symm.trans (hcomponents .third)
    · obtain ⟨argument, hargument, rfl⟩ := List.mem_map.1 h
      rw [Option.mem_toList] at hargument
      rcases halpha with ⟨hdefault, -⟩ | ⟨other, value, hother, hvalue, -⟩
      · cases hargument.symm.trans hdefault
      · cases hargument.symm.trans hother
        cases hnone.symm.trans hvalue
  exact Option.eq_none_iff_forall_ne_some.2 hall

/-- The expression is one of the arguments, and there it keeps the name and names no component that
is missing. -/
def Shows (space : Space) (bindings : List (String × Option K)) (dimensions : Lookup K)
    (arguments : Arguments K) (tree : Expression K) (name : String) : Prop :=
  ∃ scope, (scope, .expression tree) ∈ arguments.inScopes space bindings dimensions ∧
    ¬ tree.NamesMissing scope ∧ tree.Keeps scope name

/-- The arguments cannot be resolved if one of them shows the name. -/
theorem Shows.resolve_eq_none (h : arguments.Shows space bindings dimensions tree name)
    (hnormal : tree.IsNormal) (hunbound : bindings.lookup name = none)
    (hconstant : Expression.isConstant name = false) {defaultAlpha : Option K} :
    arguments.resolve space bindings defaultAlpha dimensions = none := by
  obtain ⟨scope, hmem, hpresent, hkeeps⟩ := h
  have hscope : scope.bindings = bindings := bindings_of_mem_inScopes hmem
  rw [← hscope] at hunbound
  exact Arguments.resolve_eq_none hmem
    ((Argument.resolve_expression hnormal hunbound hconstant).2 hpresent hkeeps)

omit [Scalar K] in
/-- The names of all arguments are asked about. -/
theorem usesOnly_eq_false {names : List String} (h : .expression tree ∈ arguments.toList)
    (hname : name ∈ tree.names) (hunknown : name ∉ names) : arguments.usesOnly names = false := by
  rw [usesOnly, List.all_eq_false]
  refine ⟨_, h, fun huses => hunknown ?_⟩
  have hall := List.all_eq_true.1 huses name hname
  exact List.contains_iff_mem.1 hall

end Arguments

/-! ## Colours -/

variable [Elementary K]

/-- Nothing but the names of a space and of the alpha is bound to a component of an origin. -/
theorem Color.lookup_bindings {color : Color K} {space : Space} {name : String}
    (h : name ∉ space.bindingNames) : (color.bindings space).lookup name = none := by
  rw [List.lookup_eq_none_iff]
  intro pair hpair
  have hnames : (color.bindings space).map Prod.fst = space.bindingNames := rfl
  have hmem : pair.1 ∈ space.bindingNames := by
    rw [← hnames]
    exact List.mem_map_of_mem hpair
  rw [bne_iff_ne]
  rintro rfl
  exact h hmem

namespace ColorValue

/-- Let an expression among the arguments of a colour function name what is no constant. Without an
origin the colour does not resolve if the expression keeps the name. With an origin, where the name
is none of the space, the colour has no text as specified, and it does not resolve if the expression
keeps the name and names no missing component of what the origin resolves to. An expression that
names a missing component is missing, whatever else it names. -/
theorem resolveWith_unknownName {depth : ℕ} {tokens rest : List (Token K)} {tree : Expression K}
    (hread : (Expression.rule depth).run tokens = (some tree, rest)) {name : String}
    (hname : .symbol name ∈ tree.leaves) (hconstant : Expression.isConstant name = false)
    {arguments : Arguments K} (hargument : .expression tree ∈ arguments.toList) (space : Space)
    (current : ℕ → Option (Resolved K)) (dimensions : Lookup K) (levels : ℕ) :
    (arguments.Shows space [] dimensions tree name →
      resolveWith current dimensions levels (function space arguments) = none) ∧
    (name ∉ space.bindingNames → ∀ origin,
      specifiedTextWith dimensions levels (relative origin space arguments) = none ∧
      ((∀ resolved, resolveWith current dimensions (levels - 1) origin = some resolved →
          arguments.Shows space (resolved.color.bindings space) dimensions tree name) →
        resolveWith current dimensions levels (relative origin space arguments) = none)) ∧
    ∀ scope : Scope K, tree.NamesMissing scope →
      (Argument.expression tree).resolve scope = some none := by
  have hnormal : tree.IsNormal := Expression.rule_isNormal depth tokens tree rest hread
  refine ⟨fun hshows => ?_, fun hunknown origin => ⟨?_, fun hshows => ?_⟩, fun scope hmissing => ?_⟩
  · rw [resolveWith, Resolved.ofFunction?, hshows.resolve_eq_none hnormal rfl hconstant]
    rfl
  · -- The specified text may only use the names of the space.
    cases levels with
    | zero => rw [specifiedTextWith]
    | succ levels =>
      have hnames : name ∈ tree.names :=
        (Expression.isConstant_or_mem_names tree hname).resolve_left (by rw [hconstant]; decide)
      rw [specifiedTextWith, Arguments.usesOnly_eq_false hargument hnames hunknown]
      rfl
  · cases levels with
    | zero => rw [resolveWith]
    | succ levels =>
      rw [resolveWith]
      cases horigin : resolveWith current dimensions levels origin with
      | none => rfl
      | some resolved =>
        have hnone : arguments.resolve space (resolved.color.bindings space)
            (resolved.color.alpha.map Scalar.toFinite) dimensions = none :=
          (hshows resolved horigin).resolve_eq_none hnormal (Color.lookup_bindings hunknown)
            hconstant
        show Resolved.ofOrigin? resolved.color space arguments dimensions = none
        rw [Resolved.ofOrigin?, hnone]
        rfl
  · rw [Argument.resolve, hnormal.evaluate_eq_none_iff_namesMissing.2 hmissing]

/-- In `rgb(from red calc(x + 1) g b)` the name `x` is no component. -/
theorem resolveWith_unknownName_sum :
    let tree : Expression Double := .sum [(.add, .leaf (.symbol "x")), (.add, .leaf (.number 1.0))]
    let value : ColorValue Double :=
      relative (named "red") .rgb ⟨⟨.expression tree, .keyword "g", .keyword "b"⟩, none⟩
    (Expression.rule 1).run [.function "calc", .ident "x", .whitespace, .delim '+', .whitespace,
      .number 1.0, .closeParen] = (some tree, []) ∧
      value.specifiedText {} = none ∧ value.resolve {} = none := by
  intro tree value
  have hname : Expression.IsNormal (.leaf (.symbol "x" : Term Double)) :=
    .leaf (show "x".toLower = "x" by cbv)
  have hnormal : tree.IsNormal := .sum (by simp) (by simp)
    (List.forall_mem_cons.2 ⟨hname, List.forall_mem_singleton.2 (.leaf trivial)⟩)
  have hread : (Expression.rule 1).run tree.callTokens = (some tree, []) :=
    hnormal.run_callTokens (by decide)
  have hleaf : .symbol "x" ∈ tree.leaves := by
    simp [tree, Expression.leaves, Expression.operandLeaves]
  have hunknown : "x" ∉ Space.rgb.bindingNames := by decide
  let arguments : Arguments Double := ⟨⟨.expression tree, .keyword "g", .keyword "b"⟩, none⟩
  have hargument : .expression tree ∈ arguments.toList := List.mem_cons_self
  have hclaim := (resolveWith_unknownName hread hleaf (by decide) hargument .rgb
    (resolveCurrentColor {}) Lookup.empty maxNestingDepth).2.1 hunknown (named "red")
  refine ⟨hread, hclaim.1, hclaim.2 fun resolved _ => ?_⟩
  -- Whatever the origin is, the name is looked up in vain and stays beside a sum of one.
  let scope := Arguments.componentScope .rgb (resolved.color.bindings .rgb) Lookup.empty .first
  have hlookup : scope.bindings.lookup "x" = none := Color.lookup_bindings hunknown
  refine ⟨scope, List.mem_cons_self, ?_, .sum List.mem_cons_self .leaf fun values hvalues => ?_⟩
  · rintro ⟨name, hname, hmissing⟩
    have hx : name = "x" := by
      simpa [tree, Expression.leaves, Expression.operandLeaves] using hname
    rw [hx, hlookup] at hmissing
    cases hmissing
  · have hx : Expression.evaluateTerm scope (.symbol "x") = some (.symbol "x") := by
      rw [Expression.evaluateTerm, hlookup]
      rfl
    have hall : Expression.evaluateOperands scope [(.add, .leaf (.symbol "x")),
        (.add, .leaf (.number 1.0))] = some [⟨.add, .symbol "x"⟩, ⟨.add, .number 1.0⟩] := by
      rw [Expression.evaluateOperands_eq_some_iff]
      exact .cons ⟨rfl, hx⟩ (.cons ⟨rfl, rfl⟩ .nil)
    rw [hall] at hvalues
    cases hvalues
    have htotal : Number.isNaN (Number.sum [(1.0 : Double)]) = false := by decide +kernel
    intro total htotal'
    cases htotal'
    exact htotal

/-- The name `x` is dropped where it is multiplied with zero, and where a component is missing. -/
theorem not_resolve_unknownName :
    (¬ ∀ (depth : ℕ) (tokens rest : List (Token Double)) (tree : Expression Double) (name : String)
      (arguments : Arguments Double) (space : Space),
      (Expression.rule depth).run tokens = (some tree, rest) → .symbol name ∈ tree.leaves →
      Expression.isConstant name = false → .expression tree ∈ arguments.toList →
      ∀ options, (function space arguments).resolve options = none) ∧
    ¬ ∀ (depth : ℕ) (tokens rest : List (Token Double)) (tree : Expression Double) (name : String)
      (arguments : Arguments Double) (space : Space),
      (Expression.rule depth).run tokens = (some tree, rest) → .symbol name ∈ tree.leaves →
      Expression.isConstant name = false → .expression tree ∈ arguments.toList →
      name ∉ space.bindingNames →
      ∀ options origin, (relative origin space arguments).resolve options = none := by
  have hname : ∀ name : String, name.toLower = name →
      Expression.IsNormal (.leaf (.symbol name : Term Double)) := fun _ h => .leaf h
  constructor
  · -- The factor zero takes the name with it.
    intro h
    let tree : Expression Double :=
      .product [(.multiply, .leaf (.number 0.0)), (.multiply, .leaf (.symbol "x"))]
    have hnormal : tree.IsNormal := .product (by simp) (by simp)
      (List.forall_mem_cons.2 ⟨.leaf trivial, List.forall_mem_singleton.2 (hname "x" (by cbv))⟩)
    have hleaf : .symbol "x" ∈ tree.leaves := by
      simp [tree, Expression.leaves, Expression.operandLeaves]
    let arguments : Arguments Double := ⟨⟨.expression tree, .number 0.0, .number 0.0⟩, none⟩
    have hnone := h 1 _ _ tree "x" arguments .rgb (hnormal.run_callTokens (by decide)) hleaf
      (by decide) List.mem_cons_self {}
    have hsome : ((function .rgb arguments).resolve {}).isSome = true := by decide +kernel
    rw [hnone] at hsome
    cases hsome
  · -- The channel that is missing makes the whole sum missing.
    intro h
    let tree : Expression Double :=
      .sum [(.add, .leaf (.symbol "r")), (.add, .leaf (.symbol "x"))]
    have hnormal : tree.IsNormal := .sum (by simp) (by simp) (List.forall_mem_cons.2
      ⟨hname "r" (by cbv), List.forall_mem_singleton.2 (hname "x" (by cbv))⟩)
    have hleaf : .symbol "x" ∈ tree.leaves := by
      simp [tree, Expression.leaves, Expression.operandLeaves]
    let arguments : Arguments Double := ⟨⟨.expression tree, .keyword "g", .keyword "b"⟩, none⟩
    let origin : ColorValue Double :=
      function .rgb ⟨⟨.missing, .number 0.0, .number 0.0⟩, none⟩
    have hnone := h 1 _ _ tree "x" arguments .rgb (hnormal.run_callTokens (by decide)) hleaf
      (by decide) List.mem_cons_self (by decide) {} origin
    have hsome : ((relative origin .rgb arguments).resolve {}).isSome = true := by decide +kernel
    rw [hnone] at hsome
    cases hsome

end ColorValue

end CssColor
