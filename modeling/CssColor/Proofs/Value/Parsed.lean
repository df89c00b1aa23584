import CssColor.Proofs.Calc.Leaves
import CssColor.Proofs.Token.Reading
import CssColor.Value.Grammar

/-!
# Values that the grammar reads

What holds of each colour value that the grammar reads (`ColorValue.rule_isParsed`), as an inductive
predicate (`ColorValue.IsParsed`): a name is that of a colour, a mix is in a space for mixing, names
an arc only where the space has a hue, and takes percentages between 0% and 100%, at any depth.
-/

namespace CssColor

open Rule

variable {K : Type}

/-! ## Arguments -/

namespace Argument

/-- The terms that an argument is made of. -/
def leaves : Argument K → List (Term K)
  | missing => []
  | number value => [.number value]
  | percentage value => [.percentage value]
  | dimension value unit => [.dimension value unit]
  | keyword name => [.symbol name]
  | expression tree => tree.leaves

/-- All terms of the argument are written by tokens. -/
def IsRead (argument : Argument K) : Prop := ∀ leaf ∈ argument.leaves, leaf.isToken = true

variable {expression : Rule K (Expression K)}

/-- A token that is read as an argument holds a term that is a token. -/
theorem tokenRule_isRead : Yields IsRead (tokenRule : Rule K (Argument K)) := by
  have hleaf : ∀ term : Term K, term.isToken = true → ∀ leaf ∈ [term], leaf.isToken = true := by
    intro term hterm leaf hleaf
    rw [List.mem_singleton.1 hleaf]
    exact hterm
  refine Yields.after fun token => ?_
  split
  · exact Yields.pure (hleaf _ rfl)
  · exact Yields.pure (hleaf _ rfl)
  · exact Yields.pure (hleaf _ rfl)
  · refine Yields.pure ?_
    split
    · exact fun _ h => absurd h List.not_mem_nil
    · exact hleaf _ rfl
  · exact Yields.fail

/-- An argument is read with terms that are tokens, if expressions are. -/
theorem rule_isRead (h : Yields Expression.IsRead expression) : Yields IsRead (rule expression) := by
  refine Yields.after fun _ => Yields.ite (fun _ => ?_) fun _ => tokenRule_isRead
  exact h.bind fun _ htree => Yields.pure htree

end Argument

namespace Arguments

/-- All arguments, the alpha last. -/
def toList (arguments : Arguments K) : List (Argument K) :=
  arguments.components.toList ++ arguments.alpha.toList

/-- So are the arguments in the notation with blanks. -/
theorem modernRule_isRead {expression : Rule K (Expression K)}
    (h : Yields Expression.IsRead expression) :
    Yields (fun arguments => ∀ argument ∈ arguments.toList, argument.IsRead)
      (modernRule expression) := by
  have hargument := Argument.rule_isRead h
  have halpha : Yields (fun alpha => ∀ argument ∈ alpha, argument.IsRead)
      (Rule.optional do
        Rule.nextWith (Token.isDelim '/')
        Argument.rule expression) := (Yields.after fun _ => hargument).optional
  refine hargument.bind fun first hfirst => hargument.bind fun second hsecond =>
    hargument.bind fun third hthird => halpha.bind fun alpha halpha =>
      Yields.after fun _ => Yields.pure fun argument hmem => ?_
  rcases List.mem_append.1 hmem with hmem | hmem
  · simp only [Triple.toList, List.mem_cons, List.not_mem_nil, or_false] at hmem
    rcases hmem with rfl | rfl | rfl
    · exact hfirst
    · exact hsecond
    · exact hthird
  · exact halpha argument (Option.mem_toList.1 hmem)

end Arguments

/-! ## Colours -/

namespace ColorValue

variable [Scalar K]

/-- Whether a percentage, if there is one, is between 0% and 100%. -/
def ShareBetween (share : Option K) : Prop :=
  ∀ value ∈ share, Number.isBetween 0.0 100.0 value = true

/-- A colour value that the grammar may read. -/
inductive IsParsed : ColorValue K → Prop
  | named {name : String} (hname : (namedColor? name).isSome = true) : IsParsed (named name)
  | transparent : IsParsed transparent
  | currentColor : IsParsed currentColor
  | hex (digits : Rgba) : IsParsed (hex digits)
  | function (space : Space) (arguments : Arguments K) : IsParsed (function space arguments)
  | relative {origin : ColorValue K} (space : Space) {arguments : Arguments K}
      (horigin : IsParsed origin) (harguments : ∀ argument ∈ arguments.toList, argument.IsRead) :
      IsParsed (relative origin space arguments)
  | mix {space : Space} {arc : Option HueArc} {first second : ColorValue K}
      {firstShare secondShare : Option K}
      (hspace : ∃ name, Space.ofInterpolationName? name = some space)
      (harc : arc.isSome = true → space.isPolar = true)
      (hfirst : IsParsed first) (hfirstShare : ShareBetween firstShare)
      (hsecond : IsParsed second) (hsecondShare : ShareBetween secondShare) :
      IsParsed (mix space arc first firstShare second secondShare)

variable {expression : Rule K (Expression K)} {color : Rule K (ColorValue K)}

/-- A share is checked when it is read. -/
theorem shareRule_between :
    Yields (fun share : K => Number.isBetween 0.0 100.0 share = true) (shareRule expression) := by
  have hcheck : ∀ share : K, Yields (fun share : K => Number.isBetween 0.0 100.0 share = true)
      (if Number.isBetween 0.0 100.0 share then pure share else Rule.fail : Rule K K) :=
    fun share => Yields.ite (fun h => Yields.pure h) fun _ => Yields.fail
  refine Yields.after fun _ => Yields.ite (fun _ => ?_) fun _ => ?_
  · refine Yields.after fun value => ?_
    split
    · exact Yields.after hcheck
    · exact Yields.after hcheck
  · refine Yields.after fun token => ?_
    split
    · exact Yields.after hcheck
    · exact Yields.after hcheck

/-- The colour of an ingredient is parsed, and its share is checked. -/
theorem ingredientRule_isParsed (hcolor : Yields IsParsed color) :
    Yields (fun ingredient => ingredient.1.IsParsed ∧ ShareBetween ingredient.2)
      (ingredientRule expression color) := by
  have hshare : Yields ShareBetween (shareRule expression).optional := shareRule_between.optional
  refine hshare.bind fun leading hleading => hcolor.bind fun value hvalue => ?_
  -- The percentage is the one before the colour, or else the one after it.
  cases leading with
  | some share => exact Yields.pure ⟨hvalue, hleading⟩
  | none => exact hshare.bind fun trailing htrailing => Yields.pure ⟨hvalue, htrailing⟩

/-- A mix of parsed colours is parsed. -/
theorem mixRule_isParsed (hcolor : Yields IsParsed color) :
    Yields IsParsed (mixRule expression color) := by
  have hingredient : Yields (fun ingredient => ingredient.1.IsParsed ∧ ShareBetween ingredient.2)
      (ingredientRule expression color) := ingredientRule_isParsed hcolor
  -- The space comes from a name, which is what makes it one to mix in.
  have hspace : ∀ name, Yields (fun space => ∃ name, Space.ofInterpolationName? name = some space)
      (Rule.ofOption (Space.ofInterpolationName? name) : Rule K Space) :=
    fun name => Yields.ofOption fun _ h => ⟨name, h⟩
  refine Yields.after fun _ => Yields.after fun name => (hspace name).bind fun space hspace =>
    Yields.after fun arc => Yields.ite (fun _ => Yields.fail) fun harc => ?_
  refine Yields.after fun _ => hingredient.bind fun (_, _) ⟨hfirst, hfirstShare⟩ =>
    Yields.after fun _ => hingredient.bind fun (_, _) ⟨hsecond, hsecondShare⟩ => ?_
  refine Yields.after fun _ =>
    Yields.pure (.mix hspace (fun hsome => ?_) hfirst hfirstShare hsecond hsecondShare)
  -- A method is only read for a space with a hue.
  rw [hsome, Bool.true_and, Bool.not_eq_true', Bool.not_eq_false] at harc
  exact harc

/-- A colour function in the notation with blanks is parsed, as its origin is. -/
theorem modernRule_isParsed (hexpression : Yields Expression.IsRead expression)
    (hcolor : Yields IsParsed color) (name : FunctionName) :
    Yields IsParsed (modernRule expression color name) := by
  refine Yields.after fun _ => Yields.ite (fun _ => ?_) fun _ => ?_
  · exact Yields.after fun _ => hcolor.bind fun _ horigin => Yields.after fun space =>
      (Arguments.modernRule_isRead hexpression).bind fun _ harguments =>
        Yields.pure (.relative space horigin harguments)
  · exact Yields.after fun _ => Yields.after fun _ => Yields.pure (.function _ _)

/-- A colour function in the notation with commas is parsed. -/
theorem legacyRule_isParsed (name : FunctionName) :
    Yields IsParsed (legacyRule expression name) := by
  cases name with
  | ofSpace space =>
    exact Yields.ite (fun _ => Yields.after fun _ => Yields.pure (.function _ _)) fun _ =>
      Yields.fail
  | predefined => exact Yields.fail

/-- A colour function in either notation is parsed. -/
theorem functionRule_isParsed (hexpression : Yields Expression.IsRead expression)
    (hcolor : Yields IsParsed color) (name : String) :
    Yields IsParsed (functionRule expression color name) := by
  refine Yields.after fun name => (legacyRule_isParsed name).optional.bind fun value hvalue => ?_
  cases value with
  | some value => exact Yields.pure (hvalue value rfl)
  | none => exact modernRule_isParsed hexpression hcolor name

/-- The colour of a keyword is parsed. -/
theorem isParsed_of_ofKeyword? {keyword : String} {value : ColorValue K}
    (h : ofKeyword? keyword = some value) : value.IsParsed := by
  unfold ofKeyword? at h
  split at h
  · cases h
    exact .transparent
  · cases h
    exact .currentColor
  · split at h
    · next hname =>
      cases h
      exact .named hname
    · cases h

/-- A colour is parsed if the functions are. -/
theorem ruleWith_isParsed {call : String → Rule K (ColorValue K)}
    (hcall : ∀ name, Yields IsParsed (call name)) : Yields IsParsed (ruleWith call) := by
  refine Yields.after fun token => ?_
  split
  · exact Yields.ofOption fun value hvalue => isParsed_of_ofKeyword? hvalue
  · exact Yields.after fun _ => Yields.pure (.hex _)
  · exact hcall _
  · exact Yields.fail

/-- What holds of each colour value that the grammar reads. -/
theorem rule_isParsed (levels : ℕ) :
    Yields IsParsed (rule levels : Rule K (ColorValue K)) := by
  induction levels with
  | zero => exact ruleWith_isParsed fun _ => Yields.fail
  | succ levels ih =>
    exact ruleWith_isParsed fun name => Yields.ite (fun _ => mixRule_isParsed ih) fun _ =>
      functionRule_isParsed (Expression.rule_isRead levels) ih name

/-! ## Percentages of mixes -/

/-- All percentages in a colour value are between 0% and 100%. -/
def SharesBetween : ColorValue K → Prop
  | relative origin _ _ => origin.SharesBetween
  | mix _ _ first firstShare second secondShare =>
    first.SharesBetween ∧ ShareBetween firstShare ∧ second.SharesBetween ∧ ShareBetween secondShare
  | _ => True

/-- The shares in a parsed colour were checked. -/
theorem IsParsed.sharesBetween {value : ColorValue K} (h : value.IsParsed) :
    value.SharesBetween := by
  induction h with
  | relative space _ _ ih => exact ih
  | mix _ _ _ hfirstShare _ hsecondShare ihfirst ihsecond =>
    exact ⟨ihfirst, hfirstShare, ihsecond, hsecondShare⟩
  | _ => trivial

/-- The grammar takes only percentages between 0% and 100%. -/
theorem rule_sharesBetween (levels : ℕ) :
    Yields SharesBetween (rule levels : Rule K (ColorValue K)) :=
  fun tokens value rest h => (rule_isParsed levels tokens value rest h).sharesBetween

end ColorValue

end CssColor
