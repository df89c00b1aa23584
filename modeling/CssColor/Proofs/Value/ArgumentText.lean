import CssColor.Proofs.Calc.Written
import CssColor.Proofs.Value.Parsed
import CssColor.Proofs.Value.Reading
import CssColor.Value.Specified

/-!
# Texts of arguments

The arguments of the texts that the grammar reads (`ReadsAsArgument`), and the texts whose arguments
use only given names and have a text of their own again (`IsArgumentText`). The text of an argument
as specified is one of them (`Argument.IsWritable.isArgumentText`), as long as its units are names
without escapes and it is not the name of a number that is not finite, nor runs such a name into a
percent sign or a unit.
-/

namespace CssColor

open Token Rule Scalar

variable {K : Type} [Scalar K] {names : List String} {text : String}

/-! ## Single arguments -/

/-- The text is read as the argument. -/
def ReadsAsArgument (text : String) (argument : Argument K) : Prop :=
  ∃ tokens : List (Token K), Forms text tokens ∧ RefersToNone tokens ∧
    Reads (Argument.rule (Expression.callRule Expression.unlimitedBlock)) tokens argument

/-- The text of a single token that stands for an argument. -/
theorem readsAsArgument_of_token {token : Token K} {argument : Argument K}
    (hforms : Forms text [token]) (hblank : token.isWhitespace = false)
    (hopens : token.opensBlock = false)
    (hreads : ∀ rest, Argument.tokenRule (token :: rest) = (some argument, rest)) :
    ReadsAsArgument text argument :=
  ⟨[token], hforms, RefersToNone.singleton (isFunction_of_not_opens hopens _),
    Argument.reads_token hblank (isFunction_of_not_opens hopens _) hreads⟩

/-- A word is read as a keyword in lower case, or as a missing component. -/
theorem readsAsArgument_keyword {name : String} (hword : IsWord name = true) :
    ReadsAsArgument name (if Text.sameIgnoringCase name "none" then .missing
      else .keyword name.toLower : Argument K) :=
  readsAsArgument_of_token (forms_word hword) rfl rfl fun _ => rfl

/-- The text of a sum is read as an argument in a call of `calc`. -/
theorem readsAsArgument_calc {tree : Expression K} {operands : List (Operator × Expression K)}
    (h : Expression.ReadsAsSum text tree operands) : ReadsAsArgument ("calc(" ++ text ++ ")")
      (.expression (Expression.ofOperands .sum .add tree operands)) := by
  obtain ⟨tokens, hspells, hnone, hreads⟩ := h.exists_reads
  have hword : IsWord "calc" = true := rfl
  have hcalc : ∀ rest : List (Token K),
      isCalling "calc" (Token.function "calc" :: rest) =
        (some true, Token.function "calc" :: rest) := by
    intro rest
    rw [isCalling_cons rfl, Token.isFunction, beq_self_eq_true]
  have hcall : Reads (Expression.callRule Expression.unlimitedBlock)
      (Token.function "calc" :: (tokens ++ [.closeParen]))
      (Expression.ofOperands .sum .add tree operands) := by
    intro rest
    rw [List.cons_append, Expression.callRule_calc]
    exact hreads rest
  refine ⟨Token.function "calc" :: (tokens ++ [.closeParen]), ?_, ?_, ?_⟩
  · rw [show "calc(" = "calc" ++ "(" from rfl]
    exact hspells.call hword
  · exact RefersToNone.cons (by cbv) (hnone.append (RefersToNone.singleton rfl))
  · -- The look at the first token finds `calc`, and leaves it to be read.
    exact Reads.after_look (fun rest => hcalc _) (hcall.map _)

/-- The text is read as an argument that uses only the given names and has a text again. -/
def IsArgumentText (K : Type) [Scalar K] (names : List String) (text : String) : Prop :=
  ∃ argument : Argument K, ReadsAsArgument text argument ∧ argument.usesOnly names = true ∧
    ∀ dimensions, (argument.specifiedText dimensions).isSome = true

/-- The text of a finite number is one. -/
theorem isArgumentText_number {value : K} (h : isFinite value = true) :
    IsArgumentText K names (Scalar.text value) :=
  ⟨.number (printed value), readsAsArgument_of_token (forms_number h) rfl rfl fun _ => rfl, rfl,
    fun _ => rfl⟩

/-- The text of a finite percentage is one. -/
theorem isArgumentText_percentage {value : K} (h : isFinite value = true) :
    IsArgumentText K names (Scalar.text value ++ "%") :=
  ⟨.percentage (printed value),
    readsAsArgument_of_token (forms_percentage h) rfl rfl fun _ => rfl, rfl, fun _ => rfl⟩

/-- The text of a finite value with a unit is one. -/
theorem isArgumentText_dimension {value : K} {unit : String} (h : isFinite value = true)
    (hunit : IsUnit unit = true) : IsArgumentText K names (Scalar.text value ++ unit) :=
  ⟨.dimension (printed value) unit.toLower,
    readsAsArgument_of_token (forms_dimension h hunit) rfl rfl fun _ => rfl, rfl, fun _ => rfl⟩

/-- A name that is used may be `none`, which is read as a missing component. -/
theorem isArgumentText_keyword {name : String} (hword : IsWord name = true)
    (hname : Text.sameIgnoringCase name "none" = true ∨ name.toLower ∈ names) :
    IsArgumentText K names name := by
  have hreads := readsAsArgument_keyword (K := K) hword
  cases hnone : Text.sameIgnoringCase name "none" with
  | true =>
    rw [hnone] at hreads
    exact ⟨.missing, hreads, rfl, fun _ => rfl⟩
  | false =>
    rw [hnone] at hreads hname
    exact ⟨.keyword name.toLower, hreads,
      List.contains_iff_mem.2 (hname.resolve_left Bool.false_ne_true), fun _ => rfl⟩

/-- The text of a sum is one in a call of `calc`. -/
theorem isArgumentText_calc (h : Expression.IsSumText K names text) :
    IsArgumentText K names ("calc(" ++ text ++ ")") := by
  obtain ⟨tree, addends, hreads, hfirst, haddends⟩ := h
  have htree := Expression.isSound_ofOperands_sum hfirst haddends
  refine ⟨_, readsAsArgument_calc hreads, ?_, fun dimensions => ?_⟩
  · rw [Argument.usesOnly, List.all_eq_true]
    exact fun name hname => List.contains_iff_mem.2 (htree.names_subset name hname)
  · rw [Argument.specifiedText, Option.isSome_map]
    exact htree.evaluates _ rfl

/-! ## Terms on their own -/

/-- The texts of numbers that are not finite. -/
def Scalar.nonFiniteTexts : List String := ["NaN", "Infinity", "-Infinity"]

/-- A number whose text is not one of these names is finite. -/
theorem Scalar.isFinite_of_text {value : K} (h : Scalar.text value ∉ nonFiniteTexts) :
    isFinite value = true := by
  unfold isFinite
  unfold Scalar.text at h
  cases hexact : exact value with
  | finite negative magnitude => rfl
  | nan negative =>
    rw [hexact] at h
    exact absurd List.mem_cons_self h
  | infinite negative =>
    rw [hexact] at h
    cases negative with
    | true => exact absurd (by decide) h
    | false => exact absurd (by decide) h

/-- The text of a term on its own is read as an argument, if it is not the name of a number. -/
theorem Term.IsWritable.isArgumentText {term : Term K} (h : term.IsWritable names)
    (hfinite : term.standaloneText ∉ nonFiniteTexts)
    (hapart : namesApart term.standaloneText = true) :
    IsArgumentText K names term.standaloneText := by
  have hcalc : ∀ text, namesApart ("calc(" ++ text ++ ")") = true → namesApart text = true := by
    intro text hapart
    refine namesApart_of_isInfix hapart ⟨"calc(".toList, ")".toList, ?_⟩
    simp only [String.toList_append, List.append_assoc]
  cases term with
  | number value => exact isArgumentText_number (isFinite_of_text hfinite)
  | percentage value => exact isArgumentText_percentage (isFinite_of_namesApart hapart rfl)
  | dimension value unit =>
    have hunit := h.isUnit unit rfl
    exact isArgumentText_dimension (isFinite_of_namesApart hapart (not_endsWord_of_isUnit hunit))
      hunit
  | symbol name =>
    -- A name is written in `calc()` when it stands alone.
    have hvalue : Expression.IsValueText K names name := h.isStable.isWithin (hcalc name hapart)
    exact isArgumentText_calc hvalue.product.sum
  | expression text kind =>
    have hwithin := h.isStable.isWithin
    cases kind with
    | sum => exact isArgumentText_calc (hwithin (hcalc text hapart))
    | product => exact isArgumentText_calc (Expression.IsProductText.sum (hwithin (hcalc text hapart)))

/-! ## Arguments as specified -/

/-- The units in an argument are names without escapes. Its text is not the name of a number that
is not finite, and a word ends behind each such name in it. -/
structure Argument.IsWritable (dimensions : Lookup K) (argument : Argument K) : Prop where
  isUnit : ∀ leaf ∈ argument.leaves, ∀ unit ∈ leaf.unit?, IsUnit unit = true
  isFinite : ∀ text ∈ argument.specifiedText dimensions, text ∉ nonFiniteTexts
  isApart : ∀ text ∈ argument.specifiedText dimensions, namesApart text = true

/-- Names in lower case and without escapes. -/
def AreWords (names : List String) : Prop :=
  ∀ name ∈ names, IsWord name = true ∧ name.toLower = name

/-- The specified text of an argument is read as an argument that has a text again. -/
theorem Argument.IsWritable.isArgumentText {argument : Argument K} {dimensions : Lookup K}
    (h : argument.IsWritable dimensions) (hread : argument.IsRead) (hnames : AreWords names)
    (huses : argument.usesOnly names = true)
    (htext : argument.specifiedText dimensions = some text) : IsArgumentText K names text := by
  have hfinite := h.isFinite text htext
  have hapart := h.isApart text htext
  cases argument with
  | missing =>
    cases htext
    exact isArgumentText_keyword rfl (.inl (beq_self_eq_true _))
  | number value =>
    cases htext
    exact (Term.isWritable_number value).isArgumentText hfinite hapart
  | percentage value =>
    cases htext
    exact (Term.isWritable_percentage value).isArgumentText hfinite hapart
  | dimension value unit =>
    cases htext
    have hunit := h.isUnit (.dimension value unit) List.mem_cons_self unit rfl
    exact (Term.isWritable_dimension value hunit).isArgumentText hfinite hapart
  | keyword name =>
    rw [← show name = text from Option.some.inj htext]
    -- The keyword is one of the names, and these are written in lower case.
    have hmem : name ∈ names := List.contains_iff_mem.1 huses
    obtain ⟨hword, hlower⟩ := hnames name hmem
    exact isArgumentText_keyword hword (.inr (by rwa [hlower]))
  | expression tree =>
    rw [specifiedText, Option.map_eq_some_iff] at htext
    obtain ⟨term, hterm, rfl⟩ := htext
    rw [usesOnly, List.all_eq_true] at huses
    -- The names of the expression are values by themselves.
    have hvalues : ∀ name ∈ tree.names, Expression.IsValueText K names name := by
      intro name hname
      have hmem := List.contains_iff_mem.1 (huses name hname)
      obtain ⟨hword, hlower⟩ := hnames name hmem
      exact Expression.isValueText_name hword (.inr (by rwa [hlower]))
    exact (Expression.evaluate_isWritable rfl hread h.isUnit hvalues term hterm).isArgumentText
      hfinite hapart

/-! ## Lists of arguments -/

/-- The text is read as the arguments of a colour function. -/
def ReadsAsArguments (text : String) (arguments : Arguments K) : Prop :=
  ∃ tokens : List (Token K), Forms text tokens ∧ RefersToNone tokens ∧
    Reads (Arguments.modernRule (Expression.callRule Expression.unlimitedBlock))
      (tokens ++ [.closeParen]) arguments

variable {first second third alpha : String}

omit [Scalar K] in
/-- There is no reference among the arguments if there is none in each of them. -/
theorem Arguments.refersToNone_tokens {tokens₁ tokens₂ tokens₃ : List (Token K)}
    {tokens₄ : Option (List (Token K))} (h₁ : RefersToNone tokens₁) (h₂ : RefersToNone tokens₂)
    (h₃ : RefersToNone tokens₃) (h₄ : ∀ tokens ∈ tokens₄, RefersToNone tokens) :
    RefersToNone (Arguments.tokens tokens₁ tokens₂ tokens₃ tokens₄) := by
  have hblank : RefersToNone [(whitespace : Token K)] := RefersToNone.singleton rfl
  have hslash : RefersToNone [(whitespace : Token K), delim '/', whitespace] :=
    RefersToNone.cons rfl (RefersToNone.cons rfl hblank)
  have hlist := (((h₁.append hblank).append h₂).append hblank).append h₃
  cases tokens₄ with
  | none => exact hlist
  | some tokens => exact (hlist.append hslash).append (h₄ tokens rfl)

section Lists

variable {argument₁ argument₂ argument₃ argument₄ : Argument K}

/-- Three arguments with blanks between them. -/
theorem ReadsAsArgument.three (h₁ : ReadsAsArgument first argument₁)
    (h₂ : ReadsAsArgument second argument₂) (h₃ : ReadsAsArgument third argument₃) :
    ReadsAsArguments (first ++ " " ++ second ++ " " ++ third)
      ⟨⟨argument₁, argument₂, argument₃⟩, none⟩ := by
  obtain ⟨tokens₁, hforms₁, hnone₁, hreads₁⟩ := h₁
  obtain ⟨tokens₂, hforms₂, hnone₂, hreads₂⟩ := h₂
  obtain ⟨tokens₃, hforms₃, hnone₃, hreads₃⟩ := h₃
  have hblank : ∀ rest, EndsWord (" ".toList ++ rest) = true := fun _ => rfl
  refine ⟨Arguments.tokens tokens₁ tokens₂ tokens₃ none, ?_, ?_, ?_⟩
  · exact (hforms₁.separated spells_blank hblank hforms₂).separated spells_blank hblank hforms₃
  · exact Arguments.refersToNone_tokens hnone₁ hnone₂ hnone₃ fun _ h => nomatch h
  · exact Arguments.reads_modernRule ColorValue.skipsBlank_callRule hreads₁ hreads₂ hreads₃

/-- Three arguments and an alpha behind a slash. -/
theorem ReadsAsArgument.four (h₁ : ReadsAsArgument first argument₁)
    (h₂ : ReadsAsArgument second argument₂) (h₃ : ReadsAsArgument third argument₃)
    (h₄ : ReadsAsArgument alpha argument₄) :
    ReadsAsArguments (first ++ " " ++ second ++ " " ++ third ++ " / " ++ alpha)
      ⟨⟨argument₁, argument₂, argument₃⟩, some argument₄⟩ := by
  obtain ⟨tokens₁, hforms₁, hnone₁, hreads₁⟩ := h₁
  obtain ⟨tokens₂, hforms₂, hnone₂, hreads₂⟩ := h₂
  obtain ⟨tokens₃, hforms₃, hnone₃, hreads₃⟩ := h₃
  obtain ⟨tokens₄, hforms₄, hnone₄, hreads₄⟩ := h₄
  have hblank : ∀ rest, EndsWord (" ".toList ++ rest) = true := fun _ => rfl
  refine ⟨Arguments.tokens tokens₁ tokens₂ tokens₃ (some tokens₄), ?_, ?_, ?_⟩
  · -- The blanks between the arguments keep their tokens apart.
    exact ((hforms₁.separated spells_blank hblank hforms₂).separated spells_blank hblank
      hforms₃).separated spells_slash (fun _ => rfl) hforms₄
  · refine Arguments.refersToNone_tokens hnone₁ hnone₂ hnone₃ fun tokens htokens => ?_
    cases htokens
    exact hnone₄
  · exact Arguments.reads_modernRule_alpha ColorValue.skipsBlank_callRule hreads₁ hreads₂ hreads₃
      hreads₄

end Lists

/-- The text is read as the arguments of a colour function, which use only the given names and have
a text again. -/
def IsArgumentsText (K : Type) [Scalar K] (names : List String) (text : String) : Prop :=
  ∃ arguments : Arguments K, ReadsAsArguments text arguments ∧
    arguments.usesOnly names = true ∧
    ∀ dimensions, (arguments.specifiedText dimensions).isSome = true

/-- The texts of three arguments. -/
theorem isArgumentsText_three (h₁ : IsArgumentText K names first)
    (h₂ : IsArgumentText K names second) (h₃ : IsArgumentText K names third) :
    IsArgumentsText K names (first ++ " " ++ second ++ " " ++ third) := by
  obtain ⟨argument₁, hreads₁, huses₁, htext₁⟩ := h₁
  obtain ⟨argument₂, hreads₂, huses₂, htext₂⟩ := h₂
  obtain ⟨argument₃, hreads₃, huses₃, htext₃⟩ := h₃
  refine ⟨_, hreads₁.three hreads₂ hreads₃, ?_, fun dimensions => ?_⟩
  · simp only [Arguments.usesOnly, Triple.toList, Option.toList, List.append_nil, List.all_cons,
      List.all_nil, huses₁, huses₂, huses₃, Bool.and_self]
  · obtain ⟨written₁, hwritten₁⟩ := Option.isSome_iff_exists.1 (htext₁ dimensions)
    obtain ⟨written₂, hwritten₂⟩ := Option.isSome_iff_exists.1 (htext₂ dimensions)
    obtain ⟨written₃, hwritten₃⟩ := Option.isSome_iff_exists.1 (htext₃ dimensions)
    unfold Arguments.specifiedText
    rw [hwritten₁, hwritten₂, hwritten₃]
    rfl

/-- The texts of three arguments and an alpha. -/
theorem isArgumentsText_four (h₁ : IsArgumentText K names first)
    (h₂ : IsArgumentText K names second) (h₃ : IsArgumentText K names third)
    (h₄ : IsArgumentText K names alpha) :
    IsArgumentsText K names (first ++ " " ++ second ++ " " ++ third ++ " / " ++ alpha) := by
  obtain ⟨argument₁, hreads₁, huses₁, htext₁⟩ := h₁
  obtain ⟨argument₂, hreads₂, huses₂, htext₂⟩ := h₂
  obtain ⟨argument₃, hreads₃, huses₃, htext₃⟩ := h₃
  obtain ⟨argument₄, hreads₄, huses₄, htext₄⟩ := h₄
  refine ⟨_, hreads₁.four hreads₂ hreads₃ hreads₄, ?_, fun dimensions => ?_⟩
  · simp only [Arguments.usesOnly, Triple.toList, Option.toList, List.cons_append, List.nil_append,
      List.all_cons, List.all_nil, huses₁, huses₂, huses₃, huses₄, Bool.and_self]
  · obtain ⟨written₁, hwritten₁⟩ := Option.isSome_iff_exists.1 (htext₁ dimensions)
    obtain ⟨written₂, hwritten₂⟩ := Option.isSome_iff_exists.1 (htext₂ dimensions)
    obtain ⟨written₃, hwritten₃⟩ := Option.isSome_iff_exists.1 (htext₃ dimensions)
    obtain ⟨written₄, hwritten₄⟩ := Option.isSome_iff_exists.1 (htext₄ dimensions)
    unfold Arguments.specifiedText
    rw [hwritten₁, hwritten₂, hwritten₃]
    show (do return _ ++ (← argument₄.specifiedText dimensions) : Option String).isSome = true
    rw [hwritten₄]
    rfl

/-- The text of arguments as specified. -/
theorem Arguments.isArgumentsText {arguments : Arguments K} {dimensions : Lookup K}
    (hread : ∀ argument ∈ arguments.toList, argument.IsRead)
    (hwritable : ∀ argument ∈ arguments.toList, argument.IsWritable dimensions)
    (hnames : AreWords names) (huses : arguments.usesOnly names = true)
    (htext : arguments.specifiedText dimensions = some text) : IsArgumentsText K names text := by
  have hargument : ∀ argument ∈ arguments.toList, ∀ written,
      argument.specifiedText dimensions = some written → IsArgumentText K names written := by
    intro argument hmem written hwritten
    exact (hwritable argument hmem).isArgumentText (hread argument hmem) hnames
      (List.all_eq_true.1 huses argument hmem) hwritten
  obtain ⟨⟨first, second, third⟩, alpha⟩ := arguments
  -- The text is there only if each argument has one.
  obtain ⟨written₁, hwritten₁, htext⟩ := Option.bind_eq_some_iff.1 htext
  obtain ⟨written₂, hwritten₂, htext⟩ := Option.bind_eq_some_iff.1 htext
  obtain ⟨written₃, hwritten₃, htext⟩ := Option.bind_eq_some_iff.1 htext
  have h₁ := hargument first (by simp [toList, Triple.toList]) written₁ hwritten₁
  have h₂ := hargument second (by simp [toList, Triple.toList]) written₂ hwritten₂
  have h₃ := hargument third (by simp [toList, Triple.toList]) written₃ hwritten₃
  cases alpha with
  | none =>
    cases htext
    exact isArgumentsText_three h₁ h₂ h₃
  | some alpha =>
    obtain ⟨written₄, hwritten₄, htext⟩ := Option.bind_eq_some_iff.1 htext
    cases htext
    exact isArgumentsText_four h₁ h₂ h₃
      (hargument alpha (by simp [toList, Triple.toList]) written₄ hwritten₄)

end CssColor
