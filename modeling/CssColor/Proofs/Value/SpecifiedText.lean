import CssColor.Proofs.Value.ArgumentText
import CssColor.Proofs.Value.FixedPoint
import CssColor.Proofs.Value.MixText

/-!
# Specified texts as values

The text of a value as specified is a value again, and it has a text of its own
(`exists_text_resolve_specified`). Keywords stay as they are, a plain colour is written as the
colour that it resolves to, and relative colours and mixes are put together from the texts of their
parts. The arguments of relative colours have to be writable (`ColorValue.IsWritable`), and the
simplified expressions in them may need more parentheses than they were written with, so that the
bound on nested blocks has to be asked of the text.
-/

namespace CssColor

open Token Rule

/-! ## Keywords -/

/-- Whether a name consists of small letters. -/
def IsPlainName : List Char → Bool
  | c :: rest => (c :: rest).all fun c => isNameStart c && !c.isUpper
  | [] => false

/-- A plain name is a word, and it is written in small letters. -/
theorem isWord_of_isPlainName {name : String} (h : IsPlainName name.toList = true) :
    IsWord name = true ∧ name.toLower = name := by
  cases hname : name.toList with
  | nil =>
    rw [hname] at h
    cases h
  | cons c rest =>
    rw [hname, IsPlainName, List.all_eq_true] at h
    -- Plain names have small letters only.
    have hletter : ∀ c' ∈ c :: rest, isNameStart c' = true ∧ c'.isUpper = false := fun c' hmem => by
      simpa using h c' hmem
    refine ⟨?_, ?_⟩
    · rw [IsWord, hname, startsName_of_isNameStart (hletter c List.mem_cons_self).1,
        Bool.true_and, List.all_eq_true]
      intro c' hmem
      rw [isNameChar, (hletter c' hmem).1, Bool.or_true]
    · rw [← String.toList_inj, String.toLower, String.toList_map, hname]
      exact (List.map_congr_left fun c' hmem => toLower_of_not_isUpper (hletter c' hmem).2).trans
        (List.map_id _)

/-- The names of colours are in lower case and without escapes. -/
theorem isWord_of_namedColor? {name : String} (h : (namedColor? name).isSome = true) :
    IsWord name = true ∧ name.toLower = name := by
  have hnames : (namedColors.all fun entry => IsPlainName entry.1.toList) = true := by cbv
  obtain ⟨bytes, hbytes⟩ := Option.isSome_iff_exists.1 h
  obtain ⟨before, after, hall, -⟩ := List.lookup_eq_some_iff.1 hbytes
  refine isWord_of_isPlainName (List.all_eq_true.1 hnames (name, bytes) ?_)
  rw [hall]
  exact List.mem_append_right _ List.mem_cons_self

namespace ColorValue

/-- The name of a colour is read as the colour. -/
theorem ofKeyword?_of_namedColor? {K : Type} {name : String}
    (h : (namedColor? name).isSome = true) :
    ofKeyword? name = some (named name : ColorValue K) := by
  unfold ofKeyword?
  rw [(isWord_of_namedColor? h).2]
  split
  · rw [show (namedColor? "transparent").isSome = false by cbv] at h
    cases h
  · rw [show (namedColor? "currentcolor").isSome = false by cbv] at h
    cases h
  · rw [if_pos h]

/-! ## Plain colours -/

/-- The text of a colour is read as a colour function whose arguments give a colour. -/
theorem exists_writes_colorText (color : Color Double) :
    ∃ (tokens : List (Token Double)) (space : Space) (arguments : Arguments Double),
      Writes color.text tokens (function space arguments) ∧
        ∀ dimensions, (Resolved.ofFunction? space arguments dimensions).isSome = true := by
  -- A legacy colour is written with bytes, any other with its components.
  cases hlegacy : color.space.isLegacy with
  | true =>
    rw [Color.text_of_isLegacy hlegacy]
    refine ⟨_, _, _, writes_legacyText color.toFinite.isFinite_bytes
      color.toFinite.isFinite_byteAlpha, fun dimensions => ?_⟩
    rw [Resolved.ofFunction?, Arguments.resolve_legacyArguments]
    rfl
  | false =>
    refine ⟨_, _, _, writes_text hlegacy, fun dimensions => ?_⟩
    rw [Resolved.ofFunction?, Arguments.resolve_componentArguments]
    rfl

/-! ## Relative colours -/

/-- The names of channels are words. -/
theorem areWords_bindingNames (space : Space) : AreWords space.bindingNames := by
  have hnames : (space.bindingNames.all fun name => IsWord name && name.toLower == name) = true := by
    cases space <;> cbv
  intro name hname
  simpa only [Bool.and_eq_true, beq_iff_eq] using List.all_eq_true.1 hnames name hname

section Relative

variable {K : Type} [Scalar K] {space : Space} {origin arguments : String}

omit [Scalar K] in
/-- The text of a relative colour, in the parts that are read one after the other. -/
theorem relativeText_eq : relativeText space origin arguments = space.functionName ++ "(" ++
    ("from" ++ " " ++ origin ++ " " ++ (spaceText space ++ arguments)) ++ ")" := by
  unfold relativeText Space.functionName spaceText
  split
  · simp only [String.append_assoc]
    rfl
  · simp only [String.append_assoc, String.empty_append]
    rfl

/-- The name of a space in front of the arguments is split off, where there is one. -/
theorem forms_spaceText (space : Space) {tokens : List (Token K)} (h : Forms arguments tokens) :
    Forms (spaceText space ++ arguments) (spaceTokens space ++ tokens) := by
  unfold spaceText spaceTokens
  split
  · exact (forms_word space.isWord_name).separated spells_blank (fun _ => rfl) h
  · rwa [String.empty_append]

/-- A relative colour is read from the texts of its origin and of its arguments. -/
theorem Writes.relative {originTokens : List (Token K)} {value : ColorValue K}
    {list : Arguments K} (horigin : Writes origin originTokens value)
    (harguments : ReadsAsArguments arguments list) (space : Space) :
    ∃ tokens, Writes (relativeText space origin arguments) tokens (.relative value space list) := by
  obtain ⟨tokens, hforms, hnone, hreads⟩ := harguments
  refine ⟨Token.function space.functionName :: (ident "from" :: whitespace :: originTokens ++
    whitespace :: (spaceTokens space ++ (tokens ++ [Token.closeParen]))), ?_,
    reads_relative horigin.reads hreads, ?_⟩
  · rw [relativeText_eq]
    -- The parts are written with a blank between them, and called together.
    have hblank : Spells (K := K) (IsSolid · = true) " " [whitespace] := spells_blank
    have hfrom : Forms "from" [(ident "from" : Token K)] := forms_word rfl
    have hlist := ((hfrom.separated hblank (fun _ => rfl) horigin.forms).separated hblank
      (fun _ => rfl) (forms_spaceText space hforms)).call space.isWord_functionName
    simpa only [List.append_assoc, List.cons_append, List.nil_append] using hlist
  · have hspace : RefersToNone (spaceTokens space : List (Token K)) := by
      unfold spaceTokens
      split
      · exact RefersToNone.cons rfl (RefersToNone.singleton rfl)
      · exact fun _ h => absurd h List.not_mem_nil
    have hclose : RefersToNone [(Token.closeParen : Token K)] := RefersToNone.singleton rfl
    have hcontent := hspace.append (hnone.append hclose)
    exact RefersToNone.cons space.isFunction_var_functionName (RefersToNone.cons rfl
      (RefersToNone.cons rfl (RefersToNone.append horigin.no_reference
        (RefersToNone.cons rfl hcontent))))

end Relative

/-! ## Shares of mixes -/

/-- A percentage between 0% and 100% is written as one. -/
theorem ShareBetween.printed {share : Option Double} (h : ShareBetween share) :
    (∀ value ∈ share, Scalar.isFinite value = true) ∧
      ShareBetween (share.map Scalar.printed) := by
  have hvalue : ∀ value ∈ share, ∃ q, value.HasValue q ∧ 0 ≤ q ∧ q ≤ 100 := fun value hvalue =>
    Double.exists_hasValue_of_isBetween Double.hasValue_zero Double.hasValue_hundred
      (h value hvalue)
  refine ⟨fun value hmem => ?_, fun printed hprinted => ?_⟩
  · obtain ⟨q, hq, -⟩ := hvalue value hmem
    exact hq.isFinite
  · -- Rounding does not lead past a whole number, so what is printed is within the bounds, too.
    obtain ⟨value, hmem, rfl⟩ := Option.map_eq_some_iff.1 hprinted
    obtain ⟨q, hq, hlow, hhigh⟩ := hvalue value hmem
    obtain ⟨r, hr, hrlow, hbound⟩ := hq.exists_printed hlow
    have hrhigh : r ≤ (100 : ℕ) := hbound 100 (by norm_num) (by exact_mod_cast hhigh)
    rw [Number.isBetween, Bool.and_eq_true, decide_eq_true_iff, decide_eq_true_iff,
      Double.HasValue.le_iff Double.hasValue_zero hr, Double.HasValue.le_iff hr
      Double.hasValue_hundred]
    exact ⟨hrlow, by exact_mod_cast hrhigh⟩

/-! ## Values -/

/-- The arguments of all relative colours in a value can be written. -/
def IsWritable (dimensions : Lookup Double) : ColorValue Double → Prop
  | relative origin _ arguments => origin.IsWritable dimensions ∧
      ∀ argument ∈ arguments.toList, argument.IsWritable dimensions
  | mix _ _ first _ second _ => first.IsWritable dimensions ∧ second.IsWritable dimensions
  | _ => True

/-- The text is read as a value that has a text again, with `levels` levels of nesting allowed. -/
def IsValueText (levels : ℕ) (text : String) : Prop :=
  ∃ (tokens : List (Token Double)) (value : ColorValue Double), Writes text tokens value ∧
    ∀ dimensions, (specifiedTextWith dimensions levels value).isSome = true

/-- The text of a colour is read as a value that is written again. -/
theorem isValueText_colorText (levels : ℕ) (color : Color Double) :
    IsValueText levels color.text := by
  obtain ⟨tokens, space, arguments, hwrites, hresolves⟩ := exists_writes_colorText color
  refine ⟨tokens, _, hwrites, fun dimensions => ?_⟩
  rw [specifiedTextWith, Option.isSome_map]
  exact hresolves dimensions

/-- The text of a value is one of them, if its arguments can be written. -/
theorem IsParsed.isValueText {dimensions : Lookup Double} {value : ColorValue Double}
    (h : value.IsParsed) : value.IsWritable dimensions → ∀ {levels text},
      specifiedTextWith dimensions levels value = some text → IsValueText levels text := by
  induction h with
  | named hname =>
    intro _ levels text htext
    rw [specifiedTextWith] at htext
    cases htext
    -- A name stands for itself.
    exact ⟨_, _, writes_keyword (isWord_of_namedColor? hname).1 (ofKeyword?_of_namedColor? hname),
      fun _ => by rw [specifiedTextWith]; rfl⟩
  | transparent =>
    intro _ levels text htext
    rw [specifiedTextWith] at htext
    cases htext
    exact ⟨_, _, writes_keyword rfl (by cbv), fun _ => by rw [specifiedTextWith]; rfl⟩
  | currentColor =>
    intro _ levels text htext
    rw [specifiedTextWith] at htext
    cases htext
    exact ⟨_, _, writes_currentColor, fun _ => by rw [specifiedTextWith]; rfl⟩
  | hex digits =>
    intro _ levels text htext
    rw [specifiedTextWith] at htext
    cases htext
    -- Colours that are given by numbers are written as the texts of the colours they are.
    exact isValueText_colorText levels _
  | function space arguments =>
    intro _ levels text htext
    rw [specifiedTextWith] at htext
    obtain ⟨resolved, -, rfl⟩ := Option.map_eq_some_iff.1 htext
    exact isValueText_colorText levels _
  | relative space horigin harguments ih =>
    intro hwritable levels text htext
    -- Without a level that is left there is no text.
    cases levels with
    | zero => cases htext
    | succ levels =>
      rw [specifiedTextWith] at htext
      obtain ⟨⟨⟩, hguard, htext⟩ := Option.bind_eq_some_iff.1 htext
      obtain ⟨origin, horigin, htext⟩ := Option.bind_eq_some_iff.1 htext
      obtain ⟨list, hlist, htext⟩ := Option.bind_eq_some_iff.1 htext
      cases htext
      -- The origin is read from its text by induction, and the arguments from theirs.
      obtain ⟨originTokens, value, hwrites, hvalue⟩ := ih hwritable.1 horigin
      obtain ⟨arguments, hreads, huses, hsome⟩ :=
        Arguments.isArgumentsText harguments hwritable.2 (areWords_bindingNames space)
          (by simpa using hguard) hlist
      obtain ⟨tokens, hrelative⟩ := hwrites.relative hreads space
      refine ⟨tokens, _, hrelative, fun dimensions => ?_⟩
      obtain ⟨text, htext⟩ := Option.isSome_iff_exists.1 (hvalue dimensions)
      obtain ⟨text', htext'⟩ := Option.isSome_iff_exists.1 (hsome dimensions)
      rw [specifiedTextWith, huses, htext, htext']
      rfl
  | mix hspace harc _ hfirstShare _ hsecondShare ihfirst ihsecond =>
    intro hwritable levels text htext
    cases levels with
    | zero => cases htext
    | succ levels =>
      rw [specifiedTextWith] at htext
      obtain ⟨first, hfirst, htext⟩ := Option.bind_eq_some_iff.1 htext
      obtain ⟨second, hsecond, htext⟩ := Option.bind_eq_some_iff.1 htext
      cases htext
      -- Both colours are read from their texts by induction, and the shares as they are printed.
      obtain ⟨firstTokens, firstValue, hfirstWrites, hfirstText⟩ := ihfirst hwritable.1 hfirst
      obtain ⟨secondTokens, secondValue, hsecondWrites, hsecondText⟩ :=
        ihsecond hwritable.2 hsecond
      refine ⟨_, _, Writes.mix hspace harc hfirstWrites hfirstShare.printed.1
        hfirstShare.printed.2 hsecondWrites hsecondShare.printed.1 hsecondShare.printed.2,
        fun dimensions => ?_⟩
      obtain ⟨text, htext⟩ := Option.isSome_iff_exists.1 (hfirstText dimensions)
      obtain ⟨text', htext'⟩ := Option.isSome_iff_exists.1 (hsecondText dimensions)
      rw [specifiedTextWith, htext, htext']
      rfl

/-- No value has an empty text. -/
theorem IsParsed.ne_empty {dimensions : Lookup Double} {levels : ℕ} {value : ColorValue Double}
    {text : String} (h : value.IsParsed)
    (htext : specifiedTextWith dimensions levels value = some text) : text ≠ "" := by
  -- The text of a colour has tokens, and the empty text has none.
  have hcolor : ∀ color : Color Double, color.text ≠ "" := by
    intro color hempty
    obtain ⟨tokens, space, arguments, hwrites, -⟩ := exists_writes_colorText color
    have hsolid := hwrites.forms.solid
    rw [hempty] at hsolid
    cases hsolid
  -- The other texts start with a word.
  have happend : ∀ {front : String} (rest : String), front ≠ "" → front ++ rest ≠ "" :=
    fun rest hfront hempty => hfront (String.append_eq_empty_iff.1 hempty).1
  cases h with
  | named hname =>
    rw [specifiedTextWith] at htext
    cases htext
    rintro rfl
    rw [show (namedColor? "").isSome = false by cbv] at hname
    cases hname
  | transparent =>
    rw [specifiedTextWith] at htext
    cases htext
    decide
  | currentColor =>
    rw [specifiedTextWith] at htext
    cases htext
    decide
  | hex digits =>
    rw [specifiedTextWith] at htext
    cases htext
    exact hcolor _
  | function space arguments =>
    rw [specifiedTextWith] at htext
    obtain ⟨resolved, -, rfl⟩ := Option.map_eq_some_iff.1 htext
    exact hcolor _
  | relative space horigin harguments =>
    cases levels with
    | zero => cases htext
    | succ levels =>
      rw [specifiedTextWith] at htext
      obtain ⟨⟨⟩, -, htext⟩ := Option.bind_eq_some_iff.1 htext
      obtain ⟨origin, -, htext⟩ := Option.bind_eq_some_iff.1 htext
      obtain ⟨list, -, htext⟩ := Option.bind_eq_some_iff.1 htext
      cases htext
      rw [relativeText_eq]
      refine happend _ (happend _ (happend _ ?_))
      cases space <;> decide
  | mix =>
    cases levels with
    | zero => cases htext
    | succ levels =>
      rw [specifiedTextWith] at htext
      obtain ⟨first, -, htext⟩ := Option.bind_eq_some_iff.1 htext
      obtain ⟨second, -, htext⟩ := Option.bind_eq_some_iff.1 htext
      cases htext
      simp only [String.append_assoc]
      exact happend _ (by decide)

end ColorValue

/-! ## Specified texts -/

/-- A value that is read from a text is one that the grammar may read. -/
theorem ColorValue.isParsed_of_ofValue? {properties : Lookup String} {text : String}
    {value : ColorValue Double} (h : ofValue? properties text = some value) : value.IsParsed := by
  obtain ⟨tokens, -, hparse⟩ := Option.bind_eq_some_iff.1 h
  obtain ⟨rest, hrule, -⟩ := parse_eq_some_iff.1 hparse
  exact rule_isParsed maxBlockDepth _ _ _ hrule

section Outputs

variable {options : Options Double} {text : String}

/-- The output of a value that is no keyword without a value is its text. -/
theorem resolveUnkeyed_specified (hformat : options.format = .specified)
    {value : ColorValue Double} (hvalue : ColorValue.ofValue? options.properties text = some value)
    (hkeyword : (value.isCurrentColor && options.currentColor.isNone) = false) :
    resolveUnkeyed text options = .text ((value.specifiedText options).getD "") := by
  unfold resolveUnkeyed
  rw [hvalue]
  dsimp only
  rw [hkeyword, if_neg Bool.false_ne_true, hformat, Format.output?]
  cases value.specifiedText options <;> rfl

/-- The output of a keyword without a value. -/
theorem resolveUnkeyed_keyword (hformat : options.format = .specified)
    {value : ColorValue Double} (hvalue : ColorValue.ofValue? options.properties text = some value)
    (hkeyword : (value.isCurrentColor && options.currentColor.isNone) = true) :
    resolveUnkeyed text options = .text "currentcolor" := by
  unfold resolveUnkeyed
  rw [hvalue]
  dsimp only
  rw [if_pos hkeyword, hformat]
  rfl

/-- The output of a text that is no value is empty. -/
theorem resolveUnkeyed_of_isNone (hformat : options.format = .specified)
    (hvalue : (ColorValue.ofValue? options.properties text :
      Option (ColorValue Double)).isNone = true) : resolveUnkeyed text options = .text "" := by
  unfold resolveUnkeyed
  rw [Option.isNone_iff_eq_none.1 hvalue, hformat]
  rfl

/-- The text of a value has an output that is not empty. -/
theorem exists_resolveUnkeyed_of_isValueText (hformat : options.format = .specified)
    (h : ColorValue.IsValueText maxNestingDepth text)
    (hnesting : nesting (scan text.toList : List (Token Double)) ≤ maxBlockDepth) :
    ∃ text', resolveUnkeyed text options = .text text' ∧ text' ≠ "" := by
  obtain ⟨tokens, value, hwrites, hvalue⟩ := h
  have htokens : collapse (scan text.toList) = tokens := hwrites.forms.spells.collapse_scan rfl
  rw [nesting, ← nestingFrom_collapse, htokens] at hnesting
  have hread := hwrites.ofValue?_eq hnesting options.properties
  -- The keyword is its own text, and any other value is written from its tree.
  cases hkeyword : value.isCurrentColor && options.currentColor.isNone with
  | true => exact ⟨_, resolveUnkeyed_keyword hformat hread hkeyword, by decide⟩
  | false =>
    obtain ⟨text', htext'⟩ := Option.isSome_iff_exists.1 (hvalue options.dimensions)
    have hspecified : value.specifiedText options = some text' := htext'
    refine ⟨text', ?_, (ColorValue.isParsed_of_ofValue? hread).ne_empty htext'⟩
    rw [resolveUnkeyed_specified hformat hread hkeyword, hspecified, Option.getD_some]

end Outputs

/-- A text that resolving to a specified text gives, nested no deeper than blocks may be, gives a
text itself, if the arguments of relative colours can be written. -/
theorem exists_text_resolve_specified (value : String) (options : Options Double)
    (hformat : options.format = .specified)
    (hwritable : ∀ tree, ColorValue.ofValue? options.properties value = some tree →
      tree.IsWritable options.dimensions)
    {text : String} (htext : (resolve value options).asText? = some text) (hempty : text ≠ "")
    (hnesting : nesting (scan text.toList : List (Token Double)) ≤ maxBlockDepth) :
    ∃ text', (resolve text options).asText? = some text' ∧ text' ≠ "" := by
  -- The key is the same for both.
  have hkey : ∀ value : String, (resolve value options).asText? =
      (resolveUnkeyed value options).asText? := by
    intro value
    unfold resolve
    cases options.key <;> rfl
  -- It is enough that the text is read as a value that is written again.
  suffices h : ColorValue.IsValueText maxNestingDepth text by
    obtain ⟨text', htext', hne⟩ := exists_resolveUnkeyed_of_isValueText hformat h hnesting
    exact ⟨text', by rw [hkey, htext']; rfl, hne⟩
  rw [hkey] at htext
  cases hvalue : (ColorValue.ofValue? options.properties value : Option (ColorValue Double)) with
  | none =>
    rw [resolveUnkeyed_of_isNone hformat (Option.isNone_iff_eq_none.2 hvalue)] at htext
    exact absurd (Option.some.inj htext).symm hempty
  | some tree =>
    cases hkeyword : tree.isCurrentColor && options.currentColor.isNone with
    -- The current colour is left as it is, and written by its keyword.
    | true =>
      rw [resolveUnkeyed_keyword hformat hvalue hkeyword] at htext
      cases htext
      exact ⟨_, _, ColorValue.writes_currentColor,
        fun _ => by rw [ColorValue.specifiedTextWith]; rfl⟩
    | false =>
      rw [resolveUnkeyed_specified hformat hvalue hkeyword] at htext
      cases hspecified : tree.specifiedText options with
      | none =>
        rw [hspecified] at htext
        exact absurd (Option.some.inj htext).symm hempty
      | some written =>
        rw [hspecified] at htext
        rw [← show written = text from Option.some.inj htext]
        exact (ColorValue.isParsed_of_ofValue? hvalue).isValueText (hwritable tree hvalue)
          hspecified

/-! ## Texts that are nested too deeply -/

/-- Differences in which a quotient is subtracted, whose divisor is the next difference. The
quotients stand between the given texts. -/
def nestedDifference (opening closing : String) : ℕ → String
  | 0 => "r" ++ " - " ++ "r"
  | n + 1 => "r" ++ " - " ++
      (opening ++ ("r" ++ " / " ++ ("(" ++ nestedDifference opening closing n ++ ")")) ++ closing)

/-- The tree of nested differences. -/
def differenceTree : ℕ → Expression Double
  | 0 => .sum [(.add, .leaf (.symbol "r")), (.subtract, .leaf (.symbol "r"))]
  | n + 1 => .sum [(.add, .leaf (.symbol "r")), (.subtract,
      .product [(.multiply, .leaf (.symbol "r")), (.divide, differenceTree n)])]

/-- The differences have one name only. -/
theorem names_differenceTree (n : ℕ) : ∀ name ∈ (differenceTree n).names, name = "r" := by
  induction n with
  | zero =>
    simp only [differenceTree, Expression.names, Expression.operandNames]
    decide
  | succ n ih =>
    intro name hname
    simp only [differenceTree, Expression.names, Expression.operandNames, List.mem_append] at hname
    rcases hname with hname | (hname | hname | hname) | hname
    · exact List.mem_singleton.1 hname
    · exact List.mem_singleton.1 hname
    · exact ih name hname
    · cases hname
    · cases hname

open Expression in
/-- The text of nested differences is read as the tree of nested differences. -/
theorem readsAsSum_nestedDifference (n : ℕ) : ∃ tree addends,
    ReadsAsSum (nestedDifference "" "" n) tree addends ∧
      ofOperands .sum .add tree addends = differenceTree n := by
  have hname : ReadsAsValue "r" (.leaf (.symbol "r") : Expression Double) := by
    have hread := readsAsValue_name (K := Double) (show IsWord "r" = true from rfl)
    rwa [show "r".toLower = "r" by cbv] at hread
  induction n with
  | zero => exact ⟨_, _, hname.product.sum.minus hname.product.sum, rfl⟩
  | succ n ih =>
    obtain ⟨tree, addends, hreads, htree⟩ := ih
    -- The difference before is the divisor of the next one.
    have hdivisor := hreads.paren
    rw [htree] at hdivisor
    have hsum := hname.product.sum.minus (hname.product.dividedBy hdivisor.product).sum
    rw [nestedDifference, String.empty_append, String.append_empty]
    exact ⟨_, _, hsum, rfl⟩

open Reduce in
/-- A name divided by a sum is written as a quotient. -/
theorem reduceProduct_quotient (name divisor : String) :
    reduceProduct ([⟨.multiply, .symbol name⟩, ⟨.divide, .expression divisor .sum⟩] :
      List (Operand Double)) =
        some (.expression (name ++ " / " ++ ("(" ++ divisor ++ ")")) .product) := by
  have hscale : Number.isNaN (1.0 : Double) = false ∧ ((1.0 : Double) == 0.0) = false ∧
      ((1.0 : Double) == 1.0) = true := by
    refine ⟨Double.hasValue_one.isNaN_eq, ?_,
      (Double.hasValue_one.beq_iff Double.hasValue_one).2 rfl⟩
    rw [Bool.eq_false_iff, ne_eq, Double.hasValue_one.beq_iff Double.hasValue_zero]
    norm_num
  simp [reduceProduct, scaleFactors, under, percentages, dimensions, others, divisors,
    Number.product, productText, quotientText, dimensionTexts, sorted, hscale, Term.factorText,
    Term.text]

/-- Evaluating nested differences where nothing is known puts each quotient in parentheses. -/
theorem evaluate_differenceTree (dimensions : String → Option Double) (n : ℕ) :
    (differenceTree n).evaluate ⟨[], none, false, dimensions⟩ =
      some (.expression (nestedDifference "(" ")" n) .sum) := by
  induction n with
  | zero =>
    simp only [differenceTree, Expression.evaluate, Expression.evaluateOperands]
    exact Reduce.reduceSum_difference "r" rfl
  -- The divisor is a sum, so it is put in parentheses.
  | succ n ih =>
    have hquotient : Expression.evaluate ⟨[], none, false, dimensions⟩
        (.product [(.multiply, .leaf (.symbol "r")), (.divide, differenceTree n)]) =
          some (.expression ("r" ++ " / " ++ ("(" ++ nestedDifference "(" ")" n ++ ")"))
            .product) := by
      simp only [Expression.evaluate, Expression.evaluateOperands, ih]
      exact reduceProduct_quotient "r" _
    rw [differenceTree, Expression.evaluate, Expression.evaluateOperands,
      Expression.evaluateOperands, hquotient]
    exact Reduce.reduceSum_difference "r" rfl

/-- The text of nested differences has a pair of parentheses for each of them. -/
theorem specifiedText_differenceTree (dimensions : Lookup Double) (n : ℕ) :
    (Argument.expression (differenceTree n)).specifiedText dimensions =
      some ("calc(" ++ nestedDifference "(" ")" n ++ ")") :=
  congrArg (Option.map Term.standaloneText) (evaluate_differenceTree _ n)

/-- A relative colour with a nested difference among its arguments. -/
def nestedColor (opening closing : String) (n : ℕ) : String :=
  ColorValue.relativeText .rgb "red" ("calc(" ++ nestedDifference opening closing n ++ ")" ++
    " " ++ "g" ++ " " ++ "b")

/-- The characters of nested differences. -/
def differenceChars (opening closing : List Char) : ℕ → List Char
  | 0 => ['r', ' ', '-', ' ', 'r']
  | n + 1 => ['r', ' ', '-', ' '] ++ (opening ++ (['r', ' ', '/', ' ', '('] ++
      (differenceChars opening closing n ++ ([')'] ++ closing))))

/-- The characters of the colour, for counting its blocks. -/
theorem toList_nestedColor (opening closing : String) (n : ℕ) :
    (nestedColor opening closing n).toList = "rgb(from red calc(".toList ++
      (differenceChars opening.toList closing.toList n ++ ") g b)".toList) := by
  have hdifference : (nestedDifference opening closing n).toList =
      differenceChars opening.toList closing.toList n := by
    induction n with
    | zero => simp only [nestedDifference, String.toList_append]; rfl
    | succ n ih =>
      simp only [nestedDifference, differenceChars, String.toList_append, ih, List.append_assoc]
      rfl
  rw [nestedColor, ColorValue.relativeText, if_neg (by decide)]
  simp only [String.toList_append, hdifference, List.append_assoc]
  rfl

/-- The text of the colour is not empty. -/
theorem nestedColor_ne_empty (opening closing : String) (n : ℕ) :
    nestedColor opening closing n ≠ "" := by
  intro hempty
  have hchars := toList_nestedColor opening closing n
  rw [hempty] at hchars
  cases hchars

/-- The value of the text. -/
def nestedValue (n : ℕ) : ColorValue Double :=
  .relative (.named "red") .rgb
    ⟨⟨.expression (differenceTree n), .keyword "g", .keyword "b"⟩, none⟩

/-- The colour is read as the relative colour that it spells. -/
theorem writes_nestedColor (n : ℕ) :
    ∃ tokens, ColorValue.Writes (nestedColor "" "" n) tokens (nestedValue n) := by
  have hred : ColorValue.Writes (K := Double) "red" [ident "red"] (.named "red") :=
    ColorValue.writes_keyword rfl (ColorValue.ofKeyword?_of_namedColor? (by cbv))
  have hgreen := readsAsArgument_keyword (K := Double) (show IsWord "g" = true from rfl)
  have hblue := readsAsArgument_keyword (K := Double) (show IsWord "b" = true from rfl)
  rw [show Text.sameIgnoringCase "g" "none" = false by cbv, if_neg Bool.false_ne_true,
    show "g".toLower = "g" by cbv] at hgreen
  rw [show Text.sameIgnoringCase "b" "none" = false by cbv, if_neg Bool.false_ne_true,
    show "b".toLower = "b" by cbv] at hblue
  obtain ⟨tree, addends, hreads, htree⟩ := readsAsSum_nestedDifference n
  have hfirst := readsAsArgument_calc hreads
  rw [htree] at hfirst
  exact hred.relative (hfirst.three hgreen hblue) .rgb

/-- The colour is a value while its blocks are not too deep. -/
theorem ofValue?_nestedColor {n : ℕ} (hnesting : nesting (scan ("rgb(from red calc(".toList ++
      (differenceChars [] [] n ++ ") g b)".toList)) : List (Token Double)) ≤ maxBlockDepth)
    (properties : Lookup String) :
    ColorValue.ofValue? properties (nestedColor "" "" n) = some (nestedValue n) := by
  obtain ⟨tokens, hwrites⟩ := writes_nestedColor n
  have htokens : collapse (scan (nestedColor "" "" n).toList) = tokens :=
    hwrites.forms.spells.collapse_scan rfl
  have hchars := toList_nestedColor "" "" n
  rw [show "".toList = [] from rfl] at hchars
  rw [← hchars, nesting, ← nestingFrom_collapse, htokens] at hnesting
  exact hwrites.ofValue?_eq hnesting properties

/-- The specified text puts the quotients in parentheses. -/
theorem specifiedText_nestedValue (options : Options Double) (n : ℕ) :
    (nestedValue n).specifiedText options = some (nestedColor "(" ")" n) := by
  have hnames : Argument.usesOnly Space.rgb.bindingNames
      (.expression (differenceTree n)) = true := by
    rw [Argument.usesOnly, List.all_eq_true]
    intro name hname
    rw [names_differenceTree n name hname]
    decide
  have huses : Arguments.usesOnly Space.rgb.bindingNames (⟨⟨.expression (differenceTree n),
      .keyword "g", .keyword "b"⟩, none⟩ : Arguments Double) = true := by
    rw [Arguments.usesOnly, List.all_eq_true]
    simp only [Triple.toList, Option.toList, List.append_nil, List.forall_mem_cons]
    exact ⟨hnames, by decide, by decide, List.forall_mem_nil _⟩
  show (do
    guard (Arguments.usesOnly Space.rgb.bindingNames _ = true)
    let origin ← some "red"
    return ColorValue.relativeText .rgb origin (← Arguments.specifiedText options.dimensions _)) = _
  rw [huses, Arguments.specifiedText, specifiedText_differenceTree]
  rfl

/-- The options that ask for the value as specified. -/
def specifiedOptions : Options Double := { format := .specified }

/-- Without a cache the text is what is computed. -/
theorem resolve_specifiedOptions (text : String) :
    resolve text specifiedOptions = resolveUnkeyed text specifiedOptions := rfl

/-- The specified text of the colour has the parentheses that it came without. -/
theorem resolve_nestedColor {n : ℕ} (hnesting : nesting (scan ("rgb(from red calc(".toList ++
      (differenceChars [] [] n ++ ") g b)".toList)) : List (Token Double)) ≤ maxBlockDepth) :
    resolve (nestedColor "" "" n) specifiedOptions = .text (nestedColor "(" ")" n) := by
  rw [resolve_specifiedOptions,
    resolveUnkeyed_specified rfl (ofValue?_nestedColor hnesting _) rfl,
    specifiedText_nestedValue, Option.getD_some]

/-- Two nested differences, whose text needs parentheses around the quotient. -/
theorem exists_text_resolve_specified_difference :
    ∃ text', (resolve (nestedColor "(" ")" 1) specifiedOptions).asText? = some text' ∧
      text' ≠ "" := by
  have hnesting : nesting (scan ("rgb(from red calc(".toList ++
      (differenceChars [] [] 1 ++ ") g b)".toList)) : List (Token Double)) ≤ maxBlockDepth := by
    decide +kernel
  refine exists_text_resolve_specified (nestedColor "" "" 1) specifiedOptions rfl
    (fun tree htree => ?_) (congrArg Output.asText? (resolve_nestedColor hnesting))
    (nestedColor_ne_empty _ _ _) (by rw [toList_nestedColor]; decide +kernel)
  rw [ofValue?_nestedColor hnesting, Option.some.injEq] at htree
  subst htree
  -- The arguments are writable: the difference, and the two channels that are kept.
  have hsum : (Argument.expression (differenceTree 1)).IsWritable .empty := by
    refine ⟨fun leaf hleaf unit hunit => ?_, ?_, ?_⟩
    · simp [Argument.leaves, differenceTree, Expression.leaves, Expression.operandLeaves] at hleaf
      subst hleaf
      cases hunit
    · rw [specifiedText_differenceTree]
      decide
    · rw [specifiedText_differenceTree]
      decide
  have hkeyword : ∀ name ∈ ["g", "b"],
      (Argument.keyword name : Argument Double).IsWritable .empty := by
    intro name hname
    refine ⟨fun leaf hleaf unit hunit => ?_, ?_, ?_⟩
    · rw [List.mem_singleton.1 hleaf] at hunit
      cases hunit
    · revert hname name
      decide
    · revert hname name
      decide
  exact ⟨trivial, List.forall_mem_cons.2 ⟨hsum, List.forall_mem_cons.2 ⟨hkeyword "g" (by decide),
    List.forall_mem_cons.2 ⟨hkeyword "b" (by decide), fun _ h => nomatch h⟩⟩⟩⟩

/-- The specified text of 32 nested differences is nested too deeply to be read again. -/
theorem resolve_nestedColor_ne : ¬ ∀ (value : String) (options : Options Double),
    options.format = .specified → ∀ text, (resolve value options).asText? = some text →
      text ≠ "" → ∃ text', (resolve text options).asText? = some text' ∧ text' ≠ "" := by
  intro h
  have htext : resolve (nestedColor "" "" 32) specifiedOptions = .text (nestedColor "(" ")" 32) :=
    resolve_nestedColor (by decide +kernel)
  -- The parentheses double the number of blocks, beyond what the grammar reads.
  have hnone : (ColorValue.ofValue? specifiedOptions.properties (nestedColor "(" ")" 32) :
      Option (ColorValue Double)).isNone = true := by
    unfold ColorValue.ofValue? Property.substitute
    rw [toList_nestedColor]
    decide +kernel
  obtain ⟨text', htext', hne⟩ := h _ _ rfl _ (congrArg Output.asText? htext)
    (nestedColor_ne_empty _ _ _)
  rw [resolve_specifiedOptions, resolveUnkeyed_of_isNone rfl hnone] at htext'
  exact hne (Option.some.inj htext').symm

end CssColor
