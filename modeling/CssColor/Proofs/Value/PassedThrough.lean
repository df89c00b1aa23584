import CssColor.Resolution
import CssColor.Proofs.Number.Exact
import CssColor.Proofs.Property.Substitution
import CssColor.Proofs.Token.Neighbours
import Mathlib.Data.List.DropRight

/-!
# Values that are no expression

A value that is no expression is returned as the text of its tokens, without the blanks at both ends
(`calculate`). The text holds no separators, so it is read as the same tokens only where each two
neighbours are read back on their own (`calculate_readsBack`). The texts of others are joined:
`1+2` becomes `12` (`calculate_joinedNumbers`).
-/

namespace CssColor

open Token

/-! ## Where the tokens come from -/

namespace Property

variable {K : Type} [Number K] {properties : Lookup String} {tokens output : List (Token K)}

/-- The tokens that a reference stands for are taken off the value of a property, or they are among
its arguments. -/
theorem Reference.mem_of_mem_replacement {arguments replacement : List (Token K)}
    {reference : Reference K} {token : Token K} (hwritten : Reference.Written arguments reference)
    (hreplacement : reference.replacement? properties = some replacement)
    (htoken : token ∈ replacement) : (∃ text, token ∈ scan text) ∨ token ∈ arguments := by
  unfold Reference.replacement? at hreplacement
  -- The tokens come from the text of the property, or from the fallback in the arguments.
  split at hreplacement
  · next value _ =>
    obtain rfl := Option.some.inj hreplacement
    exact .inl ⟨value.toList, htoken⟩
  · cases hwritten with
    | bare => cases hreplacement
    | withFallback =>
      obtain rfl := Option.some.inj hreplacement
      refine .inr (List.mem_append_right _ (List.mem_cons_of_mem _ ?_))
      exact List.mem_append_right _ (List.mem_cons_of_mem _ htoken)

/-- References are replaced by tokens that have been taken off a text. -/
theorem Spliced.exists_mem_scan {depth references : ℕ}
    (h : Spliced properties tokens depth references output)
    (htokens : ∀ token ∈ tokens, ∃ text, token ∈ scan text) :
    ∀ token ∈ output, ∃ text, token ∈ scan text := by
  induction h with
  | nil => exact htokens
  | copy _ _ ih =>
    obtain ⟨hfirst, hrest⟩ := List.forall_mem_cons.1 htokens
    exact List.forall_mem_cons.2 ⟨hfirst, ih hrest⟩
  | reference _ _ hwritten hreplacement _ _ ihinner ihafter =>
    obtain ⟨-, hrest⟩ := List.forall_mem_cons.1 htokens
    obtain ⟨harguments, hafter⟩ := List.forall_mem_append.1 hrest
    refine List.forall_mem_append.2 ⟨ihinner fun token htoken => ?_, ihafter fun token htoken => ?_⟩
    · rcases Reference.mem_of_mem_replacement hwritten hreplacement
        (mem_of_mem_collapse htoken) with hscan | hargument
      · exact hscan
      · exact harguments token (mem_of_mem_collapse hargument)
    · exact hafter token (List.mem_cons_of_mem _ htoken)

/-- All tokens of a value have been taken off a text. -/
theorem exists_mem_scan_of_substitute {value : String}
    (h : substitute properties value = some tokens) :
    ∀ token ∈ tokens, ∃ text, token ∈ scan text := by
  have hscan : ∀ token ∈ collapse (scan value.toList : List (Token K)), ∃ text, token ∈ scan text :=
    fun token htoken => ⟨value.toList, mem_of_mem_collapse htoken⟩
  rcases substitute_eq_some_iff.1 h with ⟨-, rfl⟩ | ⟨-, _, _, _, hexpansion, -, -, rfl⟩
  · exact hscan
  · exact fun token htoken => hexpansion.exists_mem_scan hscan token (mem_of_mem_collapse htoken)

end Property

/-! ## Whole numbers -/

namespace Double

open Binary

/-- A whole number of up to six digits. -/
def IsSmallInteger (x : Double) : Prop := ∃ n : ℤ, |n| < 10 ^ 6 ∧ HasValue x n

/-- Whole numbers of up to six digits are written without places and read back. -/
theorem IsSmallInteger.isWhole {x : Double} (h : IsSmallInteger x) : IsWhole x := by
  obtain ⟨n, hn, negative, q, hexact, hsigned⟩ := h
  have hx := hasValue_of_exact hexact
  have hshort := isShort_of_exact hexact
  have hq : q = n.natAbs :=
    calc q = |signed negative q| := (abs_signed hshort.nonneg).symm
      _ = |(n : ℚ)| := by rw [hsigned]
      _ = n.natAbs := by rw [Nat.cast_natAbs, Int.cast_abs]
  have hdigits : n.natAbs < 10 ^ 6 := by
    rw [← Int.natCast_natAbs] at hn
    exact_mod_cast hn
  have hprintable : IsPrintable q := by
    refine ⟨n.natAbs, 0, hdigits, by norm_num, ?_⟩
    rw [abs_of_nonneg hshort.nonneg, zpow_zero, mul_one, hq]
  have hdecimal := hx.decimal_eq negative hshort.nonneg
  have hmagnitude := Decimal.magnitude_ofMagnitude negative hprintable hshort.nonneg
  refine ⟨hx.isFinite, ?_, ?_⟩
  · obtain ⟨r, hr, hread⟩ :=
      Decimal.exists_isNearest_toNumber negative hshort (le_largestValue_of_exact hexact)
    rw [hmagnitude] at hr
    obtain rfl := hr.eq_of_short hshort
    rw [← hdecimal] at hread
    refine (HasValue.beq_iff hread hx).2 ?_
    rcases eq_or_ne r 0 with rfl | hne
    · rw [signed, signed, neg_zero, ite_self, ite_self]
    · rw [hdecimal, Decimal.negative_ofMagnitude (by rwa [hmagnitude])]
  · -- Without places there is one decimal of the magnitude that has no zeros at its end.
    have hwhole : Scalar.decimal x = ⟨(Scalar.decimal x).negative, n.natAbs, 0⟩ := by
      refine (Scalar.isTrimmed_decimal x).eq_of_magnitude_eq
        ⟨le_rfl, fun h => absurd h (lt_irrefl 0)⟩ rfl ?_
      rw [hdecimal, hmagnitude, Decimal.magnitude, zpow_zero, mul_one, hq]
    rw [hwhole]

end Double

/-! ## Blanks at both ends -/

/-- A list of tokens without the blanks at both ends. -/
def Token.trim {K : Type} (tokens : List (Token K)) : List (Token K) :=
  (tokens.dropWhile isWhitespace).rdropWhile isWhitespace

section Ends

variable {α : Type} {p : α → Bool} {before list after : List α}

/-- Dropping from both ends, what stands there makes no difference as long as it is dropped. -/
theorem rdropWhile_dropWhile_append (hbefore : ∀ a ∈ before, p a = true)
    (hafter : ∀ a ∈ after, p a = true) :
    ((before ++ list ++ after).dropWhile p).rdropWhile p = (list.dropWhile p).rdropWhile p := by
  rw [List.append_assoc, List.dropWhile_append_of_pos hbefore, List.dropWhile_append]
  split
  · next hempty =>
    rw [List.isEmpty_iff.1 hempty, List.dropWhile_eq_nil_iff.2 hafter]
  · rw [List.rdropWhile, List.reverse_append, List.dropWhile_append_of_pos]
    · rfl
    · exact fun a ha => hafter a (List.mem_reverse.1 ha)

end Ends

section Trimmed

variable {K : Type} {tokens : List (Token K)}

/-- A list of tokens is what is left of it between blanks. -/
theorem exists_eq_trim (tokens : List (Token K)) : ∃ before after,
    AreBlank before ∧ AreBlank after ∧ tokens = before ++ Token.trim tokens ++ after := by
  refine ⟨tokens.takeWhile isWhitespace, (tokens.dropWhile isWhitespace).rtakeWhile isWhitespace,
    fun _ => List.mem_takeWhile_imp, fun _ => List.mem_rtakeWhile_imp, ?_⟩
  rw [Token.trim, List.append_assoc, List.rdropWhile_append_rtakeWhile,
    List.takeWhile_append_dropWhile]

/-- Trimming adds no tokens. -/
theorem mem_of_mem_trim {token : Token K} (h : token ∈ Token.trim tokens) : token ∈ tokens :=
  (List.dropWhile_sublist _).mem ((List.rdropWhile_prefix _ _).subset h)

variable [Scalar K]

/-- The text of tokens is put together from the texts of two parts of them. -/
theorem toList_textOf_append (tokens tokens' : List (Token K)) :
    (textOf (tokens ++ tokens')).toList = (textOf tokens).toList ++ (textOf tokens').toList := by
  rw [textOf, textOf, textOf, List.map_append, String.join_append, String.toList_append]

/-- Blank tokens have a blank text. -/
theorem isBlank_of_mem_textOf (h : AreBlank tokens) :
    ∀ c ∈ (textOf tokens).toList, Text.isBlank c = true := by
  induction tokens with
  | nil => exact fun _ hc => absurd hc List.not_mem_nil
  | cons token tokens ih =>
    obtain ⟨hblank, hrest⟩ := List.forall_mem_cons.1 h
    rw [eq_whitespace hblank, toList_textOf_cons, toList_text_whitespace]
    exact List.forall_mem_cons.2 ⟨rfl, ih hrest⟩

/-- Blanks at the ends do not show in a text without blanks at its ends. -/
theorem trim_textOf (tokens : List (Token K)) :
    Text.trim (textOf tokens) = Text.trim (textOf (Token.trim tokens)) := by
  obtain ⟨before, after, hbefore, hafter, htokens⟩ := exists_eq_trim tokens
  have htrim : ∀ text : String, Text.trim text =
      String.ofList ((text.toList.dropWhile Text.isBlank).rdropWhile Text.isBlank) := fun _ => rfl
  rw [htrim, htrim]
  nth_rewrite 1 [htokens]
  rw [toList_textOf_append, toList_textOf_append,
    rdropWhile_dropWhile_append (isBlank_of_mem_textOf hbefore) (isBlank_of_mem_textOf hafter)]

end Trimmed

/-! ## Reading the text of a value -/

/-- The text of a value that is no expression is read as the tokens of the value. The value holds
names, whole numbers and signs, each two neighbours are read back on their own, and no white space
that is no blank stands at the ends. -/
theorem calculate_readsBack (value : String) (options : Options Double)
    {tokens : List (Token Double)}
    (htokens : Property.substitute options.properties value = some tokens)
    (hcalc : (tokens.find? fun token => !token.isWhitespace).any (isFunction "calc") = false)
    (hplain : ∀ token ∈ tokens, token.IsPlain Double.IsSmallInteger)
    (hends : Text.trim (textOf (Token.trim tokens)) = textOf (Token.trim tokens))
    (hpairs : (Token.trim tokens).IsChain fun t u =>
      (scan (textOf [t, u]).toList == [t, u]) = true) :
    (scan (calculate value options).toList == Token.trim tokens) = true := by
  have hlegible : ∀ token ∈ Token.trim tokens, IsLegible token := by
    intro token htoken
    have hmem := mem_of_mem_trim htoken
    refine ⟨(hplain token hmem).mono fun _ => Double.IsSmallInteger.isWhole, ?_⟩
    rintro c rfl
    -- A delimiter that is scanned from a text is neither a digit nor the start of a name.
    obtain ⟨text, hscan⟩ := Property.exists_mem_scan_of_substitute htokens _ hmem
    exact isSign_of_mem_scan hscan
  -- Neighbours that read back do not run into each other.
  have hchain : (Token.trim tokens).IsChain fun t u => runsInto t u.text.toList = false :=
    hpairs.imp_of_mem_imp fun t u ht hu h => (scan_pair_iff (hlegible t ht) (hlegible u hu)).1 h
  have hcalculate : calculate value options = textOf (Token.trim tokens) := by
    unfold calculate
    rw [htokens]
    dsimp only
    rw [hcalc, if_neg Bool.false_ne_true, trim_textOf, hends]
  rw [hcalculate]
  exact scan_textOf hlegible hchain

/-- A call and a word, with a blank in front of them. -/
theorem calculate_readsBack_call :
    let tokens : List (Token Double) :=
      [function "f", number 1.0, comma, percentage (-2.0), closeParen, ident "a"]
    Property.substitute Lookup.empty " f(1,-2%)a" = some (whitespace :: tokens) ∧
      (scan (calculate " f(1,-2%)a" ({} : Options Double)).toList == tokens) = true := by
  intro tokens
  have hblank : next? (K := Double) " f(1,-2%)a".toList = some (whitespace, "f(1,-2%)a".toList) :=
    rfl
  have hcall : next? (K := Double) "f(1,-2%)a".toList = some (function "f", "1,-2%)a".toList) := by
    cbv
  have hnumber : next? (K := Double) "1,-2%)a".toList = some (number 1.0, ",-2%)a".toList) := rfl
  have hcomma : next? (K := Double) ",-2%)a".toList = some (comma, "-2%)a".toList) := rfl
  have hpercent : next? (K := Double) "-2%)a".toList = some (percentage (-2.0), ")a".toList) := rfl
  have hparen : next? (K := Double) ")a".toList = some (closeParen, "a".toList) := rfl
  have hword : next? (K := Double) "a".toList = some (ident "a", []) := by cbv
  have hscan : scan " f(1,-2%)a".toList = whitespace :: tokens := by
    rw [scan_of_next?_some hblank, scan_of_next?_some hcall, scan_of_next?_some hnumber,
      scan_of_next?_some hcomma, scan_of_next?_some hpercent, scan_of_next?_some hparen,
      scan_of_next?_some hword, scan_of_next?_none rfl]
  have htokens : Property.substitute Lookup.empty " f(1,-2%)a" = some (whitespace :: tokens) :=
    Property.substitute_eq_some_iff.2 (.inl ⟨by rw [hscan]; decide +kernel, by rw [hscan]; rfl⟩)
  have hone : Double.IsSmallInteger 1.0 :=
    ⟨1, by norm_num, false, 1, by decide +kernel, by norm_num [Binary.signed]⟩
  have htwo : Double.IsSmallInteger (-2.0) :=
    ⟨-2, by norm_num, true, 2, by decide +kernel, by norm_num [Binary.signed]⟩
  refine ⟨htokens, ?_⟩
  refine calculate_readsBack " f(1,-2%)a" {} htokens (by decide +kernel) ?_ (by decide +kernel)
    (by decide +kernel)
  simp only [tokens, List.forall_mem_cons, List.not_mem_nil, false_imp_iff, implies_true, and_true]
  exact ⟨trivial, rfl, hone, trivial, htwo, trivial, rfl⟩

/-- Two numbers that only a sign keeps apart become one number. -/
theorem calculate_joinedNumbers :
    let tokens : List (Token Double) := [number 1.0, number 2.0]
    Property.substitute Lookup.empty "1+2" = some tokens ∧
      (tokens.find? fun token => !token.isWhitespace).any (isFunction "calc") = false ∧
      (∀ token ∈ tokens, token.IsPlain Double.IsSmallInteger) ∧ Token.trim tokens = tokens ∧
      calculate "1+2" ({} : Options Double) = "12" ∧
      (scan "12".toList == tokens) = false := by
  intro tokens
  have hfirst : next? (K := Double) "1+2".toList = some (number 1.0, "+2".toList) := rfl
  have hsecond : next? (K := Double) "+2".toList = some (number 2.0, []) := rfl
  have hscan : scan "1+2".toList = tokens := by
    rw [scan_of_next?_some hfirst, scan_of_next?_some hsecond, scan_of_next?_none rfl]
  have hone : Double.IsSmallInteger 1.0 :=
    ⟨1, by norm_num, false, 1, by decide +kernel, by norm_num [Binary.signed]⟩
  have htwo : Double.IsSmallInteger 2.0 :=
    ⟨2, by norm_num, false, 2, by decide +kernel, by norm_num [Binary.signed]⟩
  refine ⟨?_, rfl, ?_, rfl, by decide +kernel, by decide +kernel⟩
  · exact Property.substitute_eq_some_iff.2 (.inl ⟨by rw [hscan]; rfl, by rw [hscan]; rfl⟩)
  · exact List.forall_mem_cons.2 ⟨hone, List.forall_mem_singleton.2 htwo⟩

end CssColor
