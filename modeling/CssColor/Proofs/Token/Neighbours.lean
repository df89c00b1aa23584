import CssColor.Proofs.Token.Legible

/-!
# Tokens whose texts stand next to each other

The texts of tokens are joined without a separator, so one text may run into the token in front of
it. Where none does, the tokens are read back (`Token.scan_textOf`). Whether one does is seen from
two neighbours on their own: they are read back if and only if the second one does not run into the
first (`Token.scan_pair_iff`).
-/

namespace CssColor.Token

/-! ## What the neighbour sees of a text -/

/-- Texts that run into the same tokens. -/
structure StartsLike (text text' : List Char) : Prop where
  head : text.head? = text'.head?
  name : startsName text = startsName text'
  magnitude : startsMagnitude text = startsMagnitude text'

section Lookahead

variable {c : Char} {text text' : List Char}

/-- Whether a text starts with a digit is seen from its first character. -/
theorem startsWithDigit_eq (text : List Char) :
    Decimal.startsWithDigit text = text.head?.any Char.isDigit := by
  cases text with
  | nil => rfl
  | cons c rest => rfl

/-- Past its sign a numeral is a magnitude. -/
theorem startsNumeral_eq (text : List Char) :
    Decimal.startsNumeral text = startsMagnitude (Decimal.takeSign text).2 := by
  unfold Decimal.startsNumeral
  split
  · next heq => rw [heq, startsMagnitude]
  · next hpoint =>
    rw [startsMagnitude]
    exact hpoint

/-- Whether an escape is complete is seen from the character behind the backslash. -/
theorem isEscapeTail_eq (text : List Char) :
    isEscapeTail text = text.head?.any (· != '\n') := by
  cases text with
  | nil => rfl
  | cons c rest => rfl

/-- After a dash a name goes on with another dash or with a name. -/
theorem startsName_dash_eq (text : List Char) :
    startsName ('-' :: text) = (text.head? == some '-' || startsName text) := by
  cases text with
  | nil => rfl
  | cons c rest =>
    -- Only a second dash or a backslash starts a name here that did not start one before.
    by_cases hdash : c = '-'
    · subst hdash
      rfl
    by_cases hback : c = '\\'
    · subst hback
      rfl
    rw [startsName.eq_3 _ _ hdash hback, startsName_of_ne hdash hback]
    have hhead : ((c :: rest).head? == some '-') = false := beq_eq_false_iff_ne.2 fun heq =>
      hdash (Option.some.inj heq)
    rw [hhead, Bool.false_or]

/-- A text that starts like another one does so after a character that both follow. -/
theorem StartsLike.startsName_cons (h : StartsLike text text') (c : Char) :
    startsName (c :: text) = startsName (c :: text') := by
  by_cases hdash : c = '-'
  · subst hdash
    rw [startsName_dash_eq, startsName_dash_eq, h.head, h.name]
  by_cases hback : c = '\\'
  · subst hback
    show isEscapeTail text = isEscapeTail text'
    rw [isEscapeTail_eq, isEscapeTail_eq, h.head]
  · rw [startsName_of_ne hdash hback, startsName_of_ne hdash hback]

/-- Whether a numeral starts with a character is seen from where the text behind it starts. -/
theorem StartsLike.startsNumeral_cons (h : StartsLike text text') (c : Char) :
    Decimal.startsNumeral (c :: text) = Decimal.startsNumeral (c :: text') := by
  rw [startsNumeral_eq, startsNumeral_eq]
  -- A sign in front of a magnitude.
  by_cases hplus : c = '+'
  · subst hplus
    exact h.magnitude
  by_cases hdash : c = '-'
  · subst hdash
    exact h.magnitude
  rw [Decimal.takeSign_of_ne hplus hdash, Decimal.takeSign_of_ne hplus hdash]
  -- A point in front of a digit.
  by_cases hpoint : c = '.'
  · subst hpoint
    show Decimal.startsWithDigit text = Decimal.startsWithDigit text'
    rw [startsWithDigit_eq, startsWithDigit_eq, h.head]
  · show startsMagnitude (c :: text) = startsMagnitude (c :: text')
    rw [startsMagnitude_of_ne hpoint, startsMagnitude_of_ne hpoint]

/-- A character that is no digit is no magnitude. -/
theorem not_startsMagnitude_singleton (h : c.isDigit = false) : startsMagnitude [c] = false := by
  by_cases hpoint : c = '.'
  · subst hpoint
    rfl
  · rw [startsMagnitude_of_ne hpoint, h]

/-- A character that is no digit is no numeral. -/
theorem not_startsNumeral_singleton (h : c.isDigit = false) :
    Decimal.startsNumeral [c] = false := by
  rw [startsNumeral_eq]
  by_cases hplus : c = '+'
  · subst hplus
    rfl
  by_cases hdash : c = '-'
  · subst hdash
    rfl
  rw [Decimal.takeSign_of_ne hplus hdash, not_startsMagnitude_singleton h]

/-- A character that starts no name and no escape is no name. -/
theorem not_startsName_singleton (hstart : isNameStart c = false) (hback : c ≠ '\\') :
    startsName [c] = false := by
  by_cases hdash : c = '-'
  · subst hdash
    rfl
  · rw [startsName_of_ne hdash hback, hstart]

/-- Whether a name goes on is seen from the first character, or from an escape that starts there. -/
theorem continuesName_eq (text : List Char) : continuesName text =
    (text.head?.any isNameChar || text.head? == some '\\' && startsName text) := by
  cases text with
  | nil => rfl
  | cons c rest =>
    by_cases hback : c = '\\'
    · subst hback
      rfl
    have hhead : ((c :: rest).head? == some '\\') = false := beq_eq_false_iff_ne.2 fun heq =>
      hback (Option.some.inj heq)
    -- Without a backslash there is no escape, and the name goes on with a name character only.
    have hescape : startsEscape (c :: rest) = false := by
      rw [startsEscape]
      rintro rest' heq
      exact hback (List.cons.inj heq).1
    rw [hhead, Bool.false_and, continuesName, hescape]
    rfl

/-- Texts that start alike run into the same tokens. -/
theorem StartsLike.runsInto_eq {K : Type} (h : StartsLike text text') (token : Token K) :
    runsInto token text = runsInto token text' := by
  have hcontinues : continuesName text = continuesName text' := by
    rw [continuesName_eq, continuesName_eq, h.head, h.name]
  cases token with
  | ident name => rw [runsInto, runsInto, hcontinues, h.head]
  | number x => rw [runsInto, runsInto, h.magnitude, h.name, h.head]
  | dimension x unit => exact hcontinues
  | whitespace => rw [runsInto, runsInto, h.head]
  | delim c =>
    rw [runsInto, runsInto, runsIntoSign, runsIntoSign, h.head, hcontinues, h.name,
      h.startsNumeral_cons, h.startsName_cons]
  | _ => rfl

/-- A character that starts neither an escape, a fraction nor a sign tells how its text starts. -/
theorem startsLike_of_ne (hback : c ≠ '\\') (hpoint : c ≠ '.') (hdash : c ≠ '-')
    (text text' : List Char) : StartsLike (c :: text) (c :: text') where
  head := rfl
  name := by rw [startsName_of_ne hdash hback, startsName_of_ne hdash hback]
  magnitude := by rw [startsMagnitude_of_ne hpoint, startsMagnitude_of_ne hpoint]

/-- After a dash the next character tells it. -/
theorem startsLike_dash (hback : c ≠ '\\') (text text' : List Char) :
    StartsLike ('-' :: c :: text) ('-' :: c :: text') where
  head := rfl
  name := by
    rw [startsName_dash_eq, startsName_dash_eq]
    by_cases hdash : c = '-'
    · subst hdash
      rfl
    · rw [startsName_of_ne hdash hback, startsName_of_ne hdash hback]
      rfl
  magnitude := rfl

/-- A delimiter that a text does not run into starts as it does on its own. -/
theorem startsLike_sign (hstart : isNameStart c = false) (hback : c ≠ '\\')
    (h : runsIntoSign c text = false) : StartsLike (c :: text) [c] where
  head := rfl
  name := by
    simp only [runsIntoSign, Bool.or_eq_false_iff] at h
    rw [h.2, not_startsName_singleton hstart hback]
  magnitude := by
    simp only [runsIntoSign, Bool.or_eq_false_iff] at h
    by_cases hpoint : c = '.'
    · subst hpoint
      exact h.1.2
    · rw [startsMagnitude_of_ne hpoint, startsMagnitude_of_ne hpoint]

end Lookahead

section Texts

variable {K : Type} [Scalar K] {t u : Token K} {name unit : String} {x : K} {text : List Char}

/-- Texts that start with the same word start alike. -/
theorem startsLike_of_isWord (h : IsWord name = true) (text text' : List Char) :
    StartsLike (name.toList ++ text) (name.toList ++ text') := by
  obtain ⟨c, tail, hname, hchars, hc | ⟨rfl, c', tail', rfl, hc'⟩⟩ := exists_of_isWord h
  · rw [hname]
    exact startsLike_of_ne (ne_of_isNameStart hc _ rfl) (ne_of_isNameStart hc _ rfl)
      (ne_of_isNameStart hc _ rfl) _ _
  · rw [hname]
    refine startsLike_dash ?_ _ _
    exact ne_of_isNameChar (hchars c' (by simp)) _ rfl

/-- Texts that start with the same numeral start alike. -/
theorem startsLike_of_isWhole (h : IsWhole x) (text text' : List Char) :
    StartsLike ((Scalar.text x).toList ++ text) ((Scalar.text x).toList ++ text') := by
  have hdigit : ∀ c sign : Char, c.isDigit = true → sign.isDigit = false → c ≠ sign := by
    rintro c sign hc hsign rfl
    rw [hc] at hsign
    cases hsign
  rw [Scalar.text_eq_decimal_text h.finite]
  obtain ⟨c, tail, htext, hc | ⟨rfl, c', tail', rfl, hc'⟩⟩ := exists_text_eq_cons h.whole.le
  · rw [htext]
    exact startsLike_of_ne (hdigit c _ hc rfl) (hdigit c _ hc rfl) (hdigit c _ hc rfl) _ _
  · rw [htext]
    exact startsLike_dash (hdigit c' _ hc' rfl) _ _

/-- How the text of a legible token starts is not changed by a text that does not run into it. -/
theorem IsLegible.startsLike (h : IsLegible u) (htext : runsInto u text = false) :
    StartsLike (u.text.toList ++ text) u.text.toList := by
  have hplain := h.plain
  cases u with
  -- Names and numerals start alike whatever follows, and signs as long as they do not run into it.
  | ident name =>
    have hstarts := startsLike_of_isWord hplain text []
    rwa [List.append_nil] at hstarts
  | function name =>
    rw [toList_text_function, List.append_assoc]
    exact startsLike_of_isWord hplain _ _
  | number x =>
    have hstarts := startsLike_of_isWhole hplain text []
    rwa [List.append_nil] at hstarts
  | percentage x =>
    rw [toList_text_percentage, List.append_assoc]
    exact startsLike_of_isWhole hplain _ _
  | dimension x unit =>
    rw [toList_text_dimension, List.append_assoc]
    exact startsLike_of_isWhole hplain.1 _ _
  | comma =>
    rw [toList_text_comma]
    exact startsLike_of_ne (by decide) (by decide) (by decide) _ _
  | openParen =>
    rw [toList_text_openParen]
    exact startsLike_of_ne (by decide) (by decide) (by decide) _ _
  | closeParen =>
    rw [toList_text_closeParen]
    exact startsLike_of_ne (by decide) (by decide) (by decide) _ _
  | whitespace =>
    rw [toList_text_whitespace]
    exact startsLike_of_ne (by decide) (by decide) (by decide) _ _
  | delim c =>
    simp only [runsInto, Bool.or_eq_false_iff] at htext
    rw [toList_text_delim]
    exact startsLike_sign (h.sign c rfl).name hplain htext.2
  | _ => cases hplain

/-- Nothing is run into at the end of a text. -/
theorem IsLegible.runsInto_nil (h : IsLegible t) : runsInto t [] = false := by
  cases t with
  | delim c =>
    have hsign := h.sign c rfl
    have hback : c ≠ '\\' := h.plain
    rw [runsInto, runsIntoSign, not_startsNumeral_singleton hsign.digit,
      not_startsName_singleton hsign.name hback, continuesName, startsName]
    simp
  | _ => rfl

/-- The text of tokens is put together from their texts. -/
theorem toList_textOf_cons (t : Token K) (tokens : List (Token K)) :
    (textOf (t :: tokens)).toList = t.text.toList ++ (textOf tokens).toList := by
  rw [textOf, textOf, List.map_cons, String.join_cons, String.toList_append]

/-- The texts of legible tokens run into nothing that the first of them does not run into. -/
theorem runsInto_textOf {tokens : List (Token K)} (h : ∀ u ∈ t :: tokens, IsLegible u)
    (hchain : (t :: tokens).IsChain fun t u => runsInto t u.text.toList = false) :
    runsInto t (textOf tokens).toList = false := by
  -- How a token starts is settled by what runs into it, so the tokens behind it come first.
  induction tokens generalizing t with
  | nil => exact (h t List.mem_cons_self).runsInto_nil
  | cons u tokens ih =>
    obtain ⟨hfirst, hrest⟩ := List.isChain_cons_cons.1 hchain
    have hlegible : ∀ v ∈ u :: tokens, IsLegible v := fun v hv => h v (List.mem_cons_of_mem _ hv)
    have hstarts := (hlegible u List.mem_cons_self).startsLike (ih hlegible hrest)
    rw [toList_textOf_cons, hstarts.runsInto_eq, hfirst]

/-- Legible tokens are read back from their texts where none runs into the token in front of it. -/
theorem scan_textOf {tokens : List (Token K)} (h : ∀ t ∈ tokens, IsLegible t)
    (hchain : tokens.IsChain fun t u => runsInto t u.text.toList = false) :
    (scan (textOf tokens).toList == tokens) = true := by
  induction tokens with
  | nil =>
    rw [scan_of_next?_none rfl]
    rfl
  | cons t tokens ih =>
    have hrest : ∀ u ∈ tokens, IsLegible u := fun u hu => h u (List.mem_cons_of_mem _ hu)
    obtain ⟨taken, htaken, hsame⟩ :=
      (h t List.mem_cons_self).exists_next? (runsInto_textOf h hchain)
    rw [toList_textOf_cons, scan_of_next?_some htaken, List.cons_beq_cons, hsame,
      ih hrest hchain.tail]
    rfl

end Texts

/-! ## Two neighbours on their own -/

section Pairs

variable {K : Type} [Scalar K] {t u : Token K} {x : K} {text rest left : List Char}

/-- A word consists of characters of names. -/
theorem isNameChar_of_isWord {name : String} (h : IsWord name = true) :
    ∀ c ∈ name.toList, isNameChar c = true :=
  List.all_eq_true.1 ((Bool.and_eq_true _ _).mp h).2

/-- A text has some tokens if its first token is the first of them and the rest has the others. -/
theorem scan_beq_cons_iff {tokens : List (Token K)} : (scan text == t :: tokens) = true ↔
    ∃ taken rest, next? text = some (taken, rest) ∧ (taken == t) = true ∧
      (scan rest == tokens) = true := by
  cases hnext : next? (K := K) text with
  | none =>
    rw [scan_of_next?_none hnext]
    constructor
    · intro h
      cases h
    · rintro ⟨_, _, h, -⟩
      cases h
  | some taken =>
    obtain ⟨taken, rest⟩ := taken
    rw [scan_of_next?_some hnext, List.cons_beq_cons, Bool.and_eq_true]
    constructor
    · rintro ⟨hsame, hrest⟩
      exact ⟨taken, rest, rfl, hsame, hrest⟩
    · rintro ⟨_, _, h, hsame, hrest⟩
      obtain ⟨rfl, rfl⟩ := Prod.mk.inj (Option.some.inj h)
      exact ⟨hsame, hrest⟩

/-- The text of a legible token is a name, a numeral with a unit, or a single sign. -/
theorem IsLegible.text_cases (h : IsLegible u) :
    (∃ name tail, (u = ident name ∨ u = function name) ∧ IsWord name = true ∧
        u.text.toList = name.toList ++ tail) ∨
      (∃ (x : K) (suffix : List Char), IsWhole x ∧
        u.text.toList = (Scalar.text x).toList ++ suffix ∧ Decimal.EndsNumeral suffix ∧
        (suffix ≠ [] → startsName suffix = true ∨ suffix.head? = some '%')) ∨
      ∃ c, u.text.toList = [c] ∧ c.isDigit = false ∧ isNameStart c = false ∧ c ≠ '\\' := by
  have hplain := h.plain
  -- A word, a number with what is written behind it, or a single character.
  cases u with
  | ident name => exact .inl ⟨name, [], .inl rfl, hplain, (List.append_nil _).symm⟩
  | function name => exact .inl ⟨name, ['('], .inr rfl, hplain, toList_text_function name⟩
  | number x =>
    refine .inr (.inl ⟨x, [], hplain, (List.append_nil _).symm, ⟨rfl, rfl, rfl⟩, ?_⟩)
    exact fun h => absurd rfl h
  | percentage x =>
    refine .inr (.inl ⟨x, ['%'], hplain, toList_text_percentage x, endsNumeral_percent [], ?_⟩)
    exact fun _ => .inr rfl
  | dimension x unit =>
    obtain ⟨hx, hunit⟩ : IsWhole x ∧ IsPlainUnit unit := hplain
    have hends := endsNumeral_of_isPlainUnit hunit []
    have hstarts := startsName_of_isWord hunit.word []
    rw [List.append_nil] at hends hstarts
    refine .inr (.inl ⟨x, unit.toList, hx, toList_text_dimension x unit, hends, ?_⟩)
    exact fun _ => .inl hstarts
  | comma => exact .inr (.inr ⟨',', toList_text_comma, by decide⟩)
  | openParen => exact .inr (.inr ⟨'(', toList_text_openParen, by decide⟩)
  | closeParen => exact .inr (.inr ⟨')', toList_text_closeParen, by decide⟩)
  | whitespace => exact .inr (.inr ⟨' ', toList_text_whitespace, by decide⟩)
  | delim c =>
    have hsign := h.sign c rfl
    exact .inr (.inr ⟨c, toList_text_delim c, hsign.digit, hsign.name, hplain⟩)
  | _ => cases hplain

/-- What follows a numeral says whether it has a unit, a percent sign or neither. -/
theorem takeNumeric_eq (text : List Char) : (takeNumeric text : Token K × List Char) =
    takeUnit (Decimal.scan text).1.toNumber (Decimal.scan text).2 := rfl

/-- A unit that is taken as none is none. -/
theorem takeUnit_beq_number {y : K} {taken : Token K} (h : takeUnit y text = (taken, rest))
    (hsame : (taken == number x) = true) :
    rest = text ∧ startsName text = false ∧ text.head? ≠ some '%' := by
  unfold takeUnit at h
  -- The token would have a unit.
  split at h
  · obtain ⟨rfl, -⟩ := Prod.mk.inj h
    cases hsame
  next hname =>
  -- The token would be a percentage.
  split at h
  · obtain ⟨rfl, -⟩ := Prod.mk.inj h
    cases hsame
  next hpercent =>
  obtain ⟨-, rfl⟩ := Prod.mk.inj h
  refine ⟨rfl, Bool.eq_false_of_not_eq_true hname, ?_⟩
  intro hhead
  obtain ⟨tail, rfl⟩ := List.head?_eq_some_iff.1 hhead
  exact hpercent tail rfl

/-- A whole number takes the digits, the fraction and the exponent off the text after it. -/
theorem snd_scan_of_whole {d : Decimal} (h : d.exponent = 0) (text : List Char) :
    (Decimal.scan (d.text.toList ++ text)).2 =
      (Decimal.takeExponent (Decimal.takeFraction (Decimal.takeDigits text).2).2).2 := by
  have hdigits : (Decimal.takeDigits (d.magnitudeText.toList ++ text)).2 =
      (Decimal.takeDigits text).2 := by
    rcases Decimal.magnitudeText_eq h.le with ⟨-, htext⟩ | ⟨_, fraction, hne, -, -, -, hplaces⟩
    · rw [htext]
      exact List.dropWhile_append_of_pos fun c => Decimal.isDigit_of_mem_toDigits
    · have hpos := List.length_pos_of_ne_nil hne
      omega
  unfold Decimal.scan
  simp only [Decimal.takeSign_text h.le, hdigits]

/-- Behind an integer, further digits, a fraction and an exponent are taken with it. -/
theorem exists_next?_whole (hx : IsWhole x) (text : List Char) : ∃ y : K, next?
    ((Scalar.text x).toList ++ text) = some (takeUnit y
      (Decimal.takeExponent (Decimal.takeFraction (Decimal.takeDigits text).2).2).2) := by
  rw [Scalar.text_eq_decimal_text hx.finite,
    next?_of_startsNumeral (Decimal.startsNumeral_text hx.whole.le text), takeNumeric_eq,
    snd_scan_of_whole hx.whole]
  exact ⟨_, rfl⟩

/-- Either there is no exponent, or something is taken. -/
theorem takeExponent_cases (text : List Char) : Decimal.takeExponent text = (0, text) ∨
    (Decimal.takeExponent text).2.length < text.length := by
  cases text with
  | nil => exact .inl rfl
  | cons c rest =>
    unfold Decimal.takeExponent
    dsimp only
    split
    · refine .inr (Nat.lt_succ_of_le ?_)
      exact (Decimal.takeDigits_length_le _).trans (Decimal.takeSign_length_le rest)
    · exact .inl rfl

/-- No magnitude starts where a word does. -/
theorem not_startsMagnitude_of_isWord {name : String} (h : IsWord name = true) (rest : List Char) :
    startsMagnitude (name.toList ++ rest) = false := by
  obtain ⟨c, tail, hname, -, hc | ⟨rfl, -⟩⟩ := exists_of_isWord h
  · rw [hname, List.cons_append, startsMagnitude_of_ne (ne_of_isNameStart hc _ rfl)]
    exact not_isDigit_of_isNameStart hc
  · rw [hname]
    rfl

/-- A number takes nothing of a magnitude that is read back after it, so there is none. -/
theorem not_startsMagnitude_of_scan (hu : IsLegible u)
    (hleft : left = (Decimal.takeExponent
      (Decimal.takeFraction (Decimal.takeDigits u.text.toList).2).2).2)
    (hname : startsName left = false) (hpercent : left.head? ≠ some '%')
    (hscan : (scan left == [u]) = true) : startsMagnitude u.text.toList = false := by
  rw [Bool.eq_false_iff]
  intro hmagnitude
  rcases hu.text_cases with ⟨name, tail, -, hword, htext⟩ | ⟨x, suffix, hx, htext, hends, hsuffix⟩ |
    ⟨c, htext, hdigit, -, -⟩
  · -- A name starts no magnitude.
    rw [htext, not_startsMagnitude_of_isWord hword] at hmagnitude
    cases hmagnitude
  · -- A magnitude has no sign, so what is left of it is what a numeral leaves: the unit.
    have hsign : Decimal.takeSign u.text.toList = (false, u.text.toList) := by
      rw [htext, Scalar.text_eq_decimal_text hx.finite] at hmagnitude ⊢
      obtain ⟨c, tail, hcons, hc | ⟨rfl, -⟩⟩ := exists_text_eq_cons hx.whole.le
      · rw [hcons]
        exact Decimal.takeSign_of_isDigit hc _
      · rw [hcons] at hmagnitude
        cases hmagnitude
    have hscanned : (Decimal.scan u.text.toList).2 = suffix := by
      rw [htext, Scalar.text_eq_decimal_text hx.finite, Decimal.scan_text hx.whole.le hends]
    have hunit : left = suffix := by
      rw [hleft, ← hscanned, Decimal.scan]
      simp only [hsign]
    subst hunit
    by_cases hempty : left = []
    · rw [hempty, scan_of_next?_none rfl] at hscan
      cases hscan
    · rcases hsuffix hempty with h | h
      · rw [hname] at h
        cases h
      · exact hpercent h
  · -- A single sign is no magnitude.
    rw [htext, not_startsMagnitude_singleton hdigit] at hmagnitude
    cases hmagnitude

/-- No exponent is taken off the text of a token that is read back from what is left. -/
theorem takeExponent_of_scan (hu : IsLegible u)
    (hscan : (scan (Decimal.takeExponent u.text.toList).2 == [u]) = true) :
    Decimal.takeExponent u.text.toList = (0, u.text.toList) := by
  rcases takeExponent_cases u.text.toList with hnone | hlt
  · exact hnone
  rcases hu.text_cases with ⟨name, tail, hname, -, -⟩ | ⟨x, suffix, hx, htext, -, -⟩ |
    ⟨c, htext, -, hstart, -⟩
  · -- The name would have to be read from less than its own text.
    obtain ⟨taken, rest, hnext, hsame, -⟩ := scan_beq_cons_iff.1 hscan
    have htaken : taken = u := by
      rcases hname with rfl | rfl <;> cases taken <;> first | cases hsame | skip
      · rw [eq_of_beq (show (_ == name) = true from hsame)]
      · rw [eq_of_beq (show (_ == name) = true from hsame)]
    rw [htaken] at hnext
    exact absurd (length_text_le_of_next? hnext hname) (Nat.not_le_of_lt hlt)
  · -- The first character of a numeral is no letter, so it starts no exponent.
    rw [htext, Scalar.text_eq_decimal_text hx.finite]
    obtain ⟨c, tail, hcons, hc | ⟨rfl, -⟩⟩ := exists_text_eq_cons hx.whole.le
    · rw [hcons]
      refine takeExponent_of_not_isNameStart ?_ _
      rw [Bool.eq_false_iff]
      intro hstart
      rw [not_isDigit_of_isNameStart hstart] at hc
      cases hc
    · rw [hcons]
      exact takeExponent_of_not_isNameStart rfl _
  · -- Neither is a sign a letter.
    rw [htext]
    exact takeExponent_of_not_isNameStart hstart _

/-- A text that is read back after a number does not run into it. -/
theorem not_runsInto_number (hx : IsWhole x) (hu : IsLegible u)
    (h : (scan ((Scalar.text x).toList ++ u.text.toList) == [number x, u]) = true) :
    runsInto (number x) u.text.toList = false := by
  obtain ⟨taken, left, hnext, hsame, hscan⟩ := scan_beq_cons_iff.1 h
  obtain ⟨y, hwhole⟩ := exists_next?_whole hx u.text.toList
  obtain ⟨hleft, hname, hpercent⟩ :=
    takeUnit_beq_number (Option.some.inj (hwhole.symm.trans hnext)) hsame
  rw [← hleft] at hname hpercent
  -- Neither digits nor a fraction nor an exponent are taken off, so all of the text is left.
  have hmagnitude := not_startsMagnitude_of_scan hu hleft hname hpercent hscan
  obtain ⟨hdigit, hfraction⟩ := takes_of_not_startsMagnitude hmagnitude
  have hdigits : Decimal.takeDigits u.text.toList = ([], u.text.toList) :=
    Decimal.takeDigits_append (List.forall_mem_nil _) hdigit
  rw [hdigits, hfraction] at hleft
  rw [hleft] at hscan
  rw [hleft, takeExponent_of_scan hu hscan] at hname hpercent
  rw [runsInto, hmagnitude, hname, beq_eq_false_iff_ne.2 hpercent]
  rfl

/-- A name does not run into a text in front of which it is still read as the same name. -/
theorem not_runsInto_ident {name : String} (h : IsWord name = true)
    (hscan : (scan (name.toList ++ text) == [ident name, u]) = true) :
    runsInto (ident name : Token K) text = false := by
  obtain ⟨taken, left, hnext, hsame, -⟩ := scan_beq_cons_iff.1 hscan
  rw [next?_of_isWord h, takeNamed, takeName_append_name (isNameChar_of_isWord h)] at hnext
  split at hnext
  · cases hnext
    cases hsame
  next chars left' hparen heq =>
  obtain ⟨rfl, -⟩ := Prod.mk.inj (Option.some.inj hnext)
  obtain ⟨hchars, hleft⟩ := Prod.mk.inj heq
  -- The name that is taken is no longer than the identifier, so nothing of the text belongs to it.
  have hempty : (takeName text).1 = [] := by
    have hname : chars = name.toList := by
      rw [← eq_of_beq (show (String.ofList chars == name) = true from hsame), String.toList_ofList]
    rw [hname] at hchars
    exact List.append_right_eq_self.1 hchars
  have hcontinues := continuesName_of_takeName hempty
  have hwhole : (takeName text).2 = text :=
    congrArg Prod.snd (takeName_append (List.forall_mem_nil _) hcontinues)
  have hhead : (text.head? == some '(') = false := by
    rw [beq_eq_false_iff_ne]
    intro hhead
    obtain ⟨tail, rfl⟩ := List.head?_eq_some_iff.1 hhead
    exact hparen tail (hleft.symm.trans hwhole)
  rw [runsInto, hcontinues, hhead]
  rfl

/-- If a value with a unit is read as one in front of another token, the unit does not run into that
token. -/
theorem not_runsInto_dimension {unit : String} (hx : IsWhole x) (hunit : IsPlainUnit unit)
    (hscan : (scan ((Scalar.text x).toList ++ (unit.toList ++ text)) ==
      [dimension x unit, u]) = true) :
    runsInto (dimension x unit) text = false := by
  obtain ⟨taken, left, hnext, hsame, -⟩ := scan_beq_cons_iff.1 hscan
  rw [next?_value hx (endsNumeral_of_isPlainUnit hunit _),
    takeUnit_of_startsName _ (startsName_of_isWord hunit.word _),
    takeName_append_name (isNameChar_of_isWord hunit.word)] at hnext
  obtain ⟨rfl, -⟩ := Prod.mk.inj (Option.some.inj hnext)
  have hname : (String.ofList (unit.toList ++ (takeName text).1)).toLower = unit :=
    eq_of_beq ((Bool.and_eq_true _ _).mp (show (_ == x && _ == unit) = true from hsame)).2
  -- The unit that is read is no longer than the one that is written.
  refine continuesName_of_takeName ?_
  have hlength := congrArg (fun name => name.toList.length) hname
  rw [String.toLower, String.toList_map, String.toList_ofList, List.length_map,
    List.length_append] at hlength
  exact List.eq_nil_of_length_eq_zero (by omega)

/-- A text of several characters starts with a character of names. -/
theorem IsLegible.exists_text_eq_cons (h : IsLegible u) :
    ∃ c tail, u.text.toList = c :: tail ∧ (isNameChar c = false → tail = []) := by
  rcases h.text_cases with ⟨name, tail, -, hword, htext⟩ | ⟨x, suffix, hx, htext, -, -⟩ |
    ⟨c, htext, -, -, -⟩
  · obtain ⟨c, tail', hname, hchars, -⟩ := exists_of_isWord hword
    refine ⟨c, tail' ++ tail, by rw [htext, hname, List.cons_append], fun hc => ?_⟩
    rw [hchars c List.mem_cons_self] at hc
    cases hc
  · obtain ⟨c, tail, hcons, hc⟩ := Token.exists_text_eq_cons hx.whole.le
    refine ⟨c, tail ++ suffix, ?_, fun hchar => ?_⟩
    · rw [htext, Scalar.text_eq_decimal_text hx.finite, hcons, List.cons_append]
    · rcases hc with hc | ⟨rfl, -⟩
      · rw [isNameChar, hc, Bool.or_true, Bool.true_or] at hchar
        cases hchar
      · cases hchar
  · exact ⟨c, [], htext, fun _ => rfl⟩

/-- If a blank is read in front of another token, that token does not start with a blank. -/
theorem not_runsInto_whitespace (hu : IsLegible u)
    (hscan : (scan (' ' :: u.text.toList) == [whitespace, u]) = true) :
    runsInto (whitespace : Token K) u.text.toList = false := by
  obtain ⟨taken, left, hnext, -, hleft⟩ := scan_beq_cons_iff.1 hscan
  rw [next?_blank] at hnext
  obtain ⟨c, tail, htext, htail⟩ := hu.exists_text_eq_cons
  show u.text.toList.head?.any isBlank = false
  rw [Bool.eq_false_iff]
  intro hblank
  rw [htext] at hnext hblank
  replace hblank : isBlank c = true := hblank
  have hchar : isNameChar c = false := by
    rw [Bool.eq_false_iff]
    intro hchar
    have hsolid := isBlank_of_not_mem_markers (not_mem_markers_of_isNameChar hchar)
    exact Bool.false_ne_true (hsolid.symm.trans hblank)
  -- The second blank would be taken with the first one, and nothing would be left.
  obtain ⟨-, rfl⟩ := Prod.mk.inj (Option.some.inj hnext)
  rw [htail hchar, List.dropWhile_cons_of_pos hblank, List.dropWhile_nil,
    scan_of_next?_none rfl] at hleft
  cases hleft

/-- If a sign is read in front of another token, it does not run into that token. -/
theorem not_runsInto_delim {c : Char} (hu : IsLegible u)
    (hscan : (scan (c :: u.text.toList) == [delim c, u]) = true) :
    runsInto (delim c : Token K) u.text.toList = false := by
  obtain ⟨taken, left, hnext, hsame, -⟩ := scan_beq_cons_iff.1 hscan
  have hcomment : (c == '/' && u.text.toList.head? == some '*') = false := by
    -- A comment would reach to the end, as the star is all of the text.
    rw [Bool.eq_false_iff]
    intro hcomment
    obtain ⟨hslash, hstar⟩ := (Bool.and_eq_true _ _).mp hcomment
    obtain rfl := eq_of_beq hslash
    obtain ⟨c, tail, htext, htail⟩ := hu.exists_text_eq_cons
    rw [htext] at hnext hstar
    obtain rfl : c = '*' := Option.some.inj (eq_of_beq hstar)
    rw [htail rfl] at hnext
    cases hnext
  rw [next?_of_not_comment hcomment] at hnext
  cases taken with
  | delim c' =>
    obtain ⟨-, -, -, hruns⟩ := takeAfter_eq_delim_iff.1 (Option.some.inj hnext)
    rw [runsInto, hcomment, hruns]
    rfl
  | _ => cases hsame

/-- Two legible tokens are read back from their texts if and only if the second one does not run
into the first. -/
theorem scan_pair_iff (ht : IsLegible t) (hu : IsLegible u) :
    (scan (textOf [t, u]).toList == [t, u]) = true ↔ runsInto t u.text.toList = false := by
  constructor
  · intro h
    have hplain := ht.plain
    rw [toList_textOf_cons, toList_textOf_cons] at h
    replace h : (scan (t.text.toList ++ (u.text.toList ++ [])) == [t, u]) = true := h
    rw [List.append_nil] at h
    -- Names, numerals, blanks and signs may run into what follows; the other tokens never do.
    cases t with
    | ident name => exact not_runsInto_ident hplain h
    | number x => exact not_runsInto_number hplain hu h
    | dimension x unit =>
      rw [toList_text_dimension, List.append_assoc] at h
      exact not_runsInto_dimension hplain.1 hplain.2 h
    | whitespace =>
      rw [toList_text_whitespace] at h
      exact not_runsInto_whitespace hu h
    | delim c =>
      rw [toList_text_delim] at h
      exact not_runsInto_delim hu h
    | _ => rfl
  · intro h
    refine scan_textOf ?_ (List.isChain_pair.2 h)
    rintro v hv
    rcases List.mem_pair.1 hv with rfl | rfl
    · exact ht
    · exact hu

end Pairs

end CssColor.Token
