import CssColor.Proofs.Token.Spelling

/-!
# Tokens that their texts are read as

The text of a plain token (`Token.IsPlain`) is read as the token again, unless the text after it
runs into it (`Token.runsInto`): it makes the token longer, or turns it into another one
(`Token.IsLegible.exists_next?`). Delimiters are read again as their characters start no other token
(`Token.IsSign`).
-/

namespace CssColor.Token

/-! ## Delimiters -/

/-- A character that starts no other token and so can be a delimiter. -/
structure IsSign (K : Type) (c : Char) : Prop where
  blank : isBlank c = false
  quote : c ≠ '"' ∧ c ≠ '\x27'
  digit : c.isDigit = false
  name : isNameStart c = false
  punctuation : (ofPunctuation? c : Option (Token K)) = none

/-- Whether a text runs into the character of a delimiter. -/
def runsIntoSign (c : Char) (text : List Char) : Bool :=
  c == '#' && continuesName text || c == '@' && startsName text
    || Decimal.startsNumeral (c :: text) || startsName (c :: text)

section Delimiters

variable {K : Type} [Number K] {c c' : Char} {text rest : List Char}

/-- A numeral starts with a digit. -/
theorem startsNumeral_of_isDigit (h : c.isDigit = true) :
    Decimal.startsNumeral (c :: text) = true := by
  rw [Decimal.startsNumeral, Decimal.takeSign_of_isDigit h]
  split
  · next heq =>
    rw [(List.cons.inj heq).1] at h
    cases h
  · exact h

/-- What is taken after a character: one case for each kind of token, with what it is read from. -/
inductive Taken (c : Char) (text : List Char) : Token K → List Char → Prop where
  | whitespace (hblank : isBlank c = true) : Taken c text .whitespace (text.dropWhile isBlank)
  | string {content rest : List Char} (hquote : (c == '"' || c == '\x27') = true)
      (htake : takeString c text = ((content, true), rest)) :
      Taken c text (.string (String.ofList content)) rest
  | badString {content rest : List Char} (hquote : (c == '"' || c == '\x27') = true)
      (htake : takeString c text = ((content, false), rest)) :
      Taken c text (.badString (String.ofList content)) rest
  | hash (hhash : c = '#') (hname : continuesName text = true) :
      Taken c text (.hash (String.ofList (takeName text).1)
        (if startsName text then .id else .unrestricted)) (takeName text).2
  | atKeyword (hat : c = '@') (hname : startsName text = true) :
      Taken c text (.atKeyword (String.ofList (takeName text).1)) (takeName text).2
  | number {d : Decimal} {rest : List Char} (hstart : Decimal.startsNumeral (c :: text) = true)
      (hscan : Decimal.scan (c :: text) = (d, rest)) (hname : startsName rest = false)
      (hpercent : ∀ after, rest ≠ '%' :: after) : Taken c text (.number d.toNumber) rest
  | percentage {d : Decimal} {rest : List Char}
      (hstart : Decimal.startsNumeral (c :: text) = true)
      (hscan : Decimal.scan (c :: text) = (d, '%' :: rest)) :
      Taken c text (.percentage d.toNumber) rest
  | dimension {d : Decimal} {rest : List Char}
      (hstart : Decimal.startsNumeral (c :: text) = true)
      (hscan : Decimal.scan (c :: text) = (d, rest)) (hname : startsName rest = true) :
      Taken c text (.dimension d.toNumber (String.ofList (takeName rest).1).toLower)
        (takeName rest).2
  | function {name rest : List Char} (hstart : startsName (c :: text) = true)
      (htake : takeName (c :: text) = (name, '(' :: rest)) :
      Taken c text (.function (String.ofList name)) rest
  | ident {name rest : List Char} (hstart : startsName (c :: text) = true)
      (htake : takeName (c :: text) = (name, rest)) (hparen : ∀ after, rest ≠ '(' :: after) :
      Taken c text (.ident (String.ofList name)) rest
  | punctuation {token : Token K} (htoken : ofPunctuation? c = some token) : Taken c text token text
  | delim (hsign : IsSign K c) (hruns : runsIntoSign c text = false) : Taken c text (.delim c) text

/-- What is taken off a text is one of the kinds of tokens, with what the earlier branches have
ruled out. Later proofs cite this instead of the branches. -/
theorem taken_of_takeAfter {token : Token K} (h : takeAfter c text = (token, rest)) :
    Taken c text token rest := by
  unfold takeAfter at h
  split at h
  · next hblank =>
    -- Blanks.
    cases h
    exact .whitespace hblank
  next hblank =>
  split at h
  · next hquote =>
    -- A string, whole or broken off.
    unfold takeQuoted at h
    split at h
    · next htake =>
      cases h
      exact .string hquote htake
    · next htake =>
      cases h
      exact .badString hquote htake
  next hquote =>
  split at h
  · next hhash =>
    -- A name behind a hash.
    cases h
    obtain ⟨hc, hname⟩ := (Bool.and_eq_true _ _).mp hhash
    exact .hash (eq_of_beq hc) hname
  next hhash =>
  split at h
  · next hat =>
    -- A name behind an at sign.
    cases h
    obtain ⟨hc, hname⟩ := (Bool.and_eq_true _ _).mp hat
    exact .atKeyword (eq_of_beq hc) hname
  next hat =>
  split at h
  · next hstart =>
    -- A number, with a unit, a percent sign or neither.
    unfold takeNumeric at h
    dsimp only at h
    split at h
    · next hname =>
      cases h
      exact .dimension hstart rfl hname
    next hname =>
    split at h
    · next hrest =>
      cases h
      exact .percentage hstart (Prod.ext rfl hrest)
    · next hpercent =>
      cases h
      exact .number hstart rfl (Bool.eq_false_of_not_eq_true hname) hpercent
  next hnumeral =>
  split at h
  · next hstart =>
    -- A name, of a function or not.
    unfold takeNamed at h
    split at h
    · next htake =>
      cases h
      exact .function hstart htake
    · next hparen htake =>
      cases h
      exact .ident hstart htake hparen
  next hname =>
  -- Any other character is a sign of its own: it starts none of the above.
  obtain ⟨rfl, rfl⟩ := Prod.mk.inj h
  cases hpunctuation : (ofPunctuation? c : Option (Token K)) with
  | some token => exact .punctuation hpunctuation
  | none =>
    rw [Bool.not_eq_true] at hblank hquote hhash hat hnumeral hname
    rw [Bool.or_eq_false_iff, beq_eq_false_iff_ne, beq_eq_false_iff_ne] at hquote
    have hdigit : c.isDigit = false := by
      rw [Bool.eq_false_iff]
      intro hdigit
      rw [startsNumeral_of_isDigit hdigit] at hnumeral
      cases hnumeral
    have hstart : isNameStart c = false := by
      rw [Bool.eq_false_iff]
      intro hstart
      rw [startsName_of_isNameStart hstart] at hname
      cases hname
    refine .delim ⟨hblank, hquote, hdigit, hstart, hpunctuation⟩ ?_
    rw [runsIntoSign, hhash, hat, hnumeral, hname]
    rfl

/-- A delimiter is taken exactly where its character starts no other token and the text does not run
into it. -/
theorem takeAfter_eq_delim_iff : takeAfter c text = ((delim c', rest) : Token K × List Char) ↔
    c' = c ∧ rest = text ∧ IsSign K c ∧ runsIntoSign c text = false := by
  constructor
  · intro h
    cases taken_of_takeAfter h with
    -- Punctuation has tokens of its own, which are no delimiters.
    | punctuation htoken =>
      unfold ofPunctuation? at htoken
      split at htoken <;> cases htoken
    | delim hsign hruns => exact ⟨rfl, rfl, hsign, hruns⟩
  · rintro ⟨rfl, rfl, hsign, hruns⟩
    simp only [runsIntoSign, Bool.or_eq_false_iff] at hruns
    obtain ⟨⟨⟨hhash, hat⟩, hnumeral⟩, hname⟩ := hruns
    unfold takeAfter
    rw [hsign.blank, beq_eq_false_iff_ne.2 hsign.quote.1, beq_eq_false_iff_ne.2 hsign.quote.2,
      hhash, hat, hnumeral, hname, hsign.punctuation]
    rfl

/-- Delimiters are among the tokens of a text only as signs. -/
theorem isSign_of_mem_scan (h : (delim c : Token K) ∈ scan text) : IsSign K c := by
  induction text using scan.induct (K := K) with
  | case1 text hnone =>
    rw [scan_of_next?_none hnone] at h
    cases h
  | case2 text token rest hsome ih =>
    rw [scan_of_next?_some hsome] at h
    rcases List.mem_cons.1 h with rfl | h
    · unfold next? at hsome
      split at hsome
      · cases hsome
      · obtain ⟨rfl, -, hsign, -⟩ := takeAfter_eq_delim_iff.1 (Option.some.inj hsome)
        exact hsign
    · exact ih h

/-- A hash is a token with the name behind it, or a sign without one. -/
theorem takeAfter_hash (rest : List Char) : (takeAfter '#' rest : Token K × List Char) =
    (if continuesName rest then
      hash (String.ofList (takeName rest).1)
        (if startsName rest then .id else .unrestricted)
      else delim '#',
    if continuesName rest then (takeName rest).2 else rest) := by
  have hnumeral : Decimal.startsNumeral ('#' :: rest) = false := rfl
  have hname : startsName ('#' :: rest) = false := rfl
  rw [takeAfter, if_neg (by decide), if_neg (by decide), beq_self_eq_true, Bool.true_and]
  split
  · rfl
  · rw [hnumeral, hname]
    rfl

/-- An at sign is a token with the name behind it, or a sign without one. -/
theorem takeAfter_at (rest : List Char) : (takeAfter '@' rest : Token K × List Char) =
    if startsName rest then
      (atKeyword (String.ofList (takeName rest).1), (takeName rest).2)
    else (delim '@', rest) := by
  have hnumeral : Decimal.startsNumeral ('@' :: rest) = false := rfl
  have hname : startsName ('@' :: rest) = false := rfl
  have hhash : ('@' == '#') = false := by decide
  rw [takeAfter, if_neg (by decide), if_neg (by decide), hhash, Bool.false_and,
    if_neg Bool.false_ne_true, beq_self_eq_true, Bool.true_and, hnumeral, hname]
  rfl

/-- Punctuation is a token of a single character. -/
theorem takeAfter_of_ofPunctuation? {token : Token K} (h : ofPunctuation? c = some token)
    (rest : List Char) : (takeAfter c rest : Token K × List Char) = (token, rest) := by
  unfold ofPunctuation? at h
  split at h
  all_goals cases h
  all_goals rfl

/-- Any other character starts a numeral or a name, or is a delimiter. -/
theorem takeAfter_of_ne (hblank : ¬ isBlank c = true)
    (hquote : ¬ (c == '"' || c == '\x27') = true) (hhash : c ≠ '#') (hat : c ≠ '@')
    (hpunctuation : (ofPunctuation? c : Option (Token K)) = none) (rest : List Char) :
    (takeAfter c rest : Token K × List Char) =
      if Decimal.startsNumeral (c :: rest) then takeNumeric (c :: rest)
      else if startsName (c :: rest) then takeNamed (c :: rest) else (delim c, rest) := by
  rw [takeAfter, if_neg hblank, if_neg hquote, beq_eq_false_iff_ne.2 hhash, Bool.false_and,
    if_neg Bool.false_ne_true, beq_eq_false_iff_ne.2 hat, Bool.false_and,
    if_neg Bool.false_ne_true, hpunctuation, Option.getD_none]

end Delimiters

/-! ## Names -/

section Names

variable {K : Type} [Number K] {c : Char} {name : String} {text rest : List Char}

/-- A text goes on with the name in front of it by the name that it starts with. -/
theorem takeName_append_name {chars : List Char} (h : ∀ c ∈ chars, isNameChar c = true)
    (text : List Char) :
    takeName (chars ++ text) = (chars ++ (takeName text).1, (takeName text).2) := by
  induction chars with
  | nil => rfl
  | cons c chars ih =>
    rw [List.cons_append, takeName_of_isNameChar (h c List.mem_cons_self),
      ih fun c' hc' => h c' (List.mem_cons_of_mem _ hc')]
    rfl

/-- If no name is taken, none goes on. -/
theorem continuesName_of_takeName (h : (takeName text).1 = []) : continuesName text = false := by
  cases text with
  | nil => rfl
  | cons c text =>
    by_cases hchar : isNameChar c = true
    · rw [takeName_of_isNameChar hchar] at h
      cases h
    · rw [Bool.not_eq_true] at hchar
      rw [continuesName, hchar, Bool.false_or, Bool.eq_false_iff]
      -- An escape would be taken.
      intro hescape
      have hback : (c == '\\' && isEscapeTail text) = true := by
        unfold startsEscape at hescape
        split at hescape
        · next heq =>
          obtain ⟨rfl, rfl⟩ := List.cons.inj heq
          rw [hescape]
          rfl
        · cases hescape
      rw [takeName_of_startsEscape hchar hback] at h
      cases h

/-- A name is no longer than the text that it is taken off. -/
theorem length_takeName_le (text : List Char) :
    (takeName text).1.length + (takeName text).2.length ≤ text.length := by
  induction text using takeName.induct with
  | case1 =>
    rw [takeName]
    exact le_rfl
  | case2 c rest hchar _ _ _ ih =>
    rw [takeName_of_isNameChar hchar]
    simp only [List.length_cons]
    omega
  | case3 c rest hchar hescape escape _ _ _ ih =>
    -- An escape takes at least as many characters as it writes.
    have hle := takeEscape_length_le rest
    replace ih : (takeName (takeEscape rest).2).1.length + (takeName (takeEscape rest).2).2.length ≤
      (takeEscape rest).2.length := ih
    rw [takeName_of_startsEscape (Bool.eq_false_of_not_eq_true hchar) hescape]
    simp only [List.length_cons]
    omega
  | case4 c rest hchar hescape =>
    rw [takeName_of_not_starts (Bool.eq_false_of_not_eq_true hchar)
      (Bool.eq_false_of_not_eq_true hescape)]
    simp

/-- Only names are taken as identifiers and functions. -/
theorem takeAfter_eq_takeNamed {token : Token K} (h : takeAfter c text = (token, rest))
    (hname : token = ident name ∨ token = function name) :
    takeNamed (c :: text) = (token, rest) := by
  cases taken_of_takeAfter h with
  | function _ htake =>
    unfold takeNamed
    rw [htake]
    rfl
  | ident _ htake hparen =>
    unfold takeNamed
    rw [htake]
    split
    · next heq => exact absurd (Prod.mk.inj heq).2 (hparen _)
    · next heq =>
      obtain ⟨rfl, rfl⟩ := Prod.mk.inj heq
      rfl
  | punctuation htoken =>
    -- Punctuation is no name.
    unfold ofPunctuation? at htoken
    split at htoken <;> rcases hname with rfl | rfl <;> cases htoken
  | _ => rcases hname with heq | heq <;> cases heq

end Names

section Words

variable {K : Type} [Scalar K] {name : String} {text rest : List Char}

/-- The text of a name is no longer than the text that it is taken off. -/
theorem length_text_le_of_next? {token : Token K} (h : next? text = some (token, rest))
    (hname : token = ident name ∨ token = function name) :
    token.text.toList.length ≤ text.length := by
  have hskip := skipComments_length_le text
  unfold next? at h
  split at h
  · cases h
  next c after heq =>
  have hle := length_takeName_le (c :: after)
  have hnamed := takeAfter_eq_takeNamed (Option.some.inj h) hname
  rw [heq] at hskip
  unfold takeNamed at hnamed
  split at hnamed
  · next chars left htake =>
    -- The text of a function has the parenthesis as well.
    rcases hname with rfl | rfl
    · cases hnamed
    · obtain ⟨hchars, -⟩ := Prod.mk.inj hnamed
      rw [htake] at hle
      simp only [List.length_cons] at hle hskip
      have htext : ((function name : Token K).text).toList.length = chars.length + 1 := by
        rw [← Token.function.inj hchars]
        show (String.ofList chars ++ "(").toList.length = _
        rw [String.toList_append, String.toList_ofList, List.length_append]
        rfl
      omega
  · next chars left _ htake =>
    rcases hname with rfl | rfl
    · obtain ⟨hchars, -⟩ := Prod.mk.inj hnamed
      rw [htake] at hle
      dsimp only at hle
      have htext : ((ident name : Token K).text).toList.length = chars.length := by
        rw [← Token.ident.inj hchars]
        show (String.ofList chars).toList.length = _
        rw [String.toList_ofList]
      omega
    · cases hnamed

end Words

/-! ## Plain tokens -/

/-- A unit that is a name without escapes, in lower case, and no exponent. -/
structure IsPlainUnit (unit : String) : Prop where
  word : IsWord unit = true
  lower : unit.toLower = unit
  first : unit.toList.head? ≠ some 'e'

/-- Whether a token is a name without escapes, a numeric value of some kind with a plain unit, a
comma, a parenthesis, a delimiter other than a backslash, or blank. -/
def IsPlain {K : Type} (IsValue : K → Prop) : Token K → Prop
  | ident name | function name => IsWord name = true
  | number value | percentage value => IsValue value
  | dimension value unit => IsValue value ∧ IsPlainUnit unit
  | comma | openParen | closeParen | whitespace => True
  | delim c => c ≠ '\\'
  | _ => False

/-- A token is plain under any weaker condition on its number. -/
theorem IsPlain.mono {K : Type} {P Q : K → Prop} {token : Token K} (h : token.IsPlain P)
    (hvalue : ∀ x, P x → Q x) : token.IsPlain Q := by
  cases token with
  | number x | percentage x => exact hvalue x h
  | dimension x unit => exact ⟨hvalue x h.1, h.2⟩
  | _ => exact h

/-- Whether a text starts with a numeral without a sign. -/
def startsMagnitude : List Char → Bool
  | '.' :: rest => Decimal.startsWithDigit rest
  | text => Decimal.startsWithDigit text

/-- Whether a text runs into the token in front of it. -/
def runsInto {K : Type} : Token K → List Char → Bool
  | ident _, text => continuesName text || text.head? == some '('
  | number _, text => startsMagnitude text || startsName text || text.head? == some '%'
  | dimension _ _, text => continuesName text
  | whitespace, text => text.head?.any isBlank
  | delim c, text => c == '/' && text.head? == some '*' || runsIntoSign c text
  | _, _ => false

section Numerals

open Decimal

variable {unit : String} {text rest : List Char}

/-- Without a letter, there is no exponent. -/
theorem takeExponent_of_not_isNameStart {c : Char} (h : isNameStart c = false) (rest : List Char) :
    takeExponent (c :: rest) = (0, c :: rest) := by
  have hletter : ∀ letter, isNameStart letter = true → (c == letter) = false := by
    intro letter hletter
    rw [beq_eq_false_iff_ne]
    rintro rfl
    rw [h] at hletter
    cases hletter
  rw [takeExponent]
  dsimp only
  rw [hletter 'e' rfl, hletter 'E' rfl]
  rfl

/-- Without a point in front, a magnitude starts with a digit. -/
theorem startsMagnitude_of_ne {c : Char} (h : c ≠ '.') (rest : List Char) :
    startsMagnitude (c :: rest) = c.isDigit := by
  rw [startsMagnitude]
  · rfl
  · rintro rest' heq
    exact h (List.cons.inj heq).1

/-- A text that starts with no magnitude gives neither a whole part nor a fraction. -/
theorem takes_of_not_startsMagnitude (h : startsMagnitude text = false) :
    startsWithDigit text = false ∧ takeFraction text = ([], text) := by
  cases text with
  | nil => exact ⟨rfl, rfl⟩
  | cons c rest =>
    by_cases hpoint : c = '.'
    · -- Behind the point there is no digit.
      subst hpoint
      have hrest : startsWithDigit rest = false := h
      refine ⟨rfl, ?_⟩
      rw [takeFraction, if_neg]
      rw [hrest]
      exact Bool.false_ne_true
    · rw [startsMagnitude_of_ne hpoint] at h
      refine ⟨h, ?_⟩
      rw [takeFraction]
      rintro rest' heq
      exact hpoint (List.cons.inj heq).1

/-- No exponent is taken where no name starts, since its letter would start one. -/
theorem takeExponent_of_not_startsName (h : startsName text = false) :
    takeExponent text = (0, text) := by
  cases text with
  | nil => rfl
  | cons c text =>
    refine takeExponent_of_not_isNameStart ?_ text
    rw [Bool.eq_false_iff]
    intro hstart
    rw [startsName_of_isNameStart hstart] at h
    cases h

/-- A number that does not run into the text behind it ends there as a numeral, and gets neither a
unit nor a percent sign. -/
theorem endsNumeral_of_not_runsInto {K : Type} {x : K} (h : runsInto (number x) text = false) :
    EndsNumeral text ∧ startsName text = false ∧ text.head? ≠ some '%' := by
  simp only [runsInto, Bool.or_eq_false_iff, beq_eq_false_iff_ne] at h
  obtain ⟨⟨hmagnitude, hname⟩, hpercent⟩ := h
  obtain ⟨hdigit, hfraction⟩ := takes_of_not_startsMagnitude hmagnitude
  exact ⟨⟨hdigit, hfraction, takeExponent_of_not_startsName hname⟩, hname, hpercent⟩

/-- A numeral ends in front of a plain unit: it is in lower case and does not start with an `e`. -/
theorem endsNumeral_of_isPlainUnit (h : IsPlainUnit unit) (rest : List Char) :
    EndsNumeral (unit.toList ++ rest) := by
  have hdigit := not_isDigit_of_isWord h.word rest
  have hfirst := h.first
  have hlower : ∀ c ∈ unit.toList, c.toLower = c := by
    have hchars : unit.toList.map Char.toLower = unit.toList := by
      conv_rhs => rw [← h.lower]
      exact String.toList_map.symm
    exact List.map_inj_left.1 (hchars.trans (List.map_id _).symm)
  obtain ⟨c, tail, hname, hchars, -⟩ := exists_of_isWord h.word
  rw [hname] at hdigit hfirst hlower ⊢
  -- No unit starts with a point or with the letter of an exponent.
  have hpoint : c ≠ '.' := ne_of_isNameChar (hchars c List.mem_cons_self) _ rfl
  have hsmall : c ≠ 'e' := fun heq => hfirst (congrArg some heq)
  have hlarge : c ≠ 'E' := by
    rintro rfl
    exact absurd (hlower 'E' List.mem_cons_self) (by decide)
  refine ⟨hdigit, ?_, ?_⟩
  · rw [List.cons_append, takeFraction]
    rintro rest' heq
    exact hpoint (List.cons.inj heq).1
  · rw [List.cons_append, takeExponent]
    dsimp only
    rw [beq_eq_false_iff_ne.2 hsmall, beq_eq_false_iff_ne.2 hlarge]
    rfl

/-- A numeral starts with a digit, or with a sign and a digit. -/
theorem exists_text_eq_cons {d : Decimal} (h : d.exponent ≤ 0) :
    ∃ c tail, d.text.toList = c :: tail ∧
      (c.isDigit = true ∨ c = '-' ∧ ∃ c' tail', tail = c' :: tail' ∧ c'.isDigit = true) := by
  obtain ⟨c, tail, htext, hc⟩ := exists_magnitudeText_eq_cons h
  unfold Decimal.text
  split
  · rw [String.toList_append, htext]
    exact ⟨'-', _, rfl, .inr ⟨rfl, c, tail, rfl, hc⟩⟩
  · exact ⟨c, tail, htext, .inl hc⟩

end Numerals

section Units

variable {K : Type} {x : K} {text : List Char}

/-- The numeric token of a number in front of a text that may start with a unit. -/
def takeUnit (x : K) (text : List Char) : Token K × List Char :=
  if startsName text then
    (dimension x (String.ofList (takeName text).1).toLower, (takeName text).2)
  else
    match text with
    | '%' :: rest => (percentage x, rest)
    | _ => (number x, text)

/-- A name behind a number is its unit. -/
theorem takeUnit_of_startsName (x : K) (h : startsName text = true) :
    takeUnit x text = (dimension x (String.ofList (takeName text).1).toLower, (takeName text).2) :=
  if_pos h

/-- A number with neither a name nor a percent sign behind it. -/
theorem takeUnit_of_not (hname : startsName text = false)
    (hpercent : text.head? ≠ some '%') : takeUnit x text = (number x, text) := by
  unfold takeUnit
  rw [hname, if_neg Bool.false_ne_true]
  split
  · exact absurd rfl hpercent
  · rfl

end Units

section Legible

variable {K : Type} [Scalar K]

/-- A number that is written as a whole number and read back as an equal number. -/
structure IsWhole (x : K) : Prop where
  finite : Scalar.isFinite x = true
  same : (Scalar.printed x == x) = true
  whole : (Scalar.decimal x).exponent = 0

/-- A token that its own text is read as. -/
structure IsLegible (token : Token K) : Prop where
  plain : token.IsPlain IsWhole
  sign : ∀ c, token = delim c → IsSign K c

variable {x : K} {token : Token K} {rest : List Char}

/-- A numeral is taken off a text that does not go on with it. -/
theorem next?_value (hx : IsWhole x) (hrest : Decimal.EndsNumeral rest) :
    next? ((Scalar.text x).toList ++ rest) = some (takeUnit (Scalar.printed x) rest) := by
  have hexponent : (Scalar.decimal x).exponent ≤ 0 := hx.whole.le
  rw [Scalar.text_eq_decimal_text hx.finite,
    next?_of_startsNumeral (Decimal.startsNumeral_text hexponent rest), takeNumeric,
    Decimal.scan_text hexponent hrest]
  rfl

/-- The text of a function is its name and a parenthesis. -/
theorem toList_text_function (name : String) :
    (function name : Token K).text.toList = name.toList ++ ['('] := by
  show (name ++ "(").toList = _
  rw [String.toList_append]
  rfl

/-- The text of a percentage is that of its number and the percent sign. -/
theorem toList_text_percentage (x : K) :
    (percentage x).text.toList = (Scalar.text x).toList ++ ['%'] := by
  show (Scalar.text x ++ "%").toList = _
  rw [String.toList_append]
  rfl

/-- The text of a number with a unit is that of the number and the unit. -/
theorem toList_text_dimension (x : K) (unit : String) :
    (dimension x unit).text.toList = (Scalar.text x).toList ++ unit.toList :=
  String.toList_append

/-- The text of a comma. -/
theorem toList_text_comma : (comma : Token K).text.toList = [','] := by
  show ",".toList = [',']
  rfl

/-- The text of an opening parenthesis. -/
theorem toList_text_openParen : (openParen : Token K).text.toList = ['('] := by
  show "(".toList = ['(']
  rfl

/-- The text of a closing parenthesis. -/
theorem toList_text_closeParen : (closeParen : Token K).text.toList = [')'] := by
  show ")".toList = [')']
  rfl

/-- The text of a blank. -/
theorem toList_text_whitespace : (whitespace : Token K).text.toList = [' '] := by
  show " ".toList = [' ']
  rfl

/-- The text of a delimiter is its character. -/
theorem toList_text_delim (c : Char) : (delim c : Token K).text.toList = [c] :=
  String.toList_singleton c

/-- All blanks in front are taken as one. -/
theorem next?_blank (rest : List Char) :
    next? (' ' :: rest) = some ((whitespace : Token K), rest.dropWhile isBlank) := rfl

/-- Where no comment starts, the first character starts a token. -/
theorem next?_of_not_comment {c : Char} (h : (c == '/' && rest.head? == some '*') = false) :
    next? (c :: rest) = some (takeAfter c rest : Token K × List Char) := by
  have hskip : skipComments (c :: rest) = c :: rest := by
    rw [skipComments]
    rintro rest' heq
    obtain ⟨rfl, rfl⟩ := List.cons.inj heq
    cases h
  unfold next?
  rw [hskip]

/-- A legible token is taken off a text that does not run into it, up to an equal number. -/
theorem IsLegible.exists_next? (h : IsLegible token) (hrest : runsInto token rest = false) :
    ∃ taken, next? (token.text.toList ++ rest) = some (taken, rest) ∧ (taken == token) = true := by
  have hplain := h.plain
  cases token with
  | ident name =>
    have hword : IsWord name = true := hplain
    -- What follows neither goes on with the name nor makes it a function.
    simp only [runsInto, Bool.or_eq_false_iff, beq_eq_false_iff_ne] at hrest
    refine ⟨ident name, ?_, beq_self_eq_true name⟩
    show next? (name.toList ++ rest) = _
    rw [next?_of_isWord hword, takeNamed, takeName_of_isWord hword hrest.1]
    split
    · next heq =>
      obtain ⟨-, rfl⟩ := Prod.mk.inj heq
      exact absurd rfl hrest.2
    · next heq =>
      obtain ⟨rfl, rfl⟩ := Prod.mk.inj heq
      rw [String.ofList_toList]
  | function name =>
    have hword : IsWord name = true := hplain
    refine ⟨function name, ?_, beq_self_eq_true name⟩
    rw [toList_text_function, List.append_assoc, next?_of_isWord hword, takeNamed,
      takeName_of_isWord hword rfl]
    exact congrArg (fun name => some (function name, rest)) String.ofList_toList
  | number x =>
    have hx : IsWhole x := hplain
    obtain ⟨hnumeral, hname, hpercent⟩ := endsNumeral_of_not_runsInto hrest
    refine ⟨number (Scalar.printed x), ?_, hx.same⟩
    show next? ((Scalar.text x).toList ++ rest) = _
    rw [next?_value hx hnumeral, takeUnit_of_not hname hpercent]
  | percentage x =>
    have hx : IsWhole x := hplain
    refine ⟨percentage (Scalar.printed x), ?_, hx.same⟩
    rw [toList_text_percentage, List.append_assoc]
    exact next?_value hx (endsNumeral_percent rest)
  | dimension x unit =>
    -- The unit is no exponent, so the numeral ends in front of it.
    obtain ⟨hx, hunit⟩ : IsWhole x ∧ IsPlainUnit unit := hplain
    refine ⟨dimension (Scalar.printed x) unit, ?_, ?_⟩
    · rw [toList_text_dimension, List.append_assoc,
        next?_value hx (endsNumeral_of_isPlainUnit hunit _),
        takeUnit_of_startsName _ (startsName_of_isWord hunit.word _),
        takeName_of_isWord hunit.word hrest, String.ofList_toList, hunit.lower]
    · show (Scalar.printed x == x && unit == unit) = true
      rw [hx.same, beq_self_eq_true]
      rfl
  | comma =>
    refine ⟨comma, ?_, rfl⟩
    rw [toList_text_comma]
    rfl
  | openParen =>
    refine ⟨openParen, ?_, rfl⟩
    rw [toList_text_openParen]
    rfl
  | closeParen =>
    refine ⟨closeParen, ?_, rfl⟩
    rw [toList_text_closeParen]
    rfl
  | whitespace =>
    refine ⟨whitespace, ?_, rfl⟩
    rw [toList_text_whitespace, List.singleton_append, next?_blank]
    cases rest with
    | nil => rfl
    | cons c rest =>
      -- What follows is not a blank, so only this one is taken.
      have hblank : isBlank c = false := hrest
      rw [List.dropWhile_cons_of_neg (by rw [hblank]; exact Bool.false_ne_true)]
  | delim c =>
    -- The sign does not run into what follows.
    have hsign := h.sign c rfl
    simp only [runsInto, Bool.or_eq_false_iff] at hrest
    obtain ⟨hcomment, hruns⟩ := hrest
    refine ⟨delim c, ?_, beq_self_eq_true c⟩
    rw [toList_text_delim, List.singleton_append, next?_of_not_comment hcomment,
      takeAfter_eq_delim_iff.2 ⟨rfl, rfl, hsign, hruns⟩]
  | _ => cases hplain

end Legible

end CssColor.Token
