import CssColor.Proofs.Number.Numeral
import CssColor.Proofs.Number.Printing
import CssColor.Proofs.Token.LetterCase
import CssColor.Proofs.Token.Reading
import Mathlib.Tactic.IntervalCases

/-!
# Texts that spell tokens

`Token.Spells` relates a text to the tokens that it is split into, whatever text follows, as long as
that does not run into it. Words have to be followed by the end of a word (`Token.EndsWord`), and
blanks by something solid (`Token.IsSolid`). Texts that spell tokens are put together by
`Token.Spells.append`, from names, signs and the texts of numbers.
-/

namespace CssColor.Token

/-! ## What follows a text -/

/-- Whether a text starts with something that is neither a blank nor a comment. -/
def IsSolid : List Char → Bool
  | c :: _ => !isBlank c && c != '/'
  | [] => false

/-- Whether a text ends the word in front of it. -/
def EndsWord : List Char → Bool
  | c :: _ => c == ' ' || c == ')' || c == ','
  | [] => true

/-- A text is solid if its front part is. -/
theorem isSolid_append {text : List Char} (h : IsSolid text = true) (rest : List Char) :
    IsSolid (text ++ rest) = true := by
  cases text with
  | nil => cases h
  | cons c text => exact h

/-- What ends a word is the end of the text, a blank, a parenthesis or a comma. -/
theorem eq_cons_of_endsWord {rest : List Char} (h : EndsWord rest = true) :
    rest = [] ∨ ∃ c rest', rest = c :: rest' ∧ (c = ' ' ∨ c = ')' ∨ c = ',') := by
  cases rest with
  | nil => exact .inl rfl
  | cons c rest =>
    simp only [EndsWord, Bool.or_eq_true, beq_iff_eq, or_assoc] at h
    exact .inr ⟨c, rest, rfl, h⟩

/-- No name goes on where a word ends. -/
theorem continuesName_of_endsWord {rest : List Char} (h : EndsWord rest = true) :
    continuesName rest = false := by
  rcases eq_cons_of_endsWord h with rfl | ⟨c, rest, rfl, rfl | rfl | rfl⟩ <;> rfl

/-- No name starts where a word ends. -/
theorem startsName_of_endsWord {rest : List Char} (h : EndsWord rest = true) :
    startsName rest = false := by
  rcases eq_cons_of_endsWord h with rfl | ⟨c, rest, rfl, rfl | rfl | rfl⟩ <;> rfl

/-- No numeral goes on where a word ends. -/
theorem endsNumeral_of_endsWord {rest : List Char} (h : EndsWord rest = true) :
    Decimal.EndsNumeral rest := by
  rcases eq_cons_of_endsWord h with rfl | ⟨c, rest, rfl, rfl | rfl | rfl⟩ <;>
    exact ⟨rfl, rfl, rfl⟩

/-- No numeral goes on at a percent sign. -/
theorem endsNumeral_percent (rest : List Char) : Decimal.EndsNumeral ('%' :: rest) :=
  ⟨rfl, rfl, rfl⟩

/-! ## Names without escapes -/

/-- Whether a text is a name without escapes. -/
def IsWord (name : String) : Bool := startsName name.toList && name.toList.all isNameChar

/-- No name starts with a digit. -/
theorem not_isDigit_of_isNameStart {c : Char} (h : isNameStart c = true) : c.isDigit = false := by
  rw [Bool.eq_false_iff]
  intro hdigit
  have hbounds : 48 ≤ c.toNat ∧ c.toNat ≤ 57 := by
    rw [Char.isDigit, Bool.and_eq_true, decide_eq_true_iff, decide_eq_true_iff, ge_iff_le,
      UInt32.le_iff_toNat_le, UInt32.le_iff_toNat_le] at hdigit
    exact hdigit
  rw [← Char.ofNat_toNat c] at h
  obtain ⟨hlow, hhigh⟩ := hbounds
  generalize c.toNat = n at h hlow hhigh
  interval_cases n <;> revert h <;> decide

/-- A character of names differs from a sign that is none. -/
theorem ne_of_isNameChar {c : Char} (h : isNameChar c = true) (sign : Char)
    (hsign : isNameChar sign = false) : c ≠ sign := by
  rintro rfl
  rw [h] at hsign
  cases hsign

/-- A character that starts names differs from a sign that starts none. -/
theorem ne_of_isNameStart {c : Char} (h : isNameStart c = true) (sign : Char)
    (hsign : isNameStart sign = false) : c ≠ sign := by
  rintro rfl
  rw [h] at hsign
  cases hsign

/-- Without a dash or a backslash in front, the first character tells whether a name starts. -/
theorem startsName_of_ne {c : Char} (hdash : c ≠ '-') (hback : c ≠ '\\') (rest : List Char) :
    startsName (c :: rest) = isNameStart c :=
  startsName.eq_5 _ _ (fun _ h => absurd h hdash) (fun _ h => absurd h hdash)
    (fun _ _ h => absurd h hdash) hback

/-- A name without escapes starts with a letter, or with a dash and a letter or another dash. -/
theorem exists_of_isWord {name : String} (h : IsWord name = true) :
    ∃ c tail, name.toList = c :: tail ∧ (∀ c' ∈ c :: tail, isNameChar c' = true) ∧
      (isNameStart c = true ∨
        c = '-' ∧ ∃ c' tail', tail = c' :: tail' ∧ (isNameStart c' = true ∨ c' = '-')) := by
  rw [IsWord, Bool.and_eq_true, List.all_eq_true] at h
  obtain ⟨hstart, hchars⟩ := h
  cases htext : name.toList with
  | nil =>
    rw [htext] at hstart
    cases hstart
  | cons c tail =>
    rw [htext] at hstart hchars
    -- A word has no escapes, so names start without one.
    have hescape : ∀ c' ∈ c :: tail, c' ≠ '\\' := by
      rintro c' hc' rfl
      cases hchars _ hc'
    refine ⟨c, tail, rfl, hchars, ?_⟩
    by_cases hdash : c = '-'
    · -- Behind a dash, the second character counts.
      subst hdash
      cases tail with
      | nil => cases hstart
      | cons c' tail' =>
        refine .inr ⟨rfl, c', tail', rfl, ?_⟩
        by_cases hdash' : c' = '-'
        · exact .inr hdash'
        · rw [startsName.eq_3 _ _ hdash' (hescape c' (by simp))] at hstart
          exact .inl hstart
    · rw [startsName_of_ne hdash (hescape c List.mem_cons_self)] at hstart
      exact .inl hstart

/-- A name ends where a text does not go on with it. -/
theorem takeName_append {name rest : List Char} (hname : ∀ c ∈ name, isNameChar c = true)
    (hrest : continuesName rest = false) : takeName (name ++ rest) = (name, rest) := by
  induction name with
  | nil =>
    -- The name is over, and what follows it does not go on with it.
    cases rest with
    | nil => rw [List.nil_append, takeName]
    | cons c rest =>
      rw [continuesName, Bool.or_eq_false_iff] at hrest
      obtain ⟨hchar, hescape⟩ := hrest
      refine takeName_of_not_starts hchar ?_
      rw [Bool.eq_false_iff]
      intro h
      obtain ⟨hback, htail⟩ := (Bool.and_eq_true _ _).mp h
      rw [beq_iff_eq.1 hback] at hescape
      exact Bool.false_ne_true (hescape.symm.trans htail)
  | cons c name ih =>
    rw [List.cons_append, takeName_of_isNameChar (hname c List.mem_cons_self),
      ih fun c' hc' => hname c' (List.mem_cons_of_mem _ hc')]

/-- A word is read as a name up to where no name goes on. -/
theorem takeName_of_isWord {name : String} (h : IsWord name = true) {rest : List Char}
    (hrest : continuesName rest = false) : takeName (name.toList ++ rest) = (name.toList, rest) := by
  obtain ⟨c, tail, hname, hchars, -⟩ := exists_of_isWord h
  rw [hname]
  exact takeName_append hchars hrest

/-- A character that starts names starts one whatever follows it. -/
theorem startsName_of_isNameStart {c : Char} (h : isNameStart c = true) (rest : List Char) :
    startsName (c :: rest) = true := by
  rw [startsName_of_ne (ne_of_isNameStart h _ rfl) (ne_of_isNameStart h _ rfl)]
  exact h

/-- A dash starts a name if a further dash or a character that starts names follows. -/
theorem startsName_dash {c : Char} (h : isNameStart c = true ∨ c = '-') (rest : List Char) :
    startsName ('-' :: c :: rest) = true := by
  rcases h with h | rfl
  · rw [startsName.eq_3 _ _ (ne_of_isNameStart h _ rfl) (ne_of_isNameStart h _ rfl)]
    exact h
  · rfl

/-- A name starts where a word does. -/
theorem startsName_of_isWord {name : String} (h : IsWord name = true) (rest : List Char) :
    startsName (name.toList ++ rest) = true := by
  obtain ⟨c, tail, hname, -, hc | ⟨rfl, c', tail', rfl, hc'⟩⟩ := exists_of_isWord h
  · rw [hname]
    exact startsName_of_isNameStart hc _
  · rw [hname]
    exact startsName_dash hc' _

/-- No numeral starts where a name goes on after the sign. -/
theorem not_startsNumeral_of_takeSign {c : Char} {text afterSign : List Char} {negative : Bool}
    (hsign : Decimal.takeSign text = (negative, c :: afterSign))
    (hc : isNameStart c = true ∨ c = '-') : Decimal.startsNumeral text = false := by
  have hpoint : c ≠ '.' := by
    rintro rfl
    rcases hc with hc | hc <;> cases hc
  rw [Decimal.startsNumeral, hsign]
  split
  · next heq => exact absurd (List.cons.inj heq).1 hpoint
  · rcases hc with hc | rfl
    · exact not_isDigit_of_isNameStart hc
    · rfl

/-- No numeral starts where a word does. -/
theorem not_startsNumeral_of_isWord {name : String} (h : IsWord name = true) (rest : List Char) :
    Decimal.startsNumeral (name.toList ++ rest) = false := by
  obtain ⟨c, tail, hname, -, hc | ⟨rfl, c', tail', rfl, hc'⟩⟩ := exists_of_isWord h
  · have hsign := Decimal.takeSign_of_ne (ne_of_isNameStart hc _ rfl) (ne_of_isNameStart hc _ rfl)
      (tail ++ rest)
    rw [hname]
    exact not_startsNumeral_of_takeSign hsign (.inl hc)
  · rw [hname]
    exact not_startsNumeral_of_takeSign rfl hc'

/-- No digit stands at the start of a word. -/
theorem not_isDigit_of_isWord {unit : String} (h : IsWord unit = true) (rest : List Char) :
    Decimal.startsWithDigit (unit.toList ++ rest) = false := by
  obtain ⟨c, tail, hname, -, hc | ⟨rfl, -⟩⟩ := exists_of_isWord h
  · rw [hname]
    exact not_isDigit_of_isNameStart hc
  · rw [hname]
    rfl

/-! ## The first character -/

/-- The characters that start a blank, a comment, a string, a hash or an at-keyword. -/
def markers : List Char := ['\n', '\r', '\x0c', '\t', ' ', '/', '"', '\x27', '#', '@']

/-- Characters of names have no meaning of their own in front of a token. -/
theorem not_mem_markers_of_isNameChar {c : Char} (h : isNameChar c = true) : c ∉ markers := by
  have hmarkers : ∀ sign ∈ markers, isNameChar sign = false :=
    forall_mem_of_all (by decide)
  intro hc
  rw [hmarkers c hc] at h
  cases h

/-- Digits have no meaning of their own in front of a token. -/
theorem not_mem_markers_of_isDigit {c : Char} (h : c.isDigit = true) : c ∉ markers := by
  have hmarkers : ∀ sign ∈ markers, sign.isDigit = false :=
    forall_mem_of_all (by decide)
  intro hc
  rw [hmarkers c hc] at h
  cases h

/-- A character that is no marker differs from each of the markers. -/
theorem ne_of_not_mem_markers {c : Char} (h : c ∉ markers) (sign : Char) (hsign : sign ∈ markers) :
    (c == sign) = false := by
  rw [beq_eq_false_iff_ne]
  rintro rfl
  exact h hsign

/-- Blanks are markers. -/
theorem isBlank_of_not_mem_markers {c : Char} (h : c ∉ markers) : isBlank c = false := by
  have hne := ne_of_not_mem_markers h
  simp only [isBlank, hne '\n' (by decide), hne '\r' (by decide), hne '\x0c' (by decide),
    hne '\t' (by decide), hne ' ' (by decide), Bool.or_self]

/-- A text that starts with a character other than a marker is solid. -/
theorem isSolid_of_not_mem_markers {c : Char} (h : c ∉ markers) (rest : List Char) :
    IsSolid (c :: rest) = true := by
  have hslash := ne_of_not_mem_markers h '/' (by decide)
  rw [IsSolid, isBlank_of_not_mem_markers h, bne, hslash]
  rfl

/-- A comment starts with a slash. -/
theorem skipComments_of_not_slash {c : Char} (h : c ≠ '/') (rest : List Char) :
    skipComments (c :: rest) = c :: rest := by
  rw [skipComments]
  rintro rest' heq
  exact h (List.cons.inj heq).1

/-- A word is solid. -/
theorem isSolid_of_isWord {name : String} (h : IsWord name = true) :
    IsSolid name.toList = true := by
  obtain ⟨c, tail, hname, hchars, -⟩ := exists_of_isWord h
  rw [hname]
  exact isSolid_of_not_mem_markers
    (not_mem_markers_of_isNameChar (hchars c List.mem_cons_self)) tail

/-- The text of a numeral is solid. -/
theorem isSolid_numeral {d : Decimal} (hd : d.exponent ≤ 0) : IsSolid d.text.toList = true := by
  obtain ⟨c, text, htext, hc⟩ := Decimal.exists_magnitudeText_eq_cons hd
  unfold Decimal.text
  split
  · rw [String.toList_append]
    rfl
  · rw [htext]
    exact isSolid_of_not_mem_markers (not_mem_markers_of_isDigit hc) text

/-! ## Units -/

/-- Whether a name would be taken for an exponent behind a numeral. -/
def isExponentLike : List Char → Bool
  | c :: tail => (c == 'e' || c == 'E') && Decimal.startsWithDigit (Decimal.takeSign tail).2
  | [] => false

/-- Whether a name can stand behind a numeral as its unit. -/
def IsUnit (unit : String) : Bool := IsWord unit && !isExponentLike unit.toList

/-- The end of a word adds no exponent. -/
theorem isExponentLike_append {text rest : List Char} (h : isExponentLike text = false)
    (htext : text ≠ []) (hrest : EndsWord rest = true) : isExponentLike (text ++ rest) = false := by
  have hdigit : Decimal.startsWithDigit rest = false := (endsNumeral_of_endsWord hrest).digit
  cases text with
  | nil => exact absurd rfl htext
  | cons c tail =>
    rw [isExponentLike, Bool.and_eq_false_iff] at h
    rw [List.cons_append, isExponentLike, Bool.and_eq_false_iff]
    refine h.imp_right fun h => ?_
    cases tail with
    -- The unit is the letter of the exponent alone, and no digit follows it.
    | nil =>
      rcases eq_cons_of_endsWord hrest with rfl | ⟨c, rest, rfl, rfl | rfl | rfl⟩ <;> rfl
    | cons sign tail =>
      -- A sign behind that letter is taken off in the same way.
      have hsign : (Decimal.takeSign (sign :: tail ++ rest)).2 =
          (Decimal.takeSign (sign :: tail)).2 ++ rest := by
        rw [List.cons_append, Decimal.takeSign.eq_def, Decimal.takeSign.eq_def]
        split
        · next heq =>
          obtain ⟨rfl, rfl⟩ := List.cons.inj heq
          rfl
        · next heq =>
          obtain ⟨rfl, rfl⟩ := List.cons.inj heq
          rfl
        · next hplus hminus =>
          split
          · next heq => exact absurd (by rw [(List.cons.inj heq).1]) (hplus (tail ++ rest))
          · next heq => exact absurd (by rw [(List.cons.inj heq).1]) (hminus (tail ++ rest))
          · rfl
      rw [hsign]
      cases hafter : (Decimal.takeSign (sign :: tail)).2 with
      | nil => exact hdigit
      | cons c' tail' =>
        rw [hafter] at h
        exact h

/-- A numeral ends where its unit starts, since the unit does not look like an exponent. -/
theorem endsNumeral_of_isUnit {unit : String} (h : IsUnit unit = true) {rest : List Char}
    (hrest : EndsWord rest = true) : Decimal.EndsNumeral (unit.toList ++ rest) := by
  rw [IsUnit, Bool.and_eq_true, Bool.not_eq_true'] at h
  obtain ⟨hword, hexponent⟩ := h
  have hdigit := not_isDigit_of_isWord hword rest
  obtain ⟨c, tail, hname, hchars, -⟩ := exists_of_isWord hword
  rw [hname] at hexponent hdigit ⊢
  have hlike := isExponentLike_append hexponent (List.cons_ne_nil _ _) hrest
  have hpoint : c ≠ '.' := ne_of_isNameChar (hchars c List.mem_cons_self) _ rfl
  refine ⟨hdigit, ?_, ?_⟩
  · -- There is neither a point, for a fraction, nor anything that looks like an exponent.
    rw [List.cons_append, Decimal.takeFraction]
    rintro rest' heq
    exact hpoint (List.cons.inj heq).1
  · rw [List.cons_append, isExponentLike] at hlike
    rw [List.cons_append, Decimal.takeExponent]
    dsimp only
    rw [hlike]
    rfl

/-! ## Spelling -/

section Spelling

variable {K : Type} [Number K]

/-- A text that is split into tokens where a text that `Follows` comes after it. -/
def Spells (Follows : List Char → Prop) (text : String) (tokens : List (Token K)) : Prop :=
  ∀ rest, Follows rest → collapse (scan (text.toList ++ rest)) = tokens ++ collapse (scan rest)

/-- Texts one after the other, where the second one may follow the first one. -/
theorem Spells.append {Follows Follows' : List Char → Prop} {text text' : String}
    {tokens tokens' : List (Token K)} (h : Spells Follows text tokens)
    (h' : Spells Follows' text' tokens')
    (hfollows : ∀ rest, Follows' rest → Follows (text'.toList ++ rest)) :
    Spells Follows' (text ++ text') (tokens ++ tokens') := by
  intro rest hrest
  rw [String.toList_append, List.append_assoc, h _ (hfollows rest hrest), h' rest hrest,
    List.append_assoc]

/-- A text that spells tokens and may stand at the end has these tokens. -/
theorem Spells.collapse_scan {Follows : List Char → Prop} {text : String}
    {tokens : List (Token K)} (h : Spells Follows text tokens) (hend : Follows []) :
    collapse (scan text.toList) = tokens := by
  have hempty : scan ([] : List Char) = ([] : List (Token K)) := scan_of_next?_none rfl
  have htokens := h [] hend
  rwa [List.append_nil, hempty, collapse, List.append_nil] at htokens

/-- A token that is taken off any text that follows. -/
theorem spells_of_next? {Follows : List Char → Prop} {text : String} {token : Token K}
    (htoken : token.isWhitespace = false)
    (h : ∀ rest, Follows rest → next? (text.toList ++ rest) = some (token, rest)) :
    Spells Follows text [token] := by
  intro rest hrest
  rw [scan_of_next?_some (h rest hrest), collapse_cons_of_not_isWhitespace htoken]
  rfl

/-- A text without a marker in front starts with a numeral, a name, or a sign. -/
theorem next?_of_not_mem_markers {c : Char} (h : c ∉ markers) (rest : List Char) :
    next? (c :: rest) = some (
      if Decimal.startsNumeral (c :: rest) then takeNumeric (c :: rest)
      else if startsName (c :: rest) then takeNamed (c :: rest)
      else ((ofPunctuation? c).getD (delim c), rest) : Token K × List Char) := by
  -- None of the branches for markers is taken.
  have hne := ne_of_not_mem_markers h
  have hslash : c ≠ '/' := beq_eq_false_iff_ne.1 (hne '/' (by decide))
  unfold next?
  rw [skipComments_of_not_slash hslash]
  show some (takeAfter c rest) = _
  unfold takeAfter
  simp only [isBlank_of_not_mem_markers h, hne '"' (by decide), hne '\x27' (by decide),
    hne '#' (by decide), hne '@' (by decide), Bool.false_and, Bool.or_self, Bool.false_eq_true,
    ↓reduceIte]

/-- The token in front of a text that starts with a word is that of the name. -/
theorem next?_of_isWord {name : String} (h : IsWord name = true) (rest : List Char) :
    next? (name.toList ++ rest) =
      some (takeNamed (name.toList ++ rest) : Token K × List Char) := by
  have hstarts := startsName_of_isWord h rest
  have hnumeral := not_startsNumeral_of_isWord h rest
  obtain ⟨c, tail, hname, hchars, -⟩ := exists_of_isWord h
  rw [hname, List.cons_append] at hstarts hnumeral ⊢
  rw [next?_of_not_mem_markers (not_mem_markers_of_isNameChar (hchars c List.mem_cons_self)),
    hnumeral, hstarts, if_neg Bool.false_ne_true, if_pos rfl]

/-- A name spells an identifier. -/
theorem spells_word {name : String} (h : IsWord name = true) :
    Spells (K := K) (EndsWord · = true) name [ident name] := by
  refine spells_of_next? rfl fun rest hrest => ?_
  rw [next?_of_isWord h, takeNamed, takeName_of_isWord h (continuesName_of_endsWord hrest)]
  rcases eq_cons_of_endsWord hrest with rfl | ⟨c, rest, rfl, rfl | rfl | rfl⟩ <;>
    exact congrArg (fun name => some (ident name, _)) String.ofList_toList

/-- A name and a parenthesis spell the start of a function. -/
theorem spells_call {name : String} (h : IsWord name = true) :
    Spells (K := K) (fun _ => True) (name ++ "(") [function name] := by
  refine spells_of_next? rfl fun rest _ => ?_
  rw [String.toList_append, List.append_assoc, next?_of_isWord h, takeNamed,
    takeName_of_isWord h rfl]
  exact congrArg (fun name => some (function name, _)) String.ofList_toList

/-! ## Signs -/

/-- An opening parenthesis stands for itself. -/
theorem spells_openParen : Spells (K := K) (fun _ => True) "(" [openParen] :=
  spells_of_next? rfl fun _ _ => rfl

/-- A closing parenthesis stands for itself. -/
theorem spells_closeParen : Spells (K := K) (fun _ => True) ")" [closeParen] :=
  spells_of_next? rfl fun _ _ => rfl

/-- Only a blank starts a token of blanks. -/
theorem not_isWhitespace_takeAfter {c : Char} (h : isBlank c = false) (rest : List Char) :
    (takeAfter c rest : Token K × List Char).1.isWhitespace = false := by
  unfold takeAfter
  rw [if_neg (by simp [h])]
  split
  · -- Strings, hashes, keywords, numerals, names and signs in turn.
    unfold takeQuoted
    split <;> rfl
  · split
    · rfl
    · split
      · rfl
      · split
        · unfold takeNumeric
          dsimp only
          split
          · rfl
          · split <;> rfl
        · split
          · unfold takeNamed
            split <;> rfl
          · unfold ofPunctuation?
            split <;> rfl

/-- A blank in front of something solid stays a single blank. -/
theorem collapse_scan_blank {rest : List Char} (h : IsSolid rest = true) :
    collapse (scan (' ' :: rest) : List (Token K)) = whitespace :: collapse (scan rest) := by
  cases rest with
  | nil => cases h
  | cons c rest =>
    rw [IsSolid, Bool.and_eq_true, Bool.not_eq_true', bne_iff_ne] at h
    obtain ⟨hblank, hslash⟩ := h
    have hcomment := skipComments_of_not_slash hslash rest
    have hfirst : next? (' ' :: c :: rest) =
        some ((whitespace, c :: rest) : Token K × List Char) := by
      show some ((whitespace, (c :: rest).dropWhile isBlank) : Token K × List Char) = _
      rw [List.dropWhile_cons_of_neg (by simp [hblank])]
    have hsecond : next? (c :: rest) = some (takeAfter c rest : Token K × List Char) := by
      unfold next?
      rw [hcomment]
    have hsolid := not_isWhitespace_takeAfter (K := K) hblank rest
    obtain ⟨⟨token, after⟩, htake⟩ :
        ∃ taken : Token K × List Char, takeAfter c rest = taken := ⟨_, rfl⟩
    rw [htake] at hsecond hsolid
    rw [scan_of_next?_some hfirst, scan_of_next?_some hsecond, collapse]
    -- The next token is not a blank, so nothing is collapsed.
    rintro rest' - heq
    rw [(List.cons.inj heq).1] at hsolid
    cases hsolid

/-- A blank spells itself in front of something solid. -/
theorem spells_blank : Spells (K := K) (IsSolid · = true) " " [whitespace] :=
  fun _ hrest => collapse_scan_blank hrest

/-- A comma and a blank stand for themselves, if something solid follows. -/
theorem spells_comma : Spells (K := K) (IsSolid · = true) ", " [comma, whitespace] := by
  intro rest hrest
  have hfirst : next? (',' :: ' ' :: rest) =
      some ((comma, ' ' :: rest) : Token K × List Char) := rfl
  show collapse (scan (',' :: ' ' :: rest)) = _
  rw [scan_of_next?_some hfirst, collapse_cons_of_not_isWhitespace rfl, collapse_scan_blank hrest]
  rfl

/-- A sign between blanks. -/
theorem spells_operator {text : String} {sign : Char} (htext : text.toList = [' ', sign, ' '])
    (hsign : isBlank sign = false) (h : ∀ rest, next? (sign :: ' ' :: rest) =
      some ((delim sign, ' ' :: rest) : Token K × List Char)) :
    Spells (K := K) (IsSolid · = true) text [whitespace, delim sign, whitespace] := by
  -- The blank in front of the sign is a token of its own.
  intro rest hrest
  have hfirst : next? (' ' :: sign :: ' ' :: rest) =
      some ((whitespace, sign :: ' ' :: rest) : Token K × List Char) := by
    show some ((whitespace, (sign :: ' ' :: rest).dropWhile isBlank) : Token K × List Char) = _
    rw [List.dropWhile_cons_of_neg (by simp [hsign])]
  rw [htext]
  show collapse (scan (' ' :: sign :: ' ' :: rest)) = _
  rw [scan_of_next?_some hfirst, scan_of_next?_some (h rest)]
  show whitespace :: collapse (delim sign :: scan (' ' :: rest)) = _
  rw [collapse_cons_of_not_isWhitespace rfl, collapse_scan_blank hrest]
  rfl

/-- The slash in front of an alpha stands between blanks. -/
theorem spells_slash :
    Spells (K := K) (IsSolid · = true) " / " [whitespace, delim '/', whitespace] :=
  spells_operator rfl rfl fun _ => rfl

/-! ## Numbers -/

/-- Where a numeral starts, a number, a percentage or a dimension is read. -/
theorem next?_of_startsNumeral {text : List Char} (h : Decimal.startsNumeral text = true) :
    next? text = some (takeNumeric text : Token K × List Char) := by
  have hmarkers : ∀ c ∈ markers, ∀ rest, Decimal.startsNumeral (c :: rest) = false := by
    intro c hc rest
    simp only [markers, List.mem_cons, List.not_mem_nil, or_false] at hc
    rcases hc with rfl | rfl | rfl | rfl | rfl | rfl | rfl | rfl | rfl | rfl <;> rfl
  cases text with
  | nil => cases h
  | cons c rest =>
    -- No marker starts a numeral.
    have hc : c ∉ markers := by
      intro hc
      rw [hmarkers c hc rest] at h
      cases h
    rw [next?_of_not_mem_markers hc, if_pos h]

/-- A decimal in front of the end of a word is a number. -/
theorem next?_numeral {d : Decimal} (hd : d.exponent ≤ 0) {rest : List Char}
    (hrest : EndsWord rest = true) :
    (next? (d.text.toList ++ rest) : Option (Token K × List Char)) =
      some (number d.toNumber, rest) := by
  rw [next?_of_startsNumeral (Decimal.startsNumeral_text hd rest), takeNumeric,
    Decimal.scan_text hd (endsNumeral_of_endsWord hrest)]
  dsimp only
  rw [if_neg (by rw [startsName_of_endsWord hrest]; exact Bool.false_ne_true)]
  rcases eq_cons_of_endsWord hrest with rfl | ⟨c, rest, rfl, rfl | rfl | rfl⟩ <;> rfl

/-- A decimal in positional form spells a number. -/
theorem spells_numeral {d : Decimal} (hd : d.exponent ≤ 0) :
    Spells (K := K) (EndsWord · = true) d.text [number d.toNumber] :=
  spells_of_next? rfl fun _ hrest => next?_numeral hd hrest

/-- A decimal and a percent sign spell a percentage. -/
theorem spells_percentage {d : Decimal} (hd : d.exponent ≤ 0) :
    Spells (K := K) (fun _ => True) (d.text ++ "%") [percentage d.toNumber] := by
  refine spells_of_next? rfl fun rest _ => ?_
  have hpercent : "%".toList ++ rest = '%' :: rest := rfl
  rw [String.toList_append, List.append_assoc, hpercent,
    next?_of_startsNumeral (Decimal.startsNumeral_text hd _), takeNumeric,
    Decimal.scan_text hd (endsNumeral_percent rest)]
  rfl

/-- A decimal and a unit spell a value with the unit. -/
theorem spells_dimension {d : Decimal} (hd : d.exponent ≤ 0) {unit : String}
    (hunit : IsUnit unit = true) :
    Spells (K := K) (EndsWord · = true) (d.text ++ unit) [dimension d.toNumber unit.toLower] := by
  refine spells_of_next? rfl fun rest hrest => ?_
  have hnumeral := endsNumeral_of_isUnit hunit hrest
  rw [IsUnit, Bool.and_eq_true] at hunit
  obtain ⟨hword, -⟩ := hunit
  -- The numeral is read up to the unit, and the unit as a name.
  rw [String.toList_append, List.append_assoc,
    next?_of_startsNumeral (Decimal.startsNumeral_text hd _), takeNumeric,
    Decimal.scan_text hd hnumeral]
  dsimp only
  rw [if_pos (startsName_of_isWord hword rest),
    takeName_of_isWord hword (continuesName_of_endsWord hrest)]
  exact congrArg (fun unit => some (dimension d.toNumber (String.toLower unit), rest))
    String.ofList_toList

/-! ## Texts of tokens -/

variable {text text' name : String} {tokens tokens' : List (Token K)}

/-- A text that spells tokens in front of some texts does so in front of fewer texts. -/
theorem Spells.mono {Follows Follows' : List Char → Prop} (h : Spells Follows text tokens)
    (hfollows : ∀ rest, Follows' rest → Follows rest) : Spells Follows' text tokens :=
  fun rest hrest => h rest (hfollows rest hrest)

/-- A text of tokens that can stand behind a blank and in front of the end of a word. -/
structure Forms (text : String) (tokens : List (Token K)) : Prop where
  spells : Spells (EndsWord · = true) text tokens
  solid : IsSolid text.toList = true

/-- Two texts with a separator between them. -/
theorem Forms.separated {separator : String} {separators : List (Token K)}
    (h : Forms text tokens) (hseparator : Spells (IsSolid · = true) separator separators)
    (hends : ∀ rest, EndsWord (separator.toList ++ rest) = true) (h' : Forms text' tokens') :
    Forms (text ++ separator ++ text') (tokens ++ separators ++ tokens') where
  spells := (h.spells.append hseparator fun rest _ => hends rest).append h'.spells
    fun rest _ => isSolid_append h'.solid rest
  solid := by
    rw [String.toList_append, String.toList_append, List.append_assoc]
    exact isSolid_append h.solid _

/-- A text that starts with the character. -/
def StartsWith (c : Char) (text : List Char) : Prop := text.head? = some c

/-- The text in the parentheses of a function. -/
theorem Spells.call (hname : IsWord name = true) (h : Spells (StartsWith ')') text tokens) :
    Forms (name ++ "(" ++ text ++ ")") (function name :: (tokens ++ [closeParen])) where
  spells := ((spells_call hname).append h fun _ _ => trivial).append
    (spells_closeParen.mono fun _ _ => trivial) fun _ _ => rfl
  solid := by
    simp only [String.toList_append, List.append_assoc]
    exact isSolid_append (isSolid_of_isWord hname) _

/-- The text in parentheses. -/
theorem Spells.paren (h : Spells (StartsWith ')') text tokens) :
    Forms ("(" ++ text ++ ")") (openParen :: (tokens ++ [closeParen])) where
  spells := (spells_openParen.append h fun _ _ => trivial).append
    (spells_closeParen.mono fun _ _ => trivial) fun _ _ => rfl
  solid := by
    simp only [String.toList_append, List.append_assoc]
    rfl

/-- A blank and a closing parenthesis end a word. -/
theorem Forms.startsWith {c : Char} (hc : c = ' ' ∨ c = ')') (h : Forms text tokens) :
    Spells (StartsWith c) text tokens := by
  refine h.spells.mono fun rest hrest => ?_
  cases rest with
  | nil => cases hrest
  | cons first rest =>
    cases hrest
    rcases hc with rfl | rfl <;> rfl

/-- A call whose content has a text of its own. -/
theorem Forms.call (hname : IsWord name = true) (h : Forms text tokens) :
    Forms (name ++ "(" ++ text ++ ")") (function name :: (tokens ++ [closeParen])) :=
  (h.startsWith (.inr rfl)).call hname

/-- A word spells an identifier. -/
theorem forms_word (h : IsWord name = true) : Forms (K := K) name [ident name] :=
  ⟨spells_word h, isSolid_of_isWord h⟩

end Spelling

/-- The text of a finite number spells the number that it reads back as. -/
theorem forms_number {K : Type} [Scalar K] {x : K} (h : Scalar.isFinite x = true) :
    Forms (Scalar.text x) [number (Scalar.printed x)] := by
  have hexponent := (Scalar.isTrimmed_decimal x).exponent_nonpos
  rw [Scalar.text_eq_decimal_text h]
  exact ⟨spells_numeral hexponent, isSolid_numeral hexponent⟩

/-- On its own it is this one token. -/
theorem scan_text {K : Type} [Scalar K] {x : K} (h : Scalar.isFinite x = true) :
    scan (Scalar.text x).toList = [number (Scalar.printed x)] := by
  have hnumber := next?_numeral (K := K) (Scalar.isTrimmed_decimal x).exponent_nonpos
    (show EndsWord [] = true from rfl)
  rw [List.append_nil] at hnumber
  rw [Scalar.text_eq_decimal_text h, scan_of_next?_some hnumber, scan_of_next?_none rfl]
  rfl

/-- A number and a percent sign spell a percentage. -/
theorem forms_percentage {K : Type} [Scalar K] {x : K} (h : Scalar.isFinite x = true) :
    Forms (Scalar.text x ++ "%") [percentage (Scalar.printed x)] := by
  have hexponent := (Scalar.isTrimmed_decimal x).exponent_nonpos
  rw [Scalar.text_eq_decimal_text h]
  refine ⟨(spells_percentage hexponent).mono fun _ _ => trivial, ?_⟩
  rw [String.toList_append]
  exact isSolid_append (isSolid_numeral hexponent) _

/-- A number and a unit spell a dimension. -/
theorem forms_dimension {K : Type} [Scalar K] {x : K} {unit : String}
    (h : Scalar.isFinite x = true) (hunit : IsUnit unit = true) :
    Forms (Scalar.text x ++ unit) [dimension (Scalar.printed x) unit.toLower] := by
  have hexponent := (Scalar.isTrimmed_decimal x).exponent_nonpos
  rw [Scalar.text_eq_decimal_text h]
  refine ⟨spells_dimension hexponent hunit, ?_⟩
  rw [String.toList_append]
  exact isSolid_append (isSolid_numeral hexponent) _

end CssColor.Token
