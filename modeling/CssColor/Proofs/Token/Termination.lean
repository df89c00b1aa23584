import CssColor.Proofs.Token.Offsets

/-!
# Tokens by byte offsets

The reader by offsets is the scan: a call takes the next token of the text that is left
(`Reader.reads_nextToken`), and all calls together take the tokens of the source
(`Reader.reads_tokens`). So no cut of the source fails, and the reader comes to its end
(`Reader.tokens_end`).
-/

namespace CssColor.Token.Reader

variable {source : String} {text rest : List Char} {c : Char} {K : Type}

/-! ## The next token -/

/-- A character that changes a token is taken where it comes next. -/
theorem reads_mark {α : Type} (h : text <:+ source.toList) (mark : Char) (a b : α) :
    Reads source (do
      if (← peek source 0) == some mark then
        advance source 1
        return a
      else return b) text (if text.head? = some mark then a else b)
      (if text.head? = some mark then text.drop 1 else text) := by
  refine (reads_peek h 0).bind ?_
  rw [← List.head?_eq_getElem?]
  by_cases hmark : text.head? = some mark
  · rw [if_pos (beq_iff_eq.2 hmark), if_pos hmark, if_pos hmark]
    exact (reads_advance h 1).map (f := fun _ => a)
  · rw [if_neg (by simpa using hmark), if_neg hmark, if_neg hmark]
    exact reads_pure h

/-- The reader takes names, functions and addresses as the tokenizer on lists does. -/
theorem reads_takeNamed (h : text <:+ source.toList) :
    Reads source (takeNamed source) text (Token.takeNamed text : Token K × List Char).1
      (Token.takeNamed text : Token K × List Char).2 := by
  have hname := reads_takeName h
  obtain ⟨⟨name, rest⟩, htake⟩ : ∃ taken, Token.takeName text = taken := ⟨_, rfl⟩
  have hmark := reads_mark hname.suffix '(' (function (String.ofList name))
    (ident (String.ofList name) : Token K)
  unfold Token.takeNamed
  rw [htake] at hname hmark ⊢
  refine hname.bind ?_
  -- A parenthesis makes it a function, and is taken in.
  split
  · next after heq =>
    obtain ⟨rfl, rfl⟩ := Prod.mk.inj heq
    exact hmark
  · next hnot heq =>
    obtain ⟨rfl, rfl⟩ := Prod.mk.inj heq
    have hhead : rest.head? ≠ some '(' := by
      intro hhead
      obtain ⟨after, heq⟩ := List.head?_eq_some_iff.1 hhead
      exact hnot after heq
    rw [if_neg hhead, if_neg hhead] at hmark
    exact hmark

/-- The reader takes strings as the tokenizer on lists does. -/
theorem reads_takeQuoted (h : text <:+ source.toList) (quote : Char) :
    Reads source (takeQuoted source quote) text
      (Token.takeQuoted quote text : Token K × List Char).1
      (Token.takeQuoted quote text : Token K × List Char).2 := by
  have hstring := reads_takeString h quote
  obtain ⟨⟨⟨content, isWhole⟩, rest⟩, htake⟩ : ∃ taken, Token.takeString quote text = taken :=
    ⟨_, rfl⟩
  unfold Token.takeQuoted
  rw [htake] at hstring ⊢
  refine hstring.bind ?_
  cases isWhole with
  | true => exact reads_pure hstring.suffix
  | false => exact reads_pure hstring.suffix

/-- The reader takes hashes as the tokenizer on lists does. -/
theorem reads_takeHash (h : text <:+ source.toList) :
    Reads source (takeHash source) text
      (if continuesName text then
        hash (String.ofList (Token.takeName text).1)
          (if Token.startsName text then .id else .unrestricted)
        else delim '#' : Token K)
      (if continuesName text then (Token.takeName text).2 else text) := by
  refine (reads_peek h 0).bind ?_
  cases text with
  | nil => exact reads_pure h
  | cons c rest =>
    show Reads source (do
      let escape ← startsEscape source
      if isNameChar c || escape then
        let startsName ← startsName source
        let flag := if startsName then HashKind.id else .unrestricted
        return hash (String.ofList (← takeName source)) flag
      else return delim '#') _ _ _
    refine (reads_startsEscape h).bind ?_
    rw [continuesName]
    split
    · exact (reads_startsName h).bind (reads_takeName h).map
    · exact reads_pure h

/-- A backslash is put back where an escape may start with it. -/
theorem reads_afterBackslash (h : '\\' :: rest <:+ source.toList) :
    Reads source (do
      stepBack source
      if ← startsEscape source then takeNamed source
      else
        advance source 1
        return delim '\\') rest
      (if Token.startsName ('\\' :: rest) then Token.takeNamed ('\\' :: rest)
        else (delim '\\', rest) : Token K × List Char).1
      (if Token.startsName ('\\' :: rest) then Token.takeNamed ('\\' :: rest)
        else (delim '\\', rest) : Token K × List Char).2 := by
  have hname : Token.startsName ('\\' :: rest) = Token.startsEscape ('\\' :: rest) := rfl
  rw [hname]
  refine (reads_stepBack h).bind ((reads_startsEscape h).bind ?_)
  split
  · exact reads_takeNamed h
  · exact (reads_advance h 1).map (f := fun _ => delim '\\')

variable [Scalar K]

/-- The reader takes numbers as the tokenizer on lists does. -/
theorem reads_takeNumeric (h : text <:+ source.toList)
    (hstart : Decimal.startsNumeral text = true) :
    Reads source (takeNumeric source) text (Token.takeNumeric text : Token K × List Char).1
      (Token.takeNumeric text : Token K × List Char).2 := by
  have hnumeral := reads_takeNumeral (K := K) h hstart
  have hname := reads_takeName hnumeral.suffix
  unfold Token.takeNumeric
  refine hnumeral.bind ((reads_startsName hnumeral.suffix).bind ?_)
  dsimp only
  -- A unit is read as a name, and otherwise a percent sign is looked for.
  split
  · exact hname.map
  · have hmark := reads_mark hnumeral.suffix '%' (percentage (Decimal.scan text).1.toNumber)
      (number (Decimal.scan text).1.toNumber : Token K)
    split
    · next after heq =>
      rw [heq] at hmark
      rw [heq]
      exact hmark
    · next hnot =>
      have hhead : (Decimal.scan text).2.head? ≠ some '%' := by
        intro hhead
        obtain ⟨after, heq⟩ := List.head?_eq_some_iff.1 hhead
        exact hnot after heq
      rw [if_neg hhead, if_neg hhead] at hmark
      exact hmark

/-- Without a sign or a point only a digit starts a numeral. -/
theorem startsNumeral_of_ne (hsign : isSign c = false) (hpoint : c ≠ '.') (rest : List Char) :
    Decimal.startsNumeral (c :: rest) = c.isDigit := by
  rw [startsNumeral_eq, takeSign_of_not_isSign hsign, startsMagnitude_of_ne hpoint]

/-- A sign or a point is put back where a numeral may start with it. -/
theorem reads_afterPoint (h : c :: rest <:+ source.toList) :
    Reads source (do
      stepBack source
      if ← startsNumeral source then takeNumeric source
      else return delim ((← next source).getD '+')) rest
      (if Decimal.startsNumeral (c :: rest) then Token.takeNumeric (c :: rest)
        else (delim c, rest) : Token K × List Char).1
      (if Decimal.startsNumeral (c :: rest) then Token.takeNumeric (c :: rest)
        else (delim c, rest) : Token K × List Char).2 := by
  refine (reads_stepBack h).bind ((reads_startsNumeral h).bind ?_)
  split
  · next hnumeral => exact reads_takeNumeric h hnumeral
  · exact (reads_next_cons h).map (f := fun c => delim (c.getD '+'))

/-- A dash is put back where a numeral or a name may start with it. -/
theorem reads_afterDash (h : '-' :: rest <:+ source.toList) :
    Reads source (do
      stepBack source
      if ← startsNumeral source then takeNumeric source
      else if ← startsName source then takeNamed source
      else
        advance source 1
        return delim '-') rest
      (if Decimal.startsNumeral ('-' :: rest) then Token.takeNumeric ('-' :: rest)
        else if Token.startsName ('-' :: rest) then Token.takeNamed ('-' :: rest)
        else (delim '-', rest) : Token K × List Char).1
      (if Decimal.startsNumeral ('-' :: rest) then Token.takeNumeric ('-' :: rest)
        else if Token.startsName ('-' :: rest) then Token.takeNamed ('-' :: rest)
        else (delim '-', rest) : Token K × List Char).2 := by
  -- The dash is read again, as part of a number or of a name.
  refine (reads_stepBack h).bind ((reads_startsNumeral h).bind ?_)
  split
  · next hnumeral => exact reads_takeNumeric h hnumeral
  refine (reads_startsName h).bind ?_
  split
  · exact reads_takeNamed h
  · exact (reads_advance h 1).map (f := fun _ => delim '-')

/-- The token of a character is the one that is taken off the text. -/
theorem reads_takeAfter (h : c :: rest <:+ source.toList) :
    Reads source (takeAfter source c) rest (Token.takeAfter c rest : Token K × List Char).1
      (Token.takeAfter c rest : Token K × List Char).2 := by
  have hrest := (List.suffix_cons c rest).trans h
  unfold takeAfter
  by_cases hblank : isBlank c = true
  · rw [if_pos hblank, Token.takeAfter, if_pos hblank]
    exact (reads_skipWhile hrest isBlank).map
  by_cases hquote : (c == '"' || c == '\x27') = true
  · rw [if_neg hblank, if_pos hquote, Token.takeAfter, if_neg hblank, if_pos hquote]
    exact reads_takeQuoted hrest c
  rw [if_neg hblank, if_neg hquote]
  by_cases hhash : c = '#'
  · subst hhash
    rw [takeAfter_hash]
    exact reads_takeHash hrest
  rw [if_neg (by simpa using hhash)]
  cases hpunctuation : (ofPunctuation? c : Option (Token K)) with
  | some token =>
    rw [takeAfter_of_ofPunctuation? hpunctuation]
    exact reads_pure hrest
  | none =>
  dsimp only
  -- On lists an at-sign is tested for in front of numerals and names, here among them.
  by_cases hat : c = '@'
  · subst hat
    rw [if_neg (by decide), if_neg (by decide), if_pos (by rfl), takeAfter_at]
    refine (reads_startsName hrest).bind ?_
    split
    · exact (reads_takeName hrest).map
    · exact reads_pure hrest
  rw [takeAfter_of_ne hblank hquote hhash hat hpunctuation]
  by_cases hpoint : (c == '+' || c == '.') = true
  · have hname : Token.startsName (c :: rest) = false := by
      rw [Bool.or_eq_true, beq_iff_eq, beq_iff_eq] at hpoint
      rcases hpoint with rfl | rfl <;> rfl
    rw [if_pos hpoint, hname]
    exact reads_afterPoint h
  rw [if_neg hpoint]
  by_cases hdash : c = '-'
  · subst hdash
    rw [if_pos (by rfl)]
    exact reads_afterDash h
  rw [if_neg (by simpa using hdash), if_neg (by simpa using hat)]
  have hsign : isSign c = false := by
    rw [Bool.not_eq_true, Bool.or_eq_false_iff] at hpoint
    rw [isSign, hpoint.1, beq_eq_false_iff_ne.2 hdash, Bool.or_false]
  have hnumeral : Decimal.startsNumeral (c :: rest) = c.isDigit :=
    startsNumeral_of_ne hsign (by rintro rfl; exact hpoint rfl) rest
  by_cases hback : c = '\\'
  · subst hback
    rw [if_pos (by rfl), hnumeral]
    exact reads_afterBackslash h
  rw [if_neg (by simpa using hback), hnumeral, startsName_of_ne hdash hback]
  by_cases hdigit : c.isDigit = true
  · rw [if_pos hdigit, if_pos hdigit]
    exact (reads_stepBack h).bind (reads_takeNumeric h (hnumeral.trans hdigit))
  rw [if_neg hdigit, if_neg hdigit]
  by_cases hstart : isNameStart c = true
  · rw [if_pos hstart, if_pos hstart]
    exact (reads_stepBack h).bind (reads_takeNamed h)
  · rw [if_neg hstart, if_neg hstart]
    exact reads_pure hrest

/-- The reader takes the next token as the tokenizer on lists does. -/
theorem reads_nextToken (h : text <:+ source.toList) :
    Reads source (nextToken source) text ((next? text).map (·.1) : Option (Token K))
      (((next? text : Option (Token K × List Char)).map (·.2)).getD []) := by
  have hskip := reads_skipComments h
  refine hskip.bind ?_
  rw [next?]
  cases hrest : Token.skipComments text with
  | nil =>
    rw [hrest] at hskip
    exact (reads_next_nil hskip.suffix).bind (reads_pure hskip.suffix)
  | cons c rest =>
    rw [hrest] at hskip
    exact (reads_next_cons hskip.suffix).bind (reads_takeAfter hskip.suffix).map

/-- All tokens of the text that is left are read, up to the end of the source. -/
theorem reads_tokens (h : text <:+ source.toList) :
    Reads source (tokens source) text (scan text : List (Token K)) [] := by
  refine reads_loop (fun text => (scan text, [])) ?_ h
  intro again text h ih
  have hnext := reads_nextToken (K := K) h
  cases htake : (next? text : Option (Token K × List Char)) with
  | none =>
    rw [htake] at hnext
    rw [scan_of_next?_none htake]
    exact hnext.bind (reads_pure hnext.suffix)
  | some taken =>
    -- A token takes a character at least, so what is left behind it is shorter.
    obtain ⟨token, rest⟩ := taken
    rw [htake] at hnext
    rw [scan_of_next?_some htake]
    exact hnext.bind (ih hnext.suffix (next?_length_lt htake)).map

/-! ## The whole source -/

/-- There are no more tokens than characters. -/
theorem length_scan_le_length (text : List Char) :
    (scan text : List (Token K)).length ≤ text.length := by
  obtain ⟨n, hn⟩ : ∃ n, text.length = n := ⟨_, rfl⟩
  induction n using Nat.strong_induction_on generalizing text with
  | h n ih =>
    cases htake : (next? text : Option (Token K × List Char)) with
    | none =>
      rw [scan_of_next?_none htake]
      exact Nat.zero_le _
    | some taken =>
      obtain ⟨token, rest⟩ := taken
      have hlength := next?_length_lt htake
      have hrest := ih rest.length (by omega) rest rfl
      rw [scan_of_next?_some htake, List.length_cons]
      omega

/-- The place of a suffix is between two characters. -/
theorem isValid_offsetOf (h : text <:+ source.toList) :
    String.Pos.Raw.IsValid source ⟨offsetOf source text⟩ := by
  obtain ⟨before, hsource, hoffset⟩ := exists_append h
  rw [hoffset]
  conv => rw [hsource]
  exact isValid_append _ _

/-- A shorter text lies further on. -/
theorem offsetOf_lt (htext : text <:+ source.toList) (hrest : rest <:+ source.toList)
    (hlength : rest.length < text.length) : offsetOf source text < offsetOf source rest := by
  obtain ⟨taken, rfl⟩ := List.suffix_of_suffix_length_le hrest htext hlength.le
  cases taken with
  | nil => exact absurd hlength (Nat.lt_irrefl _)
  | cons c taken =>
    rw [offsetOf_append htext, String.utf8Len_cons]
    have := Char.utf8Size_pos c
    omega

/-- The reader comes to the end of every source, with at most as many tokens as it has characters.
At any offset between two characters a call succeeds and stops between two characters, further on if
it gives a token, and it gives none only if nothing but comments is left. -/
theorem tokens_end (source : String) :
    (tokens source).run 0 = some ((scan source.toList : List (Token K)), source.utf8ByteSize) ∧
      (scan source.toList : List (Token K)).length ≤ source.toList.length ∧
      ∀ offset, String.Pos.Raw.IsValid source ⟨offset⟩ → ∃ text token? offset',
        textFrom? source offset = some text ∧
        (nextToken source).run offset = some ((token? : Option (Token K)), offset') ∧
        String.Pos.Raw.IsValid source ⟨offset'⟩ ∧
        (token?.isSome = true → offset < offset') ∧
        (token? = none ↔ IsCommentary text.toList) := by
  refine ⟨?_, length_scan_le_length _, fun offset hoffset => ?_⟩
  · have hread := (reads_tokens (K := K) (List.suffix_refl source.toList)).run_eq
    have hstart : offsetOf source source.toList = 0 := by
      have hoffset := offsetOf_append_right "" source
      rwa [String.empty_append] at hoffset
    rw [hstart] at hread
    exact hread
  · -- A place between two characters is that of a suffix, which the reader reads from there.
    obtain ⟨before, text, rfl, hbefore⟩ := String.Pos.Raw.isValid_iff_exists_append.1 hoffset
    obtain rfl : offset = before.utf8ByteSize := congrArg String.Pos.Raw.byteIdx hbefore
    have hsuffix : text.toList <:+ (before ++ text).toList :=
      ⟨before.toList, String.toList_append.symm⟩
    have hread := reads_nextToken (K := K) hsuffix
    have hrun := hread.run_eq
    rw [offsetOf_append_right] at hrun
    refine ⟨text, _, _, textFrom?_append before text, hrun, isValid_offsetOf hread.suffix, ?_, ?_⟩
    · -- A token takes at least one character, and so at least one byte.
      intro htoken
      obtain ⟨⟨token, rest⟩, htake⟩ := Option.isSome_iff_exists.1
        (Option.isSome_map.symm.trans htoken)
      have hlength := next?_length_lt htake
      have hsuffix' := hread.suffix
      rw [htake] at hsuffix' ⊢
      rw [← offsetOf_append_right before text]
      exact offsetOf_lt hsuffix hsuffix' hlength
    · rw [Option.map_eq_none_iff]
      exact next?_eq_none_iff

/-- An open comment behind a character of two bytes is all that is left. -/
theorem tokens_end_openComment : String.Pos.Raw.IsValid "é/*" ⟨2⟩ ∧
    ∃ offset, (nextToken "é/*").run 2 = some ((none : Option (Token Double)), offset) := by
  have hvalid : String.Pos.Raw.IsValid ("é" ++ "/*") ⟨"é".utf8ByteSize⟩ := isValid_append _ _
  have hsize : "é".utf8ByteSize = 2 := by decide
  rw [hsize] at hvalid
  obtain ⟨text, token?, offset', htext, hrun, -, -, hnone⟩ :=
    (tokens_end (K := Double) "é/*").2.2 2 hvalid
  have hcut : textFrom? ("é" ++ "/*") 2 = some "/*" := by
    rw [← hsize]
    exact textFrom?_append "é" "/*"
  obtain rfl : text = "/*" := Option.some.inj (htext.symm.trans hcut)
  refine ⟨hvalid, offset', ?_⟩
  rw [hrun, hnone.2 (.unclosed isCommentBody_nil)]

end CssColor.Token.Reader
