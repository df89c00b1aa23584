import CssColor.Proofs.Number.LongestNumeral
import CssColor.Proofs.Token.Comments
import CssColor.Proofs.Token.Neighbours
import CssColor.Proofs.Token.Reader

/-!
# Parts of tokens by byte offsets

What is left of a source is a text that it ends with, and the offset of such a text lies between two
characters (`offsetOf`). A step of `Reader` goes from one such text to another (`Reader.Reads`).
Steps compose (`Reader.Reads.bind`), and a loop reads what its rounds read (`Reader.reads_loop`). So
each part of a token is taken as its namesake on lists of characters takes it: comments, lookahead,
names, strings and numerals (`Reader.reads_takeNumeral`).
-/

namespace CssColor.Token

/-! ## Offsets -/

/-- The end of the front part of a text is one of its positions. -/
theorem isValid_append (before text : String) :
    String.Pos.Raw.IsValid (before ++ text) ⟨before.utf8ByteSize⟩ :=
  String.Pos.Raw.isValid_iff_exists_append.2 ⟨before, text, rfl, rfl⟩

/-- The text from the end of its front part on is the rest. -/
theorem textFrom?_append (before text : String) :
    textFrom? (before ++ text) before.utf8ByteSize = some text := by
  have hsplits : (⟨⟨before.utf8ByteSize⟩, isValid_append before text⟩ :
      (before ++ text).Pos).Splits before text := ⟨rfl, rfl⟩
  rw [textFrom?, dif_pos (isValid_append before text), hsplits.copy_sliceFrom_eq]

/-- The text up to the end of its front part is that part. -/
theorem textTo?_append (before text : String) :
    textTo? (before ++ text) before.utf8ByteSize = some before := by
  have hsplits : (⟨⟨before.utf8ByteSize⟩, isValid_append before text⟩ :
      (before ++ text).Pos).Splits before text := ⟨rfl, rfl⟩
  rw [textTo?, dif_pos (isValid_append before text), hsplits.copy_sliceTo_eq]

/-- The offset of a text that the source ends with. -/
def offsetOf (source : String) (text : List Char) : Nat :=
  source.utf8ByteSize - String.utf8Len text

/-- The offset of the rest is the size of what stands in front of it. -/
theorem offsetOf_append_right (before text : String) :
    offsetOf (before ++ text) text.toList = before.utf8ByteSize := by
  rw [offsetOf, String.utf8ByteSize_append, ← String.utf8ByteSize_ofList, String.ofList_toList,
    Nat.add_sub_cancel]

namespace Reader

variable {source : String} {text rest mid : List Char} {c : Char}

/-- The source is cut in front of a text that it ends with. -/
theorem exists_append (h : text <:+ source.toList) : ∃ before,
    source = before ++ String.ofList text ∧ offsetOf source text = before.utf8ByteSize := by
  obtain ⟨before, hbefore⟩ := h
  have hsource : source = String.ofList before ++ String.ofList text := by
    rw [← String.ofList_append, hbefore, String.ofList_toList]
  refine ⟨String.ofList before, hsource, ?_⟩
  have hoffset := offsetOf_append_right (String.ofList before) (String.ofList text)
  rwa [String.toList_ofList, ← hsource] at hoffset

/-- A character moves the offset by its size. -/
theorem offsetOf_cons (h : c :: rest <:+ source.toList) :
    offsetOf source rest = offsetOf source (c :: rest) + c.utf8Size := by
  obtain ⟨before, hsource, hoffset⟩ := exists_append h
  have hsize := congrArg String.utf8ByteSize hsource
  rw [String.utf8ByteSize_append, String.utf8ByteSize_ofList, String.utf8Len_cons] at hsize
  rw [hoffset, offsetOf]
  omega

/-- A reader at a text that the source ends with gives a value and stops at such a text. -/
structure Reads {α : Type} (source : String) (reader : Reader α) (text : List Char) (a : α)
    (rest : List Char) : Prop where
  suffix : rest <:+ source.toList
  run_eq : reader.run (offsetOf source text) = some (a, offsetOf source rest)

section Reads

variable {α β : Type} {reader : Reader α} {a : α} {b : β}

/-- A value that is given without reading anything leaves the offset. -/
theorem reads_pure (h : text <:+ source.toList) : Reads source (pure a : Reader α) text a text :=
  ⟨h, rfl⟩

/-- A cut that succeeds. -/
theorem reads_liftM (h : text <:+ source.toList) (a : α) :
    Reads source (liftM (some a) : Reader α) text a text :=
  ⟨h, rfl⟩

/-- What one reader leaves is read by the next. -/
theorem Reads.bind {next : α → Reader β} (h : Reads source reader text a mid)
    (hnext : Reads source (next a) mid b rest) : Reads source (reader >>= next) text b rest where
  suffix := hnext.suffix
  run_eq := by
    rw [StateT.run_bind, h.run_eq]
    exact hnext.run_eq

/-- A value that is changed after it has been read. -/
theorem Reads.map {f : α → β} (h : Reads source reader text a rest) :
    Reads source (reader >>= fun a => pure (f a)) text (f a) rest :=
  h.bind (reads_pure h.suffix)

end Reads

/-! ## Steps -/

/-- A reader may move the offset itself, if it moves it to the place where the rest starts. -/
theorem reads_modify {f : Nat → Nat} (h : rest <:+ source.toList)
    (hf : f (offsetOf source text) = offsetOf source rest) : Reads source (modify f) text () rest :=
  ⟨h, congrArg (fun offset => some ((), offset)) hf⟩

/-- The offset of the reader is that of the text that is left. -/
theorem reads_get (h : text <:+ source.toList) :
    Reads source get text (offsetOf source text) text :=
  ⟨h, rfl⟩

/-- The text behind the offset is what is left. -/
theorem reads_remaining (h : text <:+ source.toList) :
    Reads source (remaining source) text (String.ofList text) text where
  suffix := h
  run_eq := by
    obtain ⟨before, hsource, hoffset⟩ := exists_append h
    have hcut : textFrom? source (offsetOf source text) = some (String.ofList text) := by
      rw [hoffset]
      conv_lhs => rw [hsource]
      exact textFrom?_append _ _
    show (textFrom? source (offsetOf source text)).bind _ = _
    rw [hcut]
    rfl

/-- The text in front of the offset is what has been taken. -/
theorem reads_taken {before : List Char} (h : source.toList = before ++ text) :
    Reads source (taken source) text (String.ofList before) text where
  suffix := ⟨before, h.symm⟩
  run_eq := by
    obtain ⟨before', hsource, hoffset⟩ := exists_append ⟨before, h.symm⟩
    -- What stands in front is determined by what is left.
    have hbefore : before' = String.ofList before := by
      have hlist := congrArg String.toList hsource
      rw [h, String.toList_append, String.toList_ofList] at hlist
      rw [List.append_cancel_right hlist, String.ofList_toList]
    have hcut : textTo? source (offsetOf source text) = some (String.ofList before) := by
      rw [hoffset, ← hbefore]
      conv_lhs => rw [hsource]
      exact textTo?_append _ _
    show (textTo? source (offsetOf source text)).bind _ = _
    rw [hcut]
    rfl

/-- Looking ahead gives a character by its index and takes nothing. -/
theorem reads_peek (h : text <:+ source.toList) (n : Nat) :
    Reads source (peek source n) text text[n]? text := by
  have hread := (reads_remaining h).map (f := fun text => text.toList[n]?)
  rwa [String.toList_ofList] at hread

/-- At the end there is no next character. -/
theorem reads_next_nil (h : [] <:+ source.toList) : Reads source (next source) [] none [] :=
  (reads_peek h 0).bind (reads_pure h)

/-- The next character is taken off. -/
theorem reads_next_cons (h : c :: rest <:+ source.toList) :
    Reads source (next source) (c :: rest) (some c) rest := by
  refine (reads_peek h 0).bind ?_
  refine ⟨(List.suffix_cons c rest).trans h, ?_⟩
  rw [offsetOf_cons h]
  rfl

/-- A character that has been taken can be put back. -/
theorem reads_stepBack (h : c :: rest <:+ source.toList) :
    Reads source (stepBack source) rest () (c :: rest) := by
  obtain ⟨before, hbefore⟩ := h
  have hsource : source.toList = (before ++ [c]) ++ rest := by
    rw [List.append_assoc]
    exact hbefore.symm
  refine (reads_taken hsource).bind ?_
  rw [String.toList_ofList, List.getLast?_append_of_ne_nil _ (by simp)]
  refine reads_modify ⟨before, hbefore⟩ ?_
  rw [offsetOf_cons ⟨before, hbefore⟩]
  exact Nat.add_sub_cancel _ _

/-- A number of characters is taken off, or everything if there are too few. -/
theorem reads_advance (h : text <:+ source.toList) (n : Nat) :
    Reads source (advance source n) text () (text.drop n) := by
  induction n generalizing text with
  | zero => exact reads_pure h
  | succ n ih =>
    cases text with
    | nil => exact (reads_next_nil h).bind (reads_pure h)
    | cons c rest => exact (reads_next_cons h).bind (ih ((List.suffix_cons c rest).trans h))

/-! ## Loops -/

/-- Every character takes a byte at least. -/
theorem length_le_utf8Len (text : List Char) : text.length ≤ String.utf8Len text := by
  induction text with
  | nil => exact Nat.le_refl 0
  | cons c text ih =>
    rw [List.length_cons, String.utf8Len_cons]
    exact Nat.add_le_add ih (Char.utf8Size_pos c)

section Loops

variable {α : Type} {step : Reader α → Reader α}

/-- A loop reads what one round reads of any text, where what comes after the round is known to be
read of the shorter ones. How many rounds are allowed does not matter, if they are more than the
characters that are left. -/
theorem reads_rounds (read : List Char → α × List Char)
    (hstep : ∀ {again : Reader α} {text : List Char}, text <:+ source.toList →
      (∀ {rest : List Char}, rest <:+ source.toList → rest.length < text.length →
        Reads source again rest (read rest).1 (read rest).2) →
      Reads source (step again) text (read text).1 (read text).2)
    {n : Nat} (hn : text.length < n) (h : text <:+ source.toList) :
    Reads source (rounds step n) text (read text).1 (read text).2 := by
  -- A round leaves less text, so the rounds that are left stay more than the characters.
  induction n generalizing text with
  | zero => exact absurd hn (Nat.not_lt_zero _)
  | succ n ih =>
    refine hstep h fun hrest hlength => ih ?_ hrest
    exact Nat.lt_of_lt_of_le hlength (Nat.le_of_lt_succ hn)

/-- A loop reads what a function takes off a text, if each of its rounds does so under the
assumption that the loop does on every shorter text. -/
theorem reads_loop (read : List Char → α × List Char)
    (hstep : ∀ {again : Reader α} {text : List Char}, text <:+ source.toList →
      (∀ {rest : List Char}, rest <:+ source.toList → rest.length < text.length →
        Reads source again rest (read rest).1 (read rest).2) →
      Reads source (step again) text (read text).1 (read text).2)
    (h : text <:+ source.toList) :
    Reads source (loop source step) text (read text).1 (read text).2 := by
  refine reads_rounds read hstep (Nat.lt_succ_of_le ?_) h
  calc text.length ≤ source.toList.length := h.length_le
    _ ≤ String.utf8Len source.toList := length_le_utf8Len _
    _ = source.utf8ByteSize := String.utf8Len_toList source

end Loops

/-- Characters are skipped as long as they pass a test. -/
theorem reads_skipWhile (h : text <:+ source.toList) (test : Char → Bool) :
    Reads source (skipWhile source test) text () (text.dropWhile test) := by
  refine reads_loop (fun text => ((), text.dropWhile test)) ?_ h
  intro again text h ih
  refine (reads_peek h 0).bind ?_
  cases text with
  | nil => exact reads_pure h
  | cons c rest =>
    have hrest := (List.suffix_cons c rest).trans h
    show Reads source (if test c = true then _ else _) _ _ _
    by_cases hc : test c = true
    · rw [List.dropWhile_cons_of_pos hc, if_pos hc]
      exact (reads_advance h 1).bind (ih hrest (Nat.lt_succ_self _))
    · rw [List.dropWhile_cons_of_neg hc, if_neg hc]
      exact reads_pure h

/-! ## Comments -/

/-- The end of a comment is found where its body ends. -/
theorem commentEnd?_append {body : List Char} (h : IsCommentBody body) (rest : List Char) :
    commentEnd? (body ++ '*' :: '/' :: rest) = some (String.utf8Len body) := by
  induction body with
  | nil => rfl
  | cons c body ih =>
    obtain ⟨hfirst, hbody⟩ := isCommentBody_cons_iff.1 h
    rw [List.cons_append, commentEnd?, ih hbody, Option.map_some, String.utf8Len_cons, Nat.add_comm]
    rintro rest' rfl heq
    refine hfirst ⟨rfl, ?_⟩
    cases body with
    | nil => cases (List.cons.inj heq).1
    | cons c' body => exact congrArg some (List.cons.inj heq).1

/-- In a body that no comment ends, no end is found. -/
theorem commentEnd?_of_isCommentBody (h : IsCommentBody text) : commentEnd? text = none := by
  induction text with
  | nil => rfl
  | cons c text ih =>
    obtain ⟨hfirst, hbody⟩ := isCommentBody_cons_iff.1 h
    rw [commentEnd?, ih hbody, Option.map_none]
    rintro rest rfl rfl
    exact hfirst ⟨rfl, rfl⟩

/-- A text moves the offset by its size. -/
theorem offsetOf_append (h : text ++ rest <:+ source.toList) :
    offsetOf source rest = offsetOf source (text ++ rest) + String.utf8Len text := by
  induction text with
  | nil => rfl
  | cons c text ih =>
    have htext : text ++ rest <:+ source.toList := (List.suffix_cons c _).trans h
    have hcons :
        offsetOf source (text ++ rest) = offsetOf source (c :: text ++ rest) + c.utf8Size :=
      offsetOf_cons h
    rw [ih htext, hcons, String.utf8Len_cons]
    omega

/-- Comments are skipped as in the grammar on lists, one after the other. -/
theorem reads_skipComments (h : text <:+ source.toList) :
    Reads source (skipComments source) text () (Token.skipComments text) := by
  refine reads_loop (fun text => ((), Token.skipComments text)) ?_ h
  intro again text h ih
  refine (reads_remaining h).bind ?_
  rw [String.toList_ofList]
  by_cases hcomment : ∃ rest, text = '/' :: '*' :: rest
  · obtain ⟨rest, rfl⟩ := hcomment
    have hskip : Token.skipComments ('/' :: '*' :: rest) = skipComment rest := by
      rw [Token.skipComments]
    have hcut : textFrom? (String.ofList ('/' :: '*' :: rest)) 2 = some (String.ofList rest) := by
      have hsplit : String.ofList ('/' :: '*' :: rest) = "/*" ++ String.ofList rest := by
        rw [← String.ofList_toList (s := "/*"), ← String.ofList_append]
        rfl
      rw [hsplit]
      exact textFrom?_append "/*" _
    rw [if_pos (by rfl), hskip, hcut]
    refine (reads_liftM h _).bind ?_
    rw [String.toList_ofList]
    -- A comment that is never closed is left by a jump to the end of the source, any other one by
    -- its length.
    rcases isCommentBody_or rest with hbody | ⟨body, rest, hbody, rfl⟩
    · have hend : Reads source (set source.utf8ByteSize) ('/' :: '*' :: rest) () [] :=
        reads_modify (f := fun _ => source.utf8ByteSize) List.nil_suffix rfl
      rw [commentEnd?_of_isCommentBody hbody, skipComment_of_isCommentBody hbody]
      exact hend.bind (ih List.nil_suffix (Nat.succ_pos _))
    · have htext : '/' :: '*' :: (body ++ '*' :: '/' :: rest) = comment body ++ rest := by
        rw [comment]
        simp only [List.cons_append, List.append_assoc, List.nil_append]
      have hsize : String.utf8Len (comment body) = String.utf8Len body + 4 := by
        rw [comment, String.utf8Len_cons, String.utf8Len_cons, String.utf8Len_append]
        rfl
      have hlength : rest.length < (comment body ++ rest).length := by
        rw [List.length_append, comment, List.length_cons]
        omega
      rw [htext] at h ih ⊢
      have hrest : rest <:+ source.toList := (List.suffix_append _ _).trans h
      rw [commentEnd?_append hbody, skipComment_append hbody]
      refine (reads_modify hrest ?_).bind (ih hrest hlength)
      rw [offsetOf_append h, hsize]
  · -- The text does not start with a comment.
    have hskip : Token.skipComments text = text := by
      rw [Token.skipComments]
      rintro rest rfl
      exact hcomment ⟨rest, rfl⟩
    rw [hskip, if_neg]
    · exact reads_pure h
    · intro hprefix
      obtain ⟨rest, hrest⟩ := List.isPrefixOf_iff_prefix.1 hprefix
      exact hcomment ⟨rest, hrest.symm⟩

/-! ## Lookahead -/

/-- Only a backslash starts an escape. -/
theorem isEscape_of_ne (hback : c ≠ '\\') (second : Option Char) :
    isEscape (some c) second = false := by
  rw [isEscape, beq_eq_false_iff_ne.2 fun heq => hback (Option.some.inj heq), Bool.false_and]

/-- Whether a backslash starts an escape depends on the character behind it. -/
theorem isEscape_back (rest : List Char) : isEscape (some '\\') rest[0]? = isEscapeTail rest := by
  cases rest with
  | nil => rfl
  | cons c rest => rfl

/-- An escape is told by the first two characters. -/
theorem isEscape_eq (text : List Char) : isEscape text[0]? text[1]? = Token.startsEscape text := by
  cases text with
  | nil => rfl
  | cons c rest =>
    by_cases hback : c = '\\'
    · subst hback
      exact isEscape_back rest
    · rw [Token.startsEscape]
      · exact isEscape_of_ne hback _
      · rintro rest' heq
        exact hback (List.cons.inj heq).1

/-- The test for an escape looks at the two characters that come next. -/
theorem reads_startsEscape (h : text <:+ source.toList) :
    Reads source (startsEscape source) text (Token.startsEscape text) text := by
  rw [← isEscape_eq]
  exact (reads_peek h 0).bind ((reads_peek h 1).map (f := fun second => isEscape text[0]? second))

/-- The test for a name looks at up to three characters, as the function on lists does. -/
theorem reads_startsName (h : text <:+ source.toList) :
    Reads source (startsName source) text (Token.startsName text) text := by
  refine (reads_peek h 0).bind ?_
  cases text with
  | nil => exact reads_pure h
  | cons c rest =>
    by_cases hdash : c = '-'
    · subst hdash
      refine (reads_peek h 1).bind ?_
      cases rest with
      -- A dash at the end is no name, whatever the third character is said to be.
      | nil => exact (reads_peek h 2).map (f := fun third => isEscape none third)
      | cons c rest =>
        show Reads source (if (isNameStart c || c == '-') = true then pure true
          else peek source 2 >>= fun third => pure (isEscape (some c) third)) _ _ _
        by_cases hdash' : c = '-'
        · -- Two dashes.
          subst hdash'
          exact reads_pure h
        by_cases hback : c = '\\'
        · -- A dash and what may be an escape.
          subst hback
          have hvalue : Token.startsName ('-' :: '\\' :: rest) = isEscape (some '\\') rest[0]? :=
            (isEscape_back rest).symm
          rw [if_neg (by decide), hvalue]
          exact (reads_peek h 2).map
        · -- A dash and any other character.
          rw [Token.startsName.eq_3 _ _ hdash' hback, beq_eq_false_iff_ne.2 hdash', Bool.or_false]
          split
          · next hstart =>
            rw [hstart]
            exact reads_pure h
          · next hstart =>
            rw [Bool.not_eq_true] at hstart
            rw [hstart, ← isEscape_of_ne hback ('-' :: c :: rest)[2]?]
            exact (reads_peek h 2).map
    -- No dash: the text starts with what may be an escape, or with any other character.
    by_cases hback : c = '\\'
    · subst hback
      have hvalue : Token.startsName ('\\' :: rest) = isEscape (some '\\') rest[0]? :=
        (isEscape_back rest).symm
      rw [hvalue]
      exact (reads_peek h 1).map
    · rw [startsName_of_ne hdash hback]
      rw [List.getElem?_cons_zero]
      split
      · next heq => exact absurd (Option.some.inj heq) hdash
      · next heq => exact absurd (Option.some.inj heq) hback
      · next heq =>
        rw [← Option.some.inj heq]
        exact reads_pure h
      · next heq => cases heq

/-- The test for a digit looks at the first character. -/
theorem startsWithDigit_eq_any (text : List Char) :
    Decimal.startsWithDigit text = text[0]?.any Char.isDigit := by
  rw [startsWithDigit_eq, List.head?_eq_getElem?]

/-- A numeral without a sign is told by the first two characters. -/
theorem startsMagnitude_eq (text : List Char) : Token.startsMagnitude text =
    if text[0]? == some '.' then text[1]?.any Char.isDigit else text[0]?.any Char.isDigit := by
  cases text with
  | nil => rfl
  | cons c rest =>
    by_cases hpoint : c = '.'
    · subst hpoint
      exact startsWithDigit_eq_any rest
    · have hnot : ((c :: rest)[0]? == some '.') = false := beq_eq_false_iff_ne.2 fun heq =>
        hpoint (Option.some.inj heq)
      rw [hnot, if_neg Bool.false_ne_true, startsMagnitude_of_ne hpoint]
      rfl

/-- The test for a magnitude looks at the characters that follow the first `n`. -/
theorem reads_startsMagnitude (h : text <:+ source.toList) (n : Nat) :
    Reads source (startsMagnitude source n) text (Token.startsMagnitude (text.drop n)) text := by
  rw [startsMagnitude_eq, List.getElem?_drop, List.getElem?_drop, Nat.add_zero]
  refine (reads_peek h n).bind ?_
  split
  · exact (reads_peek h (n + 1)).map
  · exact reads_pure h

/-- A sign is taken off. -/
theorem takeSign_of_isSign (h : isSign c = true) (rest : List Char) :
    (Decimal.takeSign (c :: rest)).2 = rest := by
  rw [isSign, Bool.or_eq_true, beq_iff_eq, beq_iff_eq] at h
  rcases h with rfl | rfl <;> rfl

/-- Without a sign, nothing is taken off. -/
theorem takeSign_of_not_isSign (h : isSign c = false) (rest : List Char) :
    (Decimal.takeSign (c :: rest)).2 = c :: rest := by
  rw [isSign, Bool.or_eq_false_iff, beq_eq_false_iff_ne, beq_eq_false_iff_ne] at h
  rw [Decimal.takeSign_of_ne h.1 h.2]

/-- The test for a numeral looks behind the sign, if there is one. -/
theorem reads_startsNumeral (h : text <:+ source.toList) :
    Reads source (startsNumeral source) text (Decimal.startsNumeral text) text := by
  rw [startsNumeral_eq]
  refine (reads_peek h 0).bind ?_
  cases text with
  | nil => exact reads_startsMagnitude h 0
  | cons c rest =>
    -- A sign is passed over, and the digits are looked for one character further on.
    show Reads source (if isSign c = true then _ else _) _ _ _
    split
    · next hsign =>
      rw [takeSign_of_isSign hsign]
      exact reads_startsMagnitude h 1
    · next hsign =>
      rw [takeSign_of_not_isSign (by simpa using hsign)]
      exact reads_startsMagnitude h 0

/-! ## Names and strings -/

/-- Up to `n` hexadecimal digits are taken off, and their number is put together on the way. -/
theorem reads_takeHex (h : text <:+ source.toList) (value n : Nat) :
    Reads source (takeHex source value n) text
      (((text.take n).takeWhile isHexDigit).foldl (fun n c => n * 16 + (hexValue? c).getD 0) value)
      (text.drop ((text.take n).takeWhile isHexDigit).length) := by
  induction n generalizing text value with
  | zero => exact reads_pure h
  | succ n ih =>
    refine (reads_peek h 0).bind ?_
    cases text with
    | nil => exact reads_pure h
    | cons c rest =>
      have hrest := (List.suffix_cons c rest).trans h
      rw [List.take_succ_cons, List.getElem?_cons_zero]
      dsimp only
      -- The digits end at the first character that is none.
      cases hc : hexValue? c with
      | none =>
        rw [List.takeWhile_cons_of_neg (by simp [isHexDigit, hc])]
        exact reads_pure h
      | some digit =>
        rw [List.takeWhile_cons_of_pos (by simp [isHexDigit, hc]), List.foldl_cons, hc]
        exact (reads_advance h 1).bind (ih hrest _)

/-- One blank is dropped behind an escape. -/
theorem reads_skipBlank (h : text <:+ source.toList) :
    Reads source (skipBlank source) text () (dropBlank text) := by
  refine (reads_peek h 0).bind ?_
  cases text with
  | nil => exact reads_pure h
  | cons c rest =>
    show Reads source (if isBlank c = true then _ else _) _ _ _
    rw [dropBlank]
    split
    · exact reads_advance h 1
    · exact reads_pure h

/-- An escape is read as the function on lists reads it. -/
theorem reads_takeEscape (h : text <:+ source.toList) :
    Reads source (takeEscape source) text (Token.takeEscape text).1 (Token.takeEscape text).2 := by
  cases text with
  | nil => exact (reads_next_nil h).bind (reads_pure h)
  | cons c rest =>
    have hrest := (List.suffix_cons c rest).trans h
    refine (reads_next_cons h).bind ?_
    unfold Token.takeEscape
    rw [List.take_succ_cons]
    dsimp only
    cases hc : hexValue? c with
    -- Not a hexadecimal digit: the character stands for itself.
    | none =>
      rw [List.takeWhile_cons_of_neg (by simp [isHexDigit, hc])]
      exact reads_pure hrest
    | some digit =>
      -- The first digit has been taken, so there are five more at most.
      rw [List.takeWhile_cons_of_pos (by simp [isHexDigit, hc])]
      have hhex := reads_takeHex hrest digit 5
      have hnumber : hexNumber (c :: (rest.take 5).takeWhile isHexDigit) =
          ((rest.take 5).takeWhile isHexDigit).foldl
            (fun n c => n * 16 + (hexValue? c).getD 0) digit := by
        rw [hexNumber, List.foldl_cons, hc, Option.getD_some, Nat.zero_mul, Nat.zero_add]
      rw [← hnumber] at hhex
      exact hhex.bind ((reads_skipBlank hhex.suffix).map (f := fun _ => escapedChar _))

/-- An escape starts with a backslash. -/
theorem startsEscape_cons (c : Char) (rest : List Char) :
    Token.startsEscape (c :: rest) = (c == '\\' && isEscapeTail rest) := by
  by_cases hback : c = '\\'
  · subst hback
    rfl
  · rw [Token.startsEscape, beq_eq_false_iff_ne.2 hback, Bool.false_and]
    rintro rest' heq
    exact hback (List.cons.inj heq).1

/-- A name is read character by character and escape by escape. -/
theorem reads_takeName (h : text <:+ source.toList) :
    Reads source (takeName source) text (Token.takeName text).1 (Token.takeName text).2 := by
  refine reads_loop Token.takeName ?_ h
  intro again text h ih
  refine (reads_peek h 0).bind ?_
  fun_cases Token.takeName text with
  | case1 => exact reads_pure h
  | case2 c rest hc name after htake =>
    have hread := ih ((List.suffix_cons c rest).trans h) (Nat.lt_succ_self _)
    rw [htake] at hread
    show Reads source (if isNameChar c = true then _ else _) _ _ _
    rw [if_pos hc]
    exact (reads_advance h 1).bind hread.map
  | case3 c rest hc hescape escape name after htake =>
    have hread := reads_takeEscape ((List.suffix_cons c rest).trans h)
    have hname := ih hread.suffix (Nat.lt_succ_of_le (takeEscape_length_le rest))
    rw [htake] at hname
    show Reads source (if isNameChar c = true then _ else _) _ _ _
    rw [if_neg hc]
    refine (reads_startsEscape h).bind ?_
    rw [startsEscape_cons, if_pos hescape]
    exact (reads_advance h 1).bind (hread.bind hname.map)
  | case4 c rest hc hescape =>
    -- Neither a character of names nor an escape, so the name ends here.
    show Reads source (if isNameChar c = true then _ else _) _ _ _
    rw [if_neg hc]
    refine (reads_startsEscape h).bind ?_
    rw [startsEscape_cons, if_neg hescape]
    exact reads_pure h

/-- The content of a string is read up to its quote, to the end of the line or to the end of the
text. -/
theorem reads_takeString (h : text <:+ source.toList) (quote : Char) :
    Reads source (takeString source quote) text (Token.takeString quote text).1
      (Token.takeString quote text).2 := by
  refine reads_loop (Token.takeString quote) ?_ h
  intro again text h ih
  fun_cases Token.takeString quote text with
  | case1 => exact (reads_next_nil h).bind (reads_pure h)
  | case2 c rest hc =>
    -- The quote that ends the string is taken.
    refine (reads_next_cons h).bind ?_
    dsimp only
    rw [if_pos hc]
    exact reads_pure ((List.suffix_cons c rest).trans h)
  | case3 c rest hc hbreak =>
    -- The line break that ends the string is put back.
    refine (reads_next_cons h).bind ?_
    dsimp only
    rw [if_neg hc, if_pos hbreak]
    exact (reads_stepBack h).bind (reads_pure h)
  | case4 c hc hbreak hback =>
    -- Nothing follows the backslash.
    have hrest := (List.suffix_cons c []).trans h
    have hread := ih hrest (Nat.lt_succ_self _)
    rw [Token.takeString] at hread
    refine (reads_next_cons h).bind ?_
    dsimp only
    rw [if_neg hc, if_neg hbreak, if_pos hback]
    exact (reads_peek hrest 0).bind hread
  | case5 c hc hbreak hback after =>
    -- The backslash and the line break behind it are dropped.
    have hrest := (List.suffix_cons c _).trans h
    have hafter := (List.suffix_cons _ after).trans hrest
    refine (reads_next_cons h).bind ?_
    dsimp only
    rw [if_neg hc, if_neg hbreak, if_pos hback]
    refine (reads_peek hrest 0).bind ?_
    exact (reads_advance hrest 1).bind (ih hafter (Nat.lt_succ_of_lt (Nat.lt_succ_self _)))
  | case6 c hc hbreak hback next after hnext escape content isWhole left htake =>
    -- The backslash starts an escape.
    have hrest := (List.suffix_cons c _).trans h
    have hescape := reads_takeEscape hrest
    have hread := ih hescape.suffix (Nat.lt_succ_of_le (takeEscape_length_le (next :: after)))
    rw [htake] at hread
    refine (reads_next_cons h).bind ?_
    dsimp only
    rw [if_neg hc, if_neg hbreak, if_pos hback]
    refine (reads_peek hrest 0).bind ?_
    rw [List.getElem?_cons_zero]
    split
    · next heq => exact absurd (Option.some.inj heq) hnext
    · exact hescape.bind (hread.map (f := fun taken => (escape.1 :: taken.1, taken.2)))
    · next heq => cases heq
  | case7 c rest hc hbreak hback content isWhole left htake =>
    -- Any other character belongs to the content.
    have hread := ih ((List.suffix_cons c rest).trans h) (Nat.lt_succ_self _)
    rw [htake] at hread
    refine (reads_next_cons h).bind ?_
    dsimp only
    rw [if_neg hc, if_neg hbreak, if_neg hback]
    exact hread.map (f := fun taken => (c :: taken.1, taken.2))

/-! ## Numerals -/

/-- A sign is skipped if there is one. -/
theorem reads_skipSign (h : text <:+ source.toList) :
    Reads source (skipSign source) text () (Decimal.takeSign text).2 := by
  refine (reads_peek h 0).bind ?_
  cases text with
  | nil => exact reads_pure h
  | cons c rest =>
    show Reads source (if isSign c = true then _ else _) _ _ _
    split
    · next hsign =>
      rw [takeSign_of_isSign hsign]
      exact reads_advance h 1
    · next hsign =>
      rw [takeSign_of_not_isSign (by simpa using hsign)]
      exact reads_pure h

/-- Past the first digit the others follow. -/
theorem takeDigits_of_startsWithDigit (h : Decimal.startsWithDigit text = true) :
    (Decimal.takeDigits text).2 = (text.drop 1).dropWhile Char.isDigit := by
  cases text with
  | nil => cases h
  | cons c rest => exact List.dropWhile_cons_of_pos h

/-- A fraction is skipped if a digit follows the point. -/
theorem reads_skipFraction (h : text <:+ source.toList) :
    Reads source (skipFraction source) text () (Decimal.takeFraction text).2 := by
  refine (reads_peek h 0).bind ((reads_peek h 1).bind ?_)
  by_cases hpoint : ∃ rest, text = '.' :: rest ∧ Decimal.startsWithDigit rest = true
  · obtain ⟨rest, rfl, hdigit⟩ := hpoint
    have hcondition :
        (('.' :: rest)[0]? == some '.' && ('.' :: rest)[1]?.any Char.isDigit) = true :=
      (startsWithDigit_eq_any rest).symm.trans hdigit
    have hread := reads_advance h 2
    -- The point is taken together with the first digit.
    rw [if_pos hcondition, Decimal.takeFraction, if_pos hdigit,
      takeDigits_of_startsWithDigit hdigit]
    exact hread.bind (reads_skipWhile hread.suffix Char.isDigit)
  · -- Otherwise the point, if there is one, is left in place.
    have hcondition : ¬ (text[0]? == some '.' && text[1]?.any Char.isDigit) = true := by
      rw [Bool.and_eq_true, beq_iff_eq]
      rintro ⟨hfirst, hsecond⟩
      cases text with
      | nil => cases hfirst
      | cons c rest =>
        cases Option.some.inj hfirst
        exact hpoint ⟨rest, rfl, (startsWithDigit_eq_any rest).trans hsecond⟩
    have hnone : Decimal.takeFraction text = ([], text) := by
      refine Decimal.takeFraction_of_not fun rest heq => ?_
      by_contra hdigit
      exact hpoint ⟨rest, heq, by simpa using hdigit⟩
    rw [if_neg hcondition, hnone]
    exact reads_pure h

/-- What is left behind an exponent, by the letter and the sign that it starts with. -/
theorem takeExponent_snd (c : Char) (rest : List Char) : (Decimal.takeExponent (c :: rest)).2 =
    if (c == 'e' || c == 'E') && Decimal.startsWithDigit (Decimal.takeSign rest).2 then
      ((Decimal.takeSign rest).2.drop 1).dropWhile Char.isDigit
    else c :: rest := by
  rw [Decimal.takeExponent]
  dsimp only
  split
  · next hcondition =>
    exact takeDigits_of_startsWithDigit ((Bool.and_eq_true _ _).mp hcondition).2
  · rfl

/-- An exponent is skipped if a digit follows its letter, with or without a sign between them. -/
theorem reads_skipExponent (h : text <:+ source.toList) :
    Reads source (skipExponent source) text () (Decimal.takeExponent text).2 := by
  refine (reads_peek h 0).bind ?_
  cases text with
  | nil => exact reads_pure h
  | cons c rest =>
    rw [takeExponent_snd]
    show Reads source (if (c == 'e' || c == 'E') = true then do
        let second ← peek source 1
        if second.any Char.isDigit then
          advance source 2
          skipWhile source Char.isDigit
        else if second.any isSign && (← peek source 2).any Char.isDigit then
          advance source 3
          skipWhile source Char.isDigit
      else return ()) _ _ _
    by_cases hletter : (c == 'e' || c == 'E') = true
    · rw [if_pos hletter, hletter, Bool.true_and]
      refine (reads_peek h 1).bind ?_
      cases rest with
      -- A letter at the end starts no exponent.
      | nil => exact (reads_peek h 2).bind (reads_pure h)
      | cons c' more =>
        show Reads source (if c'.isDigit = true then do
            advance source 2
            skipWhile source Char.isDigit
          else do
            if isSign c' && (← peek source 2).any Char.isDigit then
              advance source 3
              skipWhile source Char.isDigit) _ _ _
        by_cases hdigit : c'.isDigit = true
        · -- A digit follows the letter.
          have hread := reads_advance h 2
          rw [if_pos hdigit, Decimal.takeSign_of_isDigit hdigit, if_pos (by exact hdigit)]
          exact hread.bind (reads_skipWhile hread.suffix Char.isDigit)
        rw [if_neg hdigit]
        -- The third character is looked at with or without a sign, and counts only behind one.
        refine (reads_peek h 2).bind ?_
        by_cases hsign : isSign c' = true
        · rw [hsign, takeSign_of_isSign hsign, startsWithDigit_eq_any, Bool.true_and]
          show Reads source (if more[0]?.any Char.isDigit = true then _ else _) _ _ _
          split
          · have hread := reads_advance h 3
            exact hread.bind (reads_skipWhile hread.suffix Char.isDigit)
          · exact reads_pure h
        · rw [Bool.not_eq_true] at hsign
          rw [hsign, Bool.false_and, if_neg Bool.false_ne_true, takeSign_of_not_isSign hsign,
            if_neg (by exact hdigit)]
          exact reads_pure h
    · -- No exponent starts here.
      rw [if_neg hletter, if_neg (by simp [hletter])]
      exact reads_pure h

variable {K : Type} [Scalar K]

/-- A numeral is read between its offsets as the decimal that is taken off the text, and never
falls back on what is not a number. -/
theorem reads_takeNumeral (h : text <:+ source.toList)
    (hstart : Decimal.startsNumeral text = true) :
    Reads source (takeNumeral source) text ((Decimal.scan text).1.toNumber : K)
      (Decimal.scan text).2 := by
  have hsign := reads_skipSign h
  have hwhole := reads_skipWhile hsign.suffix Char.isDigit
  have hfraction := reads_skipFraction hwhole.suffix
  have hexponent := reads_skipExponent hfraction.suffix
  -- The value is that of the text of the numeral, which the two cuts have to give.
  obtain ⟨numeral, hgrammar, htext, hscan⟩ := Decimal.exists_scan hstart
  have hnumber : Scalar.ofText (String.ofList numeral) =
      .ok ((Decimal.scan text).1.toNumber : K) :=
    Scalar.ofText_of_scan (Decimal.startsNumeral_iff.2 ⟨numeral, hgrammar, List.prefix_rfl⟩) hscan
  obtain ⟨before, hbefore⟩ := h
  have hsource : source.toList = (before ++ numeral) ++ (Decimal.scan text).2 := by
    rw [List.append_assoc, ← htext, hbefore]
  -- Cut off behind the numeral, the source has it at its end, so the second cut is behind a text
  -- that the first one has left whole.
  have hcut : textFrom? (String.ofList (before ++ numeral)) (offsetOf source text) =
      some (String.ofList numeral) := by
    have hstart : offsetOf source text = (String.ofList before).utf8ByteSize := by
      obtain ⟨before', hsplit, hoffset⟩ := exists_append ⟨before, hbefore⟩
      have hlist := congrArg String.toList hsplit
      rw [← hbefore, String.toList_append, String.toList_ofList] at hlist
      rw [hoffset, List.append_cancel_right hlist, String.ofList_toList]
    rw [hstart, String.ofList_append]
    exact textFrom?_append _ _
  refine (reads_get ⟨before, hbefore⟩).bind (hsign.bind (hwhole.bind (hfraction.bind
    (hexponent.bind ((reads_taken hsource).bind ?_)))))
  rw [hcut]
  refine (reads_liftM hexponent.suffix _).bind ?_
  rw [hnumber]
  exact reads_pure hexponent.suffix

end Reader

end CssColor.Token
