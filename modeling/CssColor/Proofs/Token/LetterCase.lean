import CssColor.Proofs.Token.Reading
import Mathlib

/-!
# Letter case in tokens

Splitting a text into tokens and lowering the letters of the names in them gives the same for all
spellings of the text (`Token.scan_foldCase`). A rule is blind to case (`Rule.CaseBlind`) if
lowering its tokens changes neither its value nor how many tokens it takes; the rule combinators
keep this.
-/

namespace CssColor.Token

/-! ## Characters -/

/-- The capital letters. -/
def capitals : List Char := "ABCDEFGHIJKLMNOPQRSTUVWXYZ".toList

/-- A character that is upper case is one of the capitals. -/
theorem mem_capitals {c : Char} (h : c.isUpper) : c ∈ capitals := by
  have hall : ∀ n ∈ List.range' 65 26, Char.ofNat n ∈ capitals := by decide
  rw [← Char.ofNat_toNat c]
  refine hall c.toNat (List.mem_range'_1.2 ?_)
  simpa [Char.isUpper, UInt32.le_iff_toNat_le, ← Char.toNat_val, Nat.lt_succ_iff] using h

/-- Only capitals are changed to lower case. -/
theorem toLower_of_not_isUpper {c : Char} (h : c.isUpper = false) : c.toLower = c := by
  refine dif_neg fun hrange => ?_
  have hupper : c.isUpper = true := decide_eq_true hrange
  rw [h] at hupper
  cases hupper

/-- A property that can be tested holds of all characters of a list if the tests say so. -/
theorem forall_mem_of_all {P : Char → Prop} [DecidablePred P] {chars : List Char}
    (h : (chars.all fun c => decide (P c)) = true) : ∀ c ∈ chars, P c :=
  fun c hc => of_decide_eq_true (List.all_eq_true.1 h c hc)

/-- What is the same for each capital letter and its small one is the same for every character and
its lower case. -/
theorem apply_toLower {α : Type} (p : Char → α) (h : ∀ c ∈ capitals, p c.toLower = p c) (c : Char) :
    p c.toLower = p c := by
  cases hupper : c.isUpper with
  | true => exact h c (mem_capitals hupper)
  | false => rw [toLower_of_not_isUpper hupper]

/-- A second change to lower case does nothing. -/
@[simp] theorem toLower_toLower (c : Char) : c.toLower.toLower = c.toLower :=
  apply_toLower Char.toLower (forall_mem_of_all (by decide)) c

/-- Whether a character is a digit does not depend on its case. -/
@[simp] theorem isDigit_toLower (c : Char) : c.toLower.isDigit = c.isDigit :=
  apply_toLower Char.isDigit (forall_mem_of_all (by decide)) c

/-- Whether a character is a blank does not depend on its case. -/
@[simp] theorem isBlank_toLower (c : Char) : isBlank c.toLower = isBlank c :=
  apply_toLower isBlank (forall_mem_of_all (by decide)) c

/-- Whether a name may start with a character does not depend on its case. -/
@[simp] theorem isNameStart_toLower (c : Char) : isNameStart c.toLower = isNameStart c :=
  apply_toLower isNameStart (forall_mem_of_all (by decide)) c

/-- Whether a name may go on with a character does not depend on its case. -/
@[simp] theorem isNameChar_toLower (c : Char) : isNameChar c.toLower = isNameChar c :=
  apply_toLower isNameChar (forall_mem_of_all (by decide)) c

/-- A hexadecimal digit has the same value in either case. -/
@[simp] theorem hexValue?_toLower (c : Char) : hexValue? c.toLower = hexValue? c :=
  apply_toLower hexValue? (forall_mem_of_all (by decide)) c

/-- Whether a character is a hexadecimal digit does not depend on its case. -/
@[simp] theorem isHexDigit_toLower (c : Char) : isHexDigit c.toLower = isHexDigit c := by
  unfold isHexDigit
  rw [hexValue?_toLower]

/-- Only a letter has another lower case than itself or is the lower case of another character. -/
theorem toLower_eq_iff {c sign : Char} (h : sign.isAlpha = false) : c.toLower = sign ↔ c = sign := by
  have hletters : ∀ c ∈ capitals, c.toLower.isAlpha = true ∧ c.isAlpha = true :=
    forall_mem_of_all (by decide)
  have hsame : (c.toLower = sign) = (c = sign) := by
    refine apply_toLower (fun c => c = sign) (fun c hc => ?_) c
    obtain ⟨hlower, hupper⟩ := hletters c hc
    have hne : c.toLower ≠ sign := fun e => by simp [e, h] at hlower
    have hne' : c ≠ sign := fun e => by simp [e, h] at hupper
    simp only [hne, hne']
  rw [hsame]

/-- A test for a sign that is not a letter does not depend on the case. -/
theorem toLower_beq {c sign : Char} (h : sign.isAlpha = false) :
    (c.toLower == sign) = (c == sign) := by
  rw [Bool.eq_iff_iff, beq_iff_eq, beq_iff_eq, toLower_eq_iff h]

/-- Digits have no case. -/
theorem toLower_of_isDigit {c : Char} (h : c.isDigit) : c.toLower = c := by
  have hletters : ∀ c ∈ capitals, c.isDigit = false :=
    forall_mem_of_all (by decide)
  refine toLower_of_not_isUpper (Bool.eq_false_iff.2 fun hupper => ?_)
  rw [hletters c (mem_capitals hupper)] at h
  cases h

/-- A character that cannot start a name is not a letter, so it has no case. -/
theorem toLower_of_not_isNameStart {c : Char} (h : isNameStart c = false) : c.toLower = c := by
  have hletters : ∀ c ∈ capitals, isNameStart c = true :=
    forall_mem_of_all (by decide)
  refine toLower_of_not_isUpper (Bool.eq_false_iff.2 fun hupper => ?_)
  rw [hletters c (mem_capitals hupper)] at h
  cases h

/-! ## Texts -/

/-- A text with its ASCII letters in lower case. -/
def foldCase (text : List Char) : List Char := text.map Char.toLower

/-- The empty text has no letters. -/
@[simp] theorem foldCase_nil : foldCase [] = [] := rfl

/-- A text is changed character by character. -/
@[simp] theorem foldCase_cons (c : Char) (rest : List Char) :
    foldCase (c :: rest) = c.toLower :: foldCase rest := rfl

/-- A text keeps its length in lower case. -/
@[simp] theorem length_foldCase (text : List Char) : (foldCase text).length = text.length :=
  List.length_map _

/-- Strings are the same in lower case if their characters are. -/
theorem toLower_eq_toLower_iff {a b : String} :
    a.toLower = b.toLower ↔ foldCase a.toList = foldCase b.toList := by
  rw [← String.toList_inj, String.toLower, String.toLower, String.toList_map, String.toList_map]
  rfl

/-- A string in lower case has the characters of the text in lower case. -/
theorem toLower_ofList (text : List Char) :
    (String.ofList text).toLower = String.ofList (foldCase text) := by
  rw [← String.toList_inj, String.toLower, String.toList_map, String.toList_ofList,
    String.toList_ofList, foldCase]

/-- A second change of a string to lower case does nothing. -/
@[simp] theorem toLower_toLower_text (name : String) : name.toLower.toLower = name.toLower := by
  rw [← String.toList_inj]
  simp only [String.toLower, String.toList_map, List.map_map, Function.comp_def, toLower_toLower]

/-- A sign in front of the lowered text is a sign in front of the text. -/
theorem eq_cons_of_foldCase {text rest : List Char} {sign : Char} (hsign : sign.isAlpha = false)
    (h : foldCase text = sign :: rest) : ∃ rest', text = sign :: rest' ∧ foldCase rest' = rest := by
  obtain ⟨c, rest', rfl, hc, hrest⟩ := List.map_eq_cons_iff.1 h
  rw [toLower_eq_iff hsign] at hc
  exact ⟨rest', by rw [hc], hrest⟩

/-- A text that does not start with a sign does not start with it in lower case either. -/
theorem foldCase_ne_cons {text : List Char} {sign : Char} (hsign : sign.isAlpha = false)
    (h : ∀ rest, text ≠ sign :: rest) (rest : List Char) : foldCase text ≠ sign :: rest := by
  intro heq
  obtain ⟨rest', htext, -⟩ := eq_cons_of_foldCase hsign heq
  exact h rest' htext

/-- The front part of a text up to where a condition fails that does not depend on the case. -/
theorem takeWhile_foldCase {p : Char → Bool} (hp : ∀ c, p c.toLower = p c) (text : List Char) :
    (foldCase text).takeWhile p = foldCase (text.takeWhile p) := by
  have hcomp : p ∘ Char.toLower = p := funext hp
  rw [foldCase, List.takeWhile_map, hcomp, foldCase]

/-- What follows that front part. -/
theorem dropWhile_foldCase {p : Char → Bool} (hp : ∀ c, p c.toLower = p c) (text : List Char) :
    (foldCase text).dropWhile p = foldCase (text.dropWhile p) := by
  have hcomp : p ∘ Char.toLower = p := funext hp
  rw [foldCase, List.dropWhile_map, hcomp, foldCase]

/-! ## Parts of tokens -/

/-- Comments are told by signs that are not letters, so they are skipped in either case. -/
theorem skipComments_foldCase (text : List Char) :
    skipComments (foldCase text) = foldCase (skipComments text) := by
  refine skipComments.induct
    (fun text => skipComments (foldCase text) = foldCase (skipComments text))
    (fun text => skipComment (foldCase text) = foldCase (skipComment text)) ?_ ?_ ?_ ?_ ?_ text
  · intro rest ih
    exact ih
  · -- No comment starts in one of the texts, so none starts in the other.
    intro text h
    rw [skipComments.eq_2 text h, skipComments.eq_2]
    intro rest hrest
    obtain ⟨rest', rfl, hrest'⟩ := eq_cons_of_foldCase rfl hrest
    obtain ⟨rest'', rfl, -⟩ := eq_cons_of_foldCase rfl hrest'
    exact h rest'' rfl
  · intro rest ih
    exact ih
  · intro c rest h ih
    -- The end of a comment is not reached yet.
    rw [skipComment.eq_2 c rest h, foldCase_cons, skipComment.eq_2 _ _ ?_, ih]
    intro rest' hc hrest
    obtain ⟨rest'', rfl, -⟩ := eq_cons_of_foldCase rfl hrest
    exact h rest'' ((toLower_eq_iff rfl).1 hc) rfl
  · rfl

/-- Whether an escape is complete does not depend on the case. -/
@[simp] theorem isEscapeTail_foldCase (text : List Char) :
    isEscapeTail (foldCase text) = isEscapeTail text := by
  cases text with
  | nil => rfl
  | cons c rest =>
    show (c.toLower != '\n') = (c != '\n')
    rw [bne, toLower_beq rfl, bne]

/-- The blank after an escape is dropped in either case. -/
@[simp] theorem dropBlank_foldCase (text : List Char) :
    dropBlank (foldCase text) = foldCase (dropBlank text) := by
  cases text with
  | nil => rfl
  | cons c rest =>
    simp only [foldCase_cons, dropBlank, isBlank_toLower]
    split <;> rfl

/-- Hexadecimal digits write the same number in either case. -/
theorem hexNumber_foldCase (digits : List Char) : hexNumber (foldCase digits) = hexNumber digits := by
  unfold hexNumber foldCase
  rw [List.foldl_map]
  simp only [hexValue?_toLower]

/-- An escape gives the same character in all spellings of a text, but for its case. -/
theorem takeEscape_foldCase (text : List Char) :
    (takeEscape (foldCase text)).1.toLower = (takeEscape text).1.toLower ∧
      (takeEscape (foldCase text)).2 = foldCase (takeEscape text).2 := by
  -- The digits are taken off in the same number.
  have hdigits : ((foldCase text).take 6).takeWhile isHexDigit =
      foldCase ((text.take 6).takeWhile isHexDigit) := by
    rw [← takeWhile_foldCase isHexDigit_toLower, foldCase, foldCase, List.map_take]
  have hempty : ∀ digits, (foldCase digits).isEmpty = digits.isEmpty := fun digits => by
    rw [foldCase, List.isEmpty_map]
  have hdrop : ∀ n, (foldCase text).drop n = foldCase (text.drop n) := fun n => by
    rw [foldCase, foldCase, List.map_drop]
  unfold takeEscape
  simp only [hdigits, hempty]
  split
  · -- Without digits, the escaped character itself may be a letter.
    cases text with
    | nil => exact ⟨rfl, rfl⟩
    | cons c rest => exact ⟨toLower_toLower c, rfl⟩
  · simp only [hexNumber_foldCase, length_foldCase, hdrop, dropBlank_foldCase, and_self]

/-- Whether an escape starts does not depend on the case. -/
theorem startsEscape_foldCase (c : Char) (rest : List Char) :
    startsEscape (foldCase (c :: rest)) = startsEscape (c :: rest) := by
  by_cases hc : c = '\\'
  · subst hc
    exact isEscapeTail_foldCase rest
  · have hlower : c.toLower ≠ '\\' := fun e => hc ((toLower_eq_iff rfl).1 e)
    rw [foldCase_cons, startsEscape.eq_2 _ (by simpa using hlower),
      startsEscape.eq_2 _ (by simpa using hc)]

/-- Whether a name goes on does not depend on the case. -/
@[simp] theorem continuesName_foldCase (text : List Char) :
    continuesName (foldCase text) = continuesName text := by
  cases text with
  | nil => rfl
  | cons c rest =>
    show (isNameChar c.toLower || startsEscape (foldCase (c :: rest))) = _
    rw [isNameChar_toLower, startsEscape_foldCase]
    rfl

/-- A name goes on with a character of names. -/
theorem takeName_of_isNameChar {c : Char} (h : isNameChar c) (rest : List Char) :
    takeName (c :: rest) = (c :: (takeName rest).1, (takeName rest).2) := by
  rw [takeName.eq_2, if_pos h]

/-- A name goes on with an escape. -/
theorem takeName_of_startsEscape {c : Char} {rest : List Char} (h : isNameChar c = false)
    (hescape : (c == '\\' && isEscapeTail rest) = true) : takeName (c :: rest) =
      ((takeEscape rest).1 :: (takeName (takeEscape rest).2).1,
        (takeName (takeEscape rest).2).2) := by
  rw [takeName.eq_2, if_neg (by simp [h]), if_pos hescape]

/-- A name ends at any other character. -/
theorem takeName_of_not_starts {c : Char} {rest : List Char} (h : isNameChar c = false)
    (hescape : (c == '\\' && isEscapeTail rest) = false) :
    takeName (c :: rest) = ([], c :: rest) := by
  rw [takeName.eq_2, if_neg (by simp [h]), if_neg (by simp [hescape])]

/-- The name in front of a text is the same in all spellings of the text, but for its case. -/
theorem takeName_foldCase (text : List Char) :
    foldCase (takeName (foldCase text)).1 = foldCase (takeName text).1 ∧
      (takeName (foldCase text)).2 = foldCase (takeName text).2 := by
  induction hlength : text.length using Nat.strongRecOn generalizing text with
  | _ n ih =>
    -- A character and an escape both leave a shorter text.
    cases text with
    | nil =>
      rw [foldCase_nil, takeName]
      exact ⟨rfl, rfl⟩
    | cons c rest =>
      rw [List.length_cons] at hlength
      rw [foldCase_cons]
      cases hc : isNameChar c with
      | true =>
        obtain ⟨hname, hrest⟩ := ih rest.length (by omega) rest rfl
        rw [takeName_of_isNameChar hc, takeName_of_isNameChar (by rw [isNameChar_toLower, hc])]
        simp only [foldCase_cons, toLower_toLower, hname, hrest, and_self]
      | false =>
        have hescape : (c.toLower == '\\' && isEscapeTail (foldCase rest)) =
            (c == '\\' && isEscapeTail rest) := by
          rw [toLower_beq rfl, isEscapeTail_foldCase]
        cases hstarts : c == '\\' && isEscapeTail rest with
        | true =>
          rw [takeName_of_startsEscape hc hstarts,
            takeName_of_startsEscape (by rw [isNameChar_toLower, hc]) (by rw [hescape, hstarts])]
          obtain ⟨hchar, hleft⟩ := takeEscape_foldCase rest
          have hshorter := takeEscape_length_le rest
          obtain ⟨hname, hrest⟩ := ih _ (by omega) (takeEscape rest).2 rfl
          simp only [foldCase_cons, hleft, hchar, hname, hrest, and_self]
        | false =>
          -- The name ends here in either case.
          rw [takeName_of_not_starts hc hstarts,
            takeName_of_not_starts (by rw [isNameChar_toLower, hc]) (by rw [hescape, hstarts])]
          exact ⟨rfl, rfl⟩

/-- The content of a string is the same in all spellings of a text, but for its case. -/
theorem takeString_foldCase {quote : Char} (hquote : quote.isAlpha = false) (text : List Char) :
    foldCase (takeString quote (foldCase text)).1.1 = foldCase (takeString quote text).1.1 ∧
      (takeString quote (foldCase text)).1.2 = (takeString quote text).1.2 ∧
      (takeString quote (foldCase text)).2 = foldCase (takeString quote text).2 := by
  -- The signs that end a string, break it or start an escape are not letters.
  have hquotes : ∀ c : Char, (c.toLower == quote) = (c == quote) := fun _ => toLower_beq hquote
  have hbreaks : ∀ c : Char, (c.toLower == '\n') = (c == '\n') := fun _ => toLower_beq rfl
  have hescapes : ∀ c : Char, (c.toLower == '\\') = (c == '\\') := fun _ => toLower_beq rfl
  fun_induction takeString quote text with
  | case1 =>
    rw [foldCase_nil, takeString.eq_1]
    exact ⟨rfl, rfl, rfl⟩
  | case2 c rest hc =>
    -- The string is closed.
    rw [foldCase_cons, takeString.eq_def]
    simp only [hquotes, hc, ↓reduceIte, and_self]
  | case3 c rest hc hbreak =>
    -- The line ends in the string.
    rw [foldCase_cons, takeString.eq_def]
    simp only [hquotes, hbreaks, hc, hbreak, Bool.false_eq_true, ↓reduceIte, and_self]
  | case4 c hc hbreak hescape =>
    -- The text ends behind a backslash.
    rw [foldCase_cons, takeString.eq_def]
    simp only [hquotes, hbreaks, hescapes, hc, hbreak, hescape, Bool.false_eq_true, ↓reduceIte,
      foldCase_nil, and_self]
  | case5 c hc hbreak hescape after ih =>
    -- A backslash in front of a line break is dropped with it.
    rw [foldCase_cons, takeString.eq_def]
    simp only [hquotes, hbreaks, hescapes, hc, hbreak, hescape, Bool.false_eq_true, ↓reduceIte,
      foldCase_cons]
    exact ih
  | case6 c hc hbreak hescape next after hnext escape content isWhole left hleft ih =>
    -- An escape, after which the string goes on.
    rw [hleft] at ih
    obtain ⟨hchar, hafter⟩ := takeEscape_foldCase (next :: after)
    have hnext' : next.toLower ≠ '\n' := fun e => hnext ((toLower_eq_iff rfl).1 e)
    rw [foldCase_cons, foldCase_cons, takeString.eq_4 _ _ _ _ hnext']
    rw [foldCase_cons] at hchar hafter
    simp only [hquotes, hbreaks, hescapes, hc, hbreak, hescape, Bool.false_eq_true, ↓reduceIte,
      foldCase_cons, hafter]
    obtain ⟨hcontent, hwhole, hrest⟩ := ih
    refine ⟨?_, hwhole, hrest⟩
    rw [hchar, hcontent]
  | case7 c rest hc hbreak hescape content isWhole left hleft ih =>
    -- Any other character belongs to the string.
    rw [hleft] at ih
    rw [foldCase_cons, takeString.eq_def]
    simp only [hquotes, hbreaks, hescapes, hc, hbreak, hescape, Bool.false_eq_true, ↓reduceIte,
      foldCase_cons, toLower_toLower]
    simpa using ih

/-- Whether a name starts does not depend on the case. -/
@[simp] theorem startsName_foldCase (text : List Char) :
    startsName (foldCase text) = startsName text := by
  fun_cases startsName text with
  | case1 => rfl
  | case2 rest => exact isEscapeTail_foldCase rest
  | case3 c rest hdash hescape =>
    -- Behind the dash, a character that is neither a dash nor a backslash.
    have hdash' : c.toLower ≠ '-' := fun e => hdash ((toLower_eq_iff rfl).1 e)
    have hescape' : c.toLower ≠ '\\' := fun e => hescape ((toLower_eq_iff rfl).1 e)
    exact (startsName.eq_3 _ _ hdash' hescape').trans (isNameStart_toLower c)
  | case4 rest => exact isEscapeTail_foldCase rest
  | case5 c rest hdash hdashEscape hsecond hescape =>
    by_cases hc : c = '-'
    · -- Nothing may follow the dash.
      cases rest with
      | nil =>
        subst hc
        rfl
      | cons next rest => exact (hsecond next rest hc rfl).elim
    · have hc' : c.toLower ≠ '-' := fun e => hc ((toLower_eq_iff rfl).1 e)
      have hescape' : c.toLower ≠ '\\' := fun e => hescape ((toLower_eq_iff rfl).1 e)
      rw [foldCase_cons, startsName.eq_5 _ _ (fun _ e => (hc' e).elim) (fun _ e => (hc' e).elim)
        (fun _ _ e => (hc' e).elim) hescape', isNameStart_toLower]
  | case6 => rfl

/-! ## Numerals -/

/-- The digits at the start of a text have no case. -/
theorem foldCase_takeWhile_isDigit (text : List Char) :
    foldCase (text.takeWhile Char.isDigit) = text.takeWhile Char.isDigit := by
  have hdigits : ∀ c ∈ text.takeWhile Char.isDigit, c.toLower = c := fun c hc =>
    toLower_of_isDigit (List.mem_takeWhile_imp hc)
  rw [foldCase, List.map_congr_left hdigits, List.map_id']

/-- Digits are taken off a text in either case. -/
theorem takeDigits_foldCase (text : List Char) :
    Decimal.takeDigits (foldCase text) = Prod.map id foldCase (Decimal.takeDigits text) := by
  unfold Decimal.takeDigits
  rw [takeWhile_foldCase isDigit_toLower, dropWhile_foldCase isDigit_toLower,
    foldCase_takeWhile_isDigit]
  rfl

/-- Whether a text starts with a digit does not depend on the case. -/
@[simp] theorem startsWithDigit_foldCase (text : List Char) :
    Decimal.startsWithDigit (foldCase text) = Decimal.startsWithDigit text := by
  cases text with
  | nil => rfl
  | cons c rest => exact isDigit_toLower c

/-- A sign is taken off a text in either case. -/
theorem takeSign_foldCase (text : List Char) :
    Decimal.takeSign (foldCase text) = Prod.map id foldCase (Decimal.takeSign text) := by
  fun_cases Decimal.takeSign text with
  | case1 rest => rfl
  | case2 rest => rfl
  | case3 _ hplus hminus =>
    exact Decimal.takeSign.eq_3 _ (foldCase_ne_cons rfl hplus) (foldCase_ne_cons rfl hminus)

/-- A fraction is taken off a text in either case. -/
theorem takeFraction_foldCase (text : List Char) :
    Decimal.takeFraction (foldCase text) = Prod.map id foldCase (Decimal.takeFraction text) := by
  by_cases h : ∃ rest, text = '.' :: rest
  · obtain ⟨rest, rfl⟩ := h
    have hpoint : foldCase ('.' :: rest) = '.' :: foldCase rest := rfl
    rw [hpoint, Decimal.takeFraction, Decimal.takeFraction, startsWithDigit_foldCase]
    split
    · exact takeDigits_foldCase rest
    · rfl
  · have htext : ∀ rest, text ≠ '.' :: rest := not_exists.1 h
    rw [Decimal.takeFraction.eq_2 _ (foldCase_ne_cons rfl htext),
      Decimal.takeFraction.eq_2 text htext]
    rfl

/-- An exponent may start with `e` or `E`, which the case does not tell apart. -/
theorem isExponentLetter_toLower (c : Char) :
    (c.toLower == 'e' || c.toLower == 'E') = (c == 'e' || c == 'E') :=
  apply_toLower (fun c => c == 'e' || c == 'E') (forall_mem_of_all (by decide)) c

/-- An exponent is taken off a text in either case. -/
theorem takeExponent_foldCase (text : List Char) :
    Decimal.takeExponent (foldCase text) = Prod.map id foldCase (Decimal.takeExponent text) := by
  cases text with
  | nil => rfl
  | cons c rest =>
    simp only [foldCase_cons, Decimal.takeExponent, takeSign_foldCase, Prod.map, id_eq,
      startsWithDigit_foldCase, isExponentLetter_toLower, takeDigits_foldCase]
    split <;> rfl

/-- A numeral is the same in all spellings of a text. -/
theorem scanNumeral_foldCase (text : List Char) :
    Decimal.scan (foldCase text) = Prod.map id foldCase (Decimal.scan text) := by
  simp only [Decimal.scan, takeSign_foldCase, takeDigits_foldCase, takeFraction_foldCase,
    takeExponent_foldCase, Prod.map, id_eq]

/-- Whether a numeral starts does not depend on the case. -/
@[simp] theorem startsNumeral_foldCase (text : List Char) :
    Decimal.startsNumeral (foldCase text) = Decimal.startsNumeral text := by
  unfold Decimal.startsNumeral
  rw [takeSign_foldCase, Prod.map_snd]
  generalize (Decimal.takeSign text).2 = rest
  by_cases h : ∃ rest', rest = '.' :: rest'
  · obtain ⟨rest', rfl⟩ := h
    exact startsWithDigit_foldCase rest'
  · have hrest : ∀ rest', rest ≠ '.' :: rest' := not_exists.1 h
    split
    · next heq => exact (foldCase_ne_cons rfl hrest _ heq).elim
    · exact startsWithDigit_foldCase rest

/-! ## Tokens -/

variable {K : Type}

/-- A token with the letters of its name in lower case. -/
def lower : Token K → Token K
  | ident name => ident name.toLower
  | function name => function name.toLower
  | atKeyword name => atKeyword name.toLower
  | hash name kind => hash name.toLower kind
  | string value => string value.toLower
  | badString value => badString value.toLower
  | token => token

/-- Blanks stay blanks in lower case. -/
@[simp] theorem isWhitespace_lower (token : Token K) :
    token.lower.isWhitespace = token.isWhitespace := by
  cases token <;> rfl

/-- A token in lower case closes a block if the token does. -/
@[simp] theorem closesBlock_lower (token : Token K) :
    token.lower.closesBlock = token.closesBlock := by
  cases token <;> rfl

/-- Identifiers are compared without regard to case. -/
theorem isIdent_lower (name : String) (token : Token K) :
    token.lower.isIdent name = token.isIdent name := by
  cases token with
  | ident other =>
    show (other.toLower.toLower == name.toLower) = (other.toLower == name.toLower)
    rw [toLower_toLower_text]
  | _ => rfl

/-- Functions are compared without regard to case. -/
theorem isFunction_lower (name : String) (token : Token K) :
    token.lower.isFunction name = token.isFunction name := by
  cases token with
  | function other =>
    show (other.toLower.toLower == name.toLower) = (other.toLower == name.toLower)
    rw [toLower_toLower_text]
  | _ => rfl

/-- A character with which no name starts has no case. -/
theorem toLower_of_not_startsName {c : Char} {rest : List Char}
    (h : startsName (c :: rest) = false) : c.toLower = c := by
  by_cases hsign : c = '-' ∨ c = '\\'
  · rcases hsign with rfl | rfl <;> rfl
  · obtain ⟨hdash, hescape⟩ := not_or.1 hsign
    rw [startsName.eq_5 _ _ (fun _ e => (hdash e).elim) (fun _ e => (hdash e).elim)
      (fun _ _ e => (hdash e).elim) hescape] at h
    exact toLower_of_not_isNameStart h

/-- A numeral has the same value in either case, and its unit is kept in lower case anyway. -/
theorem takeNumeric_foldCase [Number K] (text : List Char) :
    (takeNumeric (foldCase text) : Token K × List Char) =
      Prod.map id foldCase (takeNumeric text) := by
  unfold takeNumeric
  simp only [scanNumeral_foldCase, Prod.map, id_eq, startsName_foldCase]
  split
  · -- The numeral has a unit.
    obtain ⟨hname, hrest⟩ := takeName_foldCase (Decimal.scan text).2
    simp only [toLower_ofList, hname, hrest]
  · -- It is a percentage or a number, which a sign tells.
    generalize (Decimal.scan text).2 = rest
    by_cases h : ∃ rest', rest = '%' :: rest'
    · obtain ⟨rest', rfl⟩ := h
      rfl
    · have hrest : ∀ rest', rest ≠ '%' :: rest' := not_exists.1 h
      split
      · next heq => exact (foldCase_ne_cons rfl hrest _ heq).elim
      · rfl

/-- A name gives the same token up to the case, whether or not it is that of a function. -/
theorem takeNamed_foldCase (text : List Char) :
    Prod.map lower id (takeNamed (foldCase text) : Token K × List Char) =
      Prod.map lower foldCase (takeNamed text) := by
  obtain ⟨hname, hrest⟩ := takeName_foldCase text
  unfold takeNamed
  rcases hname' : takeName (foldCase text) with ⟨name', rest'⟩
  rcases htext : takeName text with ⟨name, rest⟩
  rw [hname', htext] at hname hrest
  replace hrest : rest' = foldCase rest := hrest
  subst hrest
  by_cases h : ∃ after, rest = '(' :: after
  · obtain ⟨after, rfl⟩ := h
    -- A parenthesis follows, which has no case.
    show (function (String.ofList name').toLower, foldCase after) =
      ((function (String.ofList name).toLower, foldCase after) : Token K × List Char)
    rw [toLower_ofList, toLower_ofList, hname]
  · have hafter : ∀ after, rest ≠ '(' :: after := not_exists.1 h
    split
    · next heq => exact (foldCase_ne_cons rfl hafter _ (Prod.ext_iff.1 heq).2).elim
    · next heq =>
      cases heq
      show (ident (String.ofList name').toLower, foldCase rest) =
        ((ident (String.ofList name).toLower, foldCase rest) : Token K × List Char)
      rw [toLower_ofList, toLower_ofList, hname]

/-- A string gives the same token up to the case of its content. -/
theorem takeQuoted_foldCase {quote : Char} (hquote : quote.isAlpha = false) (text : List Char) :
    Prod.map lower id (takeQuoted quote (foldCase text) : Token K × List Char) =
      Prod.map lower foldCase (takeQuoted quote text) := by
  obtain ⟨hcontent, hwhole, hrest⟩ := takeString_foldCase hquote text
  unfold takeQuoted
  rcases hfolded : takeString quote (foldCase text) with ⟨⟨content', isWhole'⟩, rest'⟩
  rcases htext : takeString quote text with ⟨⟨content, isWhole⟩, rest⟩
  rw [hfolded, htext] at hcontent hwhole hrest
  replace hwhole : isWhole' = isWhole := hwhole
  replace hrest : rest' = foldCase rest := hrest
  subst hwhole hrest
  -- Whether the string is whole or broken off is the same on both sides.
  cases isWhole' with
  | true =>
    show (string (String.ofList content').toLower, foldCase rest) =
      ((string (String.ofList content).toLower, foldCase rest) : Token K × List Char)
    rw [toLower_ofList, toLower_ofList, hcontent]
  | false =>
    show (badString (String.ofList content').toLower, foldCase rest) =
      ((badString (String.ofList content).toLower, foldCase rest) : Token K × List Char)
    rw [toLower_ofList, toLower_ofList, hcontent]

/-- Taking the token of a character gives the same in all spellings, but for the case of names. -/
theorem takeAfter_foldCase [Number K] (c : Char) (rest : List Char) :
    Prod.map lower id (takeAfter c.toLower (foldCase rest) : Token K × List Char) =
      Prod.map lower foldCase (takeAfter c rest) := by
  have hsign : ∀ sign : Char, sign.isAlpha = false → (c.toLower == sign) = (c == sign) :=
    fun sign h => toLower_beq h
  have hnumeral : Decimal.startsNumeral (c.toLower :: foldCase rest) =
      Decimal.startsNumeral (c :: rest) := startsNumeral_foldCase (c :: rest)
  have hname : startsName (c.toLower :: foldCase rest) = startsName (c :: rest) :=
    startsName_foldCase (c :: rest)
  obtain ⟨hafter, hleft⟩ := takeName_foldCase rest
  unfold takeAfter
  simp only [isBlank_toLower, hsign '"' rfl, hsign '\x27' rfl, hsign '#' rfl, hsign '@' rfl,
    continuesName_foldCase, startsName_foldCase, hnumeral, hname]
  split
  · -- Blanks.
    rw [dropWhile_foldCase isBlank_toLower]
    rfl
  split
  · next hquote =>
    -- The quote at the other end is the same character.
    have hmarks : c = '"' ∨ c = '\x27' := by simpa using hquote
    rcases hmarks with rfl | rfl
    · exact takeQuoted_foldCase rfl rest
    · exact takeQuoted_foldCase rfl rest
  split
  · -- A hash with a name behind it.
    show (hash (String.ofList _).toLower _, _) =
      ((hash (String.ofList _).toLower _, _) : Token K × List Char)
    simp only [toLower_ofList, hafter, id_eq, hleft]
  split
  · -- A keyword behind an at sign.
    show (atKeyword (String.ofList _).toLower, _) =
      ((atKeyword (String.ofList _).toLower, _) : Token K × List Char)
    simp only [toLower_ofList, hafter, id_eq, hleft]
  split
  · -- A numeral.
    have h := takeNumeric_foldCase (K := K) (c :: rest)
    rw [foldCase_cons] at h
    rw [h]
    rfl
  split
  · -- A name, which may be that of a function.
    exact takeNamed_foldCase (c :: rest)
  · next h =>
    have hc : c.toLower = c := toLower_of_not_startsName (Bool.eq_false_iff.2 h)
    rw [hc]
    unfold ofPunctuation?
    split <;> rfl

/-- The next token of a text is the same up to the case, and so is the text after it. -/
theorem next?_foldCase [Number K] (text : List Char) :
    (next? (foldCase text)).map (Prod.map lower id) =
      (next? text : Option (Token K × List Char)).map (Prod.map lower foldCase) := by
  unfold next?
  rw [skipComments_foldCase]
  cases skipComments text with
  | nil => rfl
  | cons c rest => exact congrArg some (takeAfter_foldCase c rest)

/-- The tokens of a text are the same in all its spellings, but for the case of their names. -/
theorem scan_foldCase [Number K] (text : List Char) :
    (scan (foldCase text) : List (Token K)).map lower = (scan text).map lower := by
  induction text using scan.induct (K := K) with
  | case1 text h =>
    -- Nothing is left on either side.
    have hfolded := next?_foldCase (K := K) text
    rw [h, Option.map_none, Option.map_eq_none_iff] at hfolded
    rw [scan_of_next?_none h, scan_of_next?_none hfolded]
  | case2 text token rest h ih =>
    -- Both texts have a next token, and the same text after it up to the case.
    have hfolded := next?_foldCase (K := K) text
    rw [h, Option.map_some, Option.map_eq_some_iff] at hfolded
    obtain ⟨⟨token', rest'⟩, hnext, hboth⟩ := hfolded
    obtain ⟨htoken, hrest⟩ := Prod.ext_iff.1 hboth
    replace htoken : token'.lower = token.lower := htoken
    replace hrest : rest' = foldCase rest := hrest
    rw [scan_of_next?_some h, scan_of_next?_some hnext, List.map_cons, List.map_cons, htoken, hrest,
      ih]

/-- Lowering the names keeps the runs of blanks. -/
theorem collapse_map_lower (tokens : List (Token K)) :
    collapse (tokens.map lower) = (collapse tokens).map lower := by
  induction tokens using collapse.induct with
  | case1 rest ih => exact ih
  | case2 token rest h ih =>
    rw [collapse.eq_2 token rest h, List.map_cons, List.map_cons, collapse.eq_2, ih]
    -- A run of blanks in the lowered tokens is one in the tokens.
    intro rest' htoken hrest
    have hblank : token = whitespace := by cases token <;> first | rfl | cases htoken
    obtain ⟨second, rest'', rfl, hsecond, -⟩ := List.map_eq_cons_iff.1 hrest
    have hblank' : second = whitespace := by cases second <;> first | rfl | cases hsecond
    exact h rest'' hblank (by rw [hblank'])
  | case3 => rfl

end CssColor.Token

/-! ## Rules -/

namespace CssColor.Rule

open Token

variable {K α β : Type}

/-- Lowering the names of the tokens changes neither the value of a rule nor what it leaves. -/
def CaseBlind (r : Rule K α) : Prop :=
  ∀ tokens, r (tokens.map lower) = Prod.map id (List.map lower) (r tokens)

section Combinators

variable {r r' : Rule K α}

/-- Rules one after the other that do not see the case. -/
theorem CaseBlind.bind {next : α → Rule K β} (h : CaseBlind r) (hnext : ∀ a, CaseBlind (next a)) :
    CaseBlind (r >>= next) := by
  intro tokens
  have htokens := h tokens
  rcases hr : r tokens with ⟨_ | a, rest⟩
  · rw [hr] at htokens
    rw [bind_of_none hr, bind_of_none htokens]
    rfl
  · rw [hr] at htokens
    rw [bind_of_some hr, bind_of_some htokens]
    exact hnext a rest

/-- A value that is given without reading anything. -/
theorem CaseBlind.pure (a : α) : CaseBlind (pure a : Rule K α) := fun _ => rfl

/-- A failure does not depend on any token. -/
theorem CaseBlind.fail : CaseBlind (fail : Rule K α) := fun _ => rfl

/-- A value that may be missing is given without reading anything. -/
theorem CaseBlind.ofOption (value : Option α) : CaseBlind (ofOption value : Rule K α) := by
  cases value with
  | none => exact CaseBlind.fail
  | some a => exact CaseBlind.pure a

/-- A choice between two rules that do not see the case. -/
theorem CaseBlind.ite {condition : Prop} [Decidable condition] (h : CaseBlind r)
    (h' : CaseBlind r') : CaseBlind (if condition then r else r') := by
  split
  · exact h
  · exact h'

/-- An optional rule that does not see the case. -/
theorem CaseBlind.optional (h : CaseBlind r) : CaseBlind (optional r) := by
  intro tokens
  unfold Rule.optional
  rw [h tokens]
  rcases r tokens with ⟨_ | a, rest⟩
  · rfl
  · rfl

/-- A rule that does not see the case is repeated equally often in lower case. -/
theorem repeated_map_lower (h : CaseBlind r) (tokens : List (Token K)) :
    repeated r (tokens.map lower) = Prod.map id (List.map lower) (repeated r tokens) := by
  induction hlength : tokens.length using Nat.strongRecOn generalizing tokens with
  | _ n ih =>
    rw [repeated.eq_def, h tokens, repeated.eq_def r tokens]
    rcases hr : r tokens with ⟨_ | a, rest⟩
    · rfl
    · simp only [Prod.map, id_eq, List.length_map]
      split
      · next hlt =>
        rw [ih rest.length (by omega) rest rfl]
        rfl
      · rfl

/-- A repeated rule that does not see the case. -/
theorem CaseBlind.many (h : CaseBlind r) : CaseBlind (many r) := by
  intro tokens
  unfold Rule.many
  rw [repeated_map_lower h tokens]
  rfl

end Combinators

section Tokens

/-- The blanks in front are the same in lower case. -/
theorem dropWhile_map_lower (tokens : List (Token K)) :
    (tokens.map lower).dropWhile isWhitespace = (tokens.dropWhile isWhitespace).map lower := by
  have hcomp : (isWhitespace : Token K → Bool) ∘ lower = isWhitespace := funext isWhitespace_lower
  rw [List.dropWhile_map, hcomp]

/-- A rule that goes on with the next token in the same way for all spellings of it. -/
theorem CaseBlind.next_bind {next : Token K → Rule K α}
    (hlower : ∀ token, next token.lower = next token) (hnext : ∀ token, CaseBlind (next token)) : CaseBlind (Rule.next >>= next) := by
  intro tokens
  cases tokens with
  | nil => rfl
  | cons token rest =>
    show next token.lower (rest.map lower) = Prod.map id (List.map lower) (next token rest)
    rw [hlower]
    exact hnext token rest

/-- What follows the next token, if it does not see the case of that token. -/
theorem CaseBlind.nextSolid_bind {next : Token K → Rule K α}
    (hlower : ∀ token, next token.lower = next token) (hnext : ∀ token, CaseBlind (next token)) :
    CaseBlind (nextSolid >>= next) := by
  intro tokens
  have h := CaseBlind.next_bind hlower hnext (tokens.dropWhile isWhitespace)
  rw [← dropWhile_map_lower] at h
  exact h

/-- A token that is told by a condition that does not see the case. -/
theorem CaseBlind.nextWith {accepts : Token K → Bool}
    (haccepts : ∀ token, accepts token.lower = accepts token) : CaseBlind (nextWith accepts) :=
  nextSolid_bind (fun token => by rw [haccepts]) fun _ =>
    CaseBlind.ite (CaseBlind.pure _) CaseBlind.fail

/-- A rule that goes on with an identifier in the same way for all spellings of it. -/
theorem CaseBlind.identifier_bind {next : String → Rule K α}
    (hlower : ∀ name, next name.toLower = next name) (hnext : ∀ name, CaseBlind (next name)) :
    CaseBlind (identifier >>= next) := by
  unfold identifier
  rw [bind_assoc]
  refine CaseBlind.nextSolid_bind (fun token => ?_) fun token => ?_
  · cases token with
    | ident name => exact hlower name
    | _ => rfl
  · cases token with
    | ident name => exact hnext name
    | _ => exact CaseBlind.fail

/-- Keywords are read in either case. -/
theorem CaseBlind.keyword (name : String) : CaseBlind (keyword name : Rule K Unit) :=
  CaseBlind.nextWith (isIdent_lower name)

/-- A comma has no case. -/
theorem CaseBlind.comma : CaseBlind (comma : Rule K Unit) :=
  CaseBlind.nextWith fun token => by cases token <;> rfl

/-- A delimiter is kept as it is. -/
theorem CaseBlind.delim (char : Char) :
    CaseBlind (Rule.nextWith (Token.isDelim char) : Rule K Unit) :=
  CaseBlind.nextWith fun token => by cases token <;> rfl

/-- A closing parenthesis has no case. -/
theorem CaseBlind.closeParen : CaseBlind (closeParen : Rule K Unit) :=
  CaseBlind.nextWith closesBlock_lower

/-- A blank has no case. -/
theorem CaseBlind.blank : CaseBlind (blank : Rule K Unit) :=
  CaseBlind.next_bind (fun token => by rw [isWhitespace_lower]) fun _ =>
    CaseBlind.ite (CaseBlind.pure _) CaseBlind.fail

/-- Looking at a token ahead, in the same way for all spellings of it. -/
theorem CaseBlind.any_peekAt (n : ℕ) {accepts : Token K → Bool}
    (haccepts : ∀ token, accepts token.lower = accepts token) :
    CaseBlind (return (← peekAt n).any accepts) := by
  intro tokens
  have hsolid : (fun token : Token K => !token.isWhitespace) ∘ lower =
      fun token => !token.isWhitespace := funext fun token => by
    rw [Function.comp_apply, isWhitespace_lower]
  show (some (Option.any accepts _), tokens.map lower) = (some (Option.any accepts _), tokens.map lower)
  rw [List.filter_map, hsolid, List.getElem?_map, Option.any_map]
  simp only [haccepts]

/-- Whether a call of a function comes next does not depend on the case. -/
theorem CaseBlind.isCalling (name : String) : CaseBlind (isCalling name : Rule K Bool) :=
  CaseBlind.any_peekAt 0 (isFunction_lower name)

/-- Whether a name comes next does not depend on the case. -/
theorem CaseBlind.isNaming (name : String) : CaseBlind (isNaming name : Rule K Bool) :=
  CaseBlind.any_peekAt 0 (isIdent_lower name)

/-- Whether anything is left does not depend on the case. -/
theorem CaseBlind.exhausted : CaseBlind (exhausted : Rule K Unit) := by
  intro tokens
  have hsolid : ∀ tokens : List (Token K),
      nextSolid tokens = next (tokens.dropWhile isWhitespace) := fun _ => rfl
  unfold Rule.exhausted
  rw [hsolid, hsolid, dropWhile_map_lower]
  cases tokens.dropWhile isWhitespace with
  | nil => rfl
  | cons token rest => rfl

/-- A rule that is blind to case reads the same from all spellings of a list of tokens. -/
theorem CaseBlind.parse_eq {r : Rule K α} (h : CaseBlind r) {tokens tokens' : List (Token K)}
    (htokens : tokens.map lower = tokens'.map lower) : r.parse tokens = r.parse tokens' := by
  have hcomplete : CaseBlind r.complete :=
    h.bind fun _ => CaseBlind.exhausted.bind fun _ => CaseBlind.pure _
  have hlower : ∀ tokens, r.parse (tokens.map lower) = r.parse tokens := fun tokens => by
    unfold Rule.parse
    rw [collapse_map_lower, hcomplete, Prod.map_fst, id_eq]
  rw [← hlower tokens, ← hlower tokens', htokens]

end Tokens

end CssColor.Rule
