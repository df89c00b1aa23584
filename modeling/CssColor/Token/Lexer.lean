import CssColor.Token.Basic

/-!
# Splitting text into tokens

`Token.next?` takes the first token off a text, and `Token.scan` all of them. Comments stand for
nothing; they are dropped in front of each token. Every step leaves a shorter text
(`next?_length_lt`), so the scan ends.
-/

namespace CssColor.Token

/-! ## Characters -/

/-- The blanks of a style sheet. -/
def isBlank (c : Char) : Bool :=
  c == '\n' || c == '\r' || c == '\x0c' || c == '\t' || c == ' '

/-- The characters beyond ASCII that names may hold. -/
def isWideNameChar (c : Char) : Bool :=
  let n := c.toNat
  n == 0xB7 || (0xC0 ≤ n && n ≤ 0xD6) || (0xD8 ≤ n && n ≤ 0xF6) || (0xF8 ≤ n && n ≤ 0x37D)
    || (0x37F ≤ n && n ≤ 0x1FFF) || n == 0x200C || n == 0x200D || n == 0x203F || n == 0x2040
    || (0x2070 ≤ n && n ≤ 0x218F) || (0x2C00 ≤ n && n ≤ 0x2FEF) || (0x3001 ≤ n && n ≤ 0xD7FF)
    || (0xF900 ≤ n && n ≤ 0xFDCF) || (0xFDF0 ≤ n && n ≤ 0xFFFD) || 0x10000 ≤ n

/-- Whether a name may start with the character. -/
def isNameStart (c : Char) : Bool := c.isAlpha || c == '_' || isWideNameChar c

/-- Whether a name may hold the character. -/
def isNameChar (c : Char) : Bool := c == '-' || c.isDigit || isNameStart c

/-- The value of a hexadecimal digit. -/
def hexValue? (c : Char) : Option Nat :=
  if c.isDigit then some (c.toNat - '0'.toNat)
  else if 'a' ≤ c && c ≤ 'f' then some (c.toNat - 'a'.toNat + 10)
  else if 'A' ≤ c && c ≤ 'F' then some (c.toNat - 'A'.toNat + 10)
  else none

/-- Whether the character is a hexadecimal digit. -/
def isHexDigit (c : Char) : Bool := (hexValue? c).isSome

/-- The number that hexadecimal digits write. -/
def hexNumber (digits : List Char) : Nat :=
  digits.foldl (fun n c => n * 16 + (hexValue? c).getD 0) 0

/-- The character that stands for what is no character. -/
def replacement : Char := '\ufffd'

/-- The character of an escaped code point. The null character, surrogates and numbers beyond the
last code point are replaced. -/
def escapedChar (n : Nat) : Char :=
  if n = 0 || (0xD800 ≤ n && n ≤ 0xDFFF) || 0x10FFFF < n then replacement else Char.ofNat n

/-! ## Parts of tokens -/

mutual

/-- The text after the comments in front of it. -/
def skipComments : List Char → List Char
  | '/' :: '*' :: rest => skipComment rest
  | text => text

/-- The text after the comment that has been opened, and after those that follow it. A comment that
is never closed reaches to the end. -/
def skipComment : List Char → List Char
  | '*' :: '/' :: rest => skipComments rest
  | _ :: rest => skipComment rest
  | [] => []

end

/-- Whether an escape can go on with the text after its backslash. -/
def isEscapeTail : List Char → Bool
  | c :: _ => c != '\n'
  | [] => false

/-- Whether a text starts with an escape. -/
def startsEscape : List Char → Bool
  | '\\' :: rest => isEscapeTail rest
  | _ => false

/-- Whether a text starts with a name. -/
def startsName : List Char → Bool
  | '-' :: '-' :: _ => true
  | '-' :: '\\' :: rest => isEscapeTail rest
  | '-' :: c :: _ => isNameStart c
  | '\\' :: rest => isEscapeTail rest
  | c :: _ => isNameStart c
  | [] => false

/-- Whether the first character of a text could go on with a name. -/
def continuesName : List Char → Bool
  | c :: rest => isNameChar c || startsEscape (c :: rest)
  | [] => false

/-- The text without the blank in front of it, if there is one. -/
def dropBlank : List Char → List Char
  | c :: rest => if isBlank c then rest else c :: rest
  | [] => []

/-- The character written by the escape whose backslash has been taken: up to six hexadecimal
digits, with a blank after them that belongs to the escape, or any other character for itself. -/
def takeEscape (text : List Char) : Char × List Char :=
  let digits := (text.take 6).takeWhile isHexDigit
  if digits.isEmpty then
    match text with
    | c :: rest => (c, rest)
    | [] => (replacement, [])
  else (escapedChar (hexNumber digits), dropBlank (text.drop digits.length))

/-- No characters are added when a blank is dropped. -/
theorem dropBlank_length_le (text : List Char) : (dropBlank text).length ≤ text.length := by
  cases text with
  | nil => simp [dropBlank]
  | cons c rest => simp only [dropBlank]; split <;> simp

/-- No characters are added when an escape is taken. -/
theorem takeEscape_length_le (text : List Char) : (takeEscape text).2.length ≤ text.length := by
  unfold takeEscape
  simp only
  split
  · cases text <;> simp
  · exact Nat.le_trans (dropBlank_length_le _) (by simp)

/-- The longest name in front of a text, with its escapes resolved. -/
def takeName : List Char → List Char × List Char
  | [] => ([], [])
  | c :: rest =>
    if isNameChar c then
      let (name, after) := takeName rest
      (c :: name, after)
    else if c == '\\' && isEscapeTail rest then
      let escape := takeEscape rest
      let (name, after) := takeName escape.2
      (escape.1 :: name, after)
    else ([], c :: rest)
termination_by text => text.length
decreasing_by
  · simp
  · have := takeEscape_length_le rest
    simp only [List.length_cons]
    omega

/-- The content of the string whose opening quote has been taken. A line break cuts it off and is
left in the text. -/
def takeString (quote : Char) : List Char → (List Char × Bool) × List Char
  | [] => (([], true), [])
  | c :: rest =>
    if c == quote then (([], true), rest)
    else if c == '\n' then (([], false), c :: rest)
    else if c == '\\' then
      match rest with
      | [] => (([], true), [])
      | '\n' :: after => takeString quote after
      | next :: after =>
        let escape := takeEscape (next :: after)
        let ((content, isWhole), left) := takeString quote escape.2
        ((escape.1 :: content, isWhole), left)
    else
      let ((content, isWhole), left) := takeString quote rest
      ((c :: content, isWhole), left)
termination_by text => text.length
decreasing_by
  · simp only [List.length_cons]
    omega
  · have := takeEscape_length_le (next :: after)
    simp only [List.length_cons] at this ⊢
    omega
  · simp

/-! ## Tokens -/

variable {K : Type}

/-- The numeric token in front of a text that starts with a numeral: a number, or with the sign or
name after it a percentage or a dimension. -/
def takeNumeric [Number K] (text : List Char) : Token K × List Char :=
  let (numeral, rest) := Decimal.scan text
  if startsName rest then
    let (unit, after) := takeName rest
    (dimension numeral.toNumber (String.ofList unit).toLower, after)
  else
    match rest with
    | '%' :: after => (percentage numeral.toNumber, after)
    | _ => (number numeral.toNumber, rest)

/-- The name in front of a text as an identifier, or with a parenthesis after it as a function. -/
def takeNamed (text : List Char) : Token K × List Char :=
  match takeName text with
  | (name, '(' :: rest) => (function (String.ofList name), rest)
  | (name, rest) => (ident (String.ofList name), rest)

/-- The string token whose opening quote has been taken. -/
def takeQuoted (quote : Char) (text : List Char) : Token K × List Char :=
  match takeString quote text with
  | ((content, true), rest) => (string (String.ofList content), rest)
  | ((content, false), rest) => (badString (String.ofList content), rest)

/-- The token of a character that is a token of its own. -/
def ofPunctuation? : Char → Option (Token K)
  | '(' => some openParen
  | ')' => some closeParen
  | ',' => some comma
  | ':' => some colon
  | ';' => some semicolon
  | '[' => some openBracket
  | ']' => some closeBracket
  | '\x7b' => some openBrace
  | '\x7d' => some closeBrace
  | _ => none

/-- The token that starts with the character `c`, and the text after it. -/
def takeAfter [Number K] (c : Char) (rest : List Char) : Token K × List Char :=
  if isBlank c then (whitespace, rest.dropWhile isBlank)
  else if c == '"' || c == '\x27' then takeQuoted c rest
  else if c == '#' && continuesName rest then
    let (name, after) := takeName rest
    (hash (String.ofList name) (if startsName rest then .id else .unrestricted), after)
  else if c == '@' && startsName rest then
    let (name, after) := takeName rest
    (atKeyword (String.ofList name), after)
  else if Decimal.startsNumeral (c :: rest) then takeNumeric (c :: rest)
  else if startsName (c :: rest) then takeNamed (c :: rest)
  else ((ofPunctuation? c).getD (delim c), rest)

/-- The first token of a text and the text after it; none if only comments are left. -/
def next? [Number K] (text : List Char) : Option (Token K × List Char) :=
  match skipComments text with
  | [] => none
  | c :: rest => some (takeAfter c rest)

/-! ## Every token takes something -/

/-- No characters are added when comments are skipped. -/
theorem skipComments_length_le (text : List Char) :
    (skipComments text).length ≤ text.length := by
  refine skipComments.induct (fun text => (skipComments text).length ≤ text.length)
    (fun text => (skipComment text).length ≤ text.length) ?_ ?_ ?_ ?_ ?_ text
  · intro rest ih
    simp only [skipComments, List.length_cons]
    omega
  · intro text h
    rw [skipComments.eq_def]
    split
    · exact absurd rfl (h _)
    · exact Nat.le_refl _
  · intro rest ih
    simp only [skipComment, List.length_cons]
    omega
  · intro c rest h ih
    rw [skipComment.eq_2 c rest h, List.length_cons]
    omega
  · simp [skipComment]

/-- No characters are added when a name is taken. -/
theorem takeName_length_le (text : List Char) : (takeName text).2.length ≤ text.length := by
  fun_induction takeName text with
  | case1 => simp
  | case2 c rest hc name after hrest ih =>
    simp only [hrest] at ih
    simp only [List.length_cons]
    omega
  | case3 c rest hc hescape escape name after hrest ih =>
    have : escape.2.length ≤ rest.length := takeEscape_length_le rest
    simp only [hrest] at ih
    simp only [List.length_cons]
    omega
  | case4 => simp

/-- A text that starts with a name gives a name of one character at least. -/
theorem takeName_length_lt {text : List Char} (h : continuesName text || startsName text) :
    (takeName text).2.length < text.length := by
  cases text with
  | nil => simp [continuesName, startsName] at h
  | cons c rest =>
    unfold takeName
    by_cases hc : isNameChar c
    · have := takeName_length_le rest
      simp only [hc, ↓reduceIte, List.length_cons]
      omega
    · by_cases hescape : c == '\\' && isEscapeTail rest
      · have := takeEscape_length_le rest
        have := takeName_length_le (takeEscape rest).2
        simp only [hc, hescape, Bool.false_eq_true, ↓reduceIte, List.length_cons]
        omega
      · exfalso
        have hdash : c ≠ '-' := fun e => hc (by simp [e, isNameChar])
        have hstart : isNameStart c = false := by
          simp only [isNameChar, Bool.or_eq_true, not_or, Bool.not_eq_true] at hc
          exact hc.2
        have hback : c = '\\' → isEscapeTail rest = false := fun e => by simpa [e] using hescape
        simp only [Bool.or_eq_true, continuesName, hc, Bool.false_eq_true, false_or] at h
        rcases h with h | h
        · rw [startsEscape.eq_def] at h
          split at h <;> simp_all
        · rw [startsName.eq_def] at h
          split at h <;> simp_all

/-- No characters are added when a string is taken. -/
theorem takeString_length_le (quote : Char) (text : List Char) :
    (takeString quote text).2.length ≤ text.length := by
  fun_induction takeString quote text with
  | case1 => simp
  | case2 => simp
  | case3 => simp
  | case4 => simp
  | case5 c _ _ _ after ih =>
    simp only [List.length_cons]
    omega
  | case6 c _ _ _ next after _ escape content isWhole left hrest ih =>
    have : escape.2.length ≤ (next :: after).length := takeEscape_length_le (next :: after)
    simp only [hrest] at ih
    simp only [List.length_cons] at this ⊢
    omega
  | case7 c rest _ _ _ content isWhole left hrest ih =>
    simp only [hrest] at ih
    simp only [List.length_cons]
    omega

/-- A number takes at least one character. -/
theorem takeNumeric_length_lt [Number K] {text : List Char} (h : Decimal.startsNumeral text) :
    (takeNumeric text : Token K × List Char).2.length < text.length := by
  have hscan := Decimal.scan_length_lt h
  unfold takeNumeric
  simp only
  split
  · exact Nat.lt_of_le_of_lt (takeName_length_le _) hscan
  · split
    · simp_all only [List.length_cons]
      omega
    · exact hscan

/-- A name takes at least one character. -/
theorem takeNamed_length_lt {text : List Char} (h : startsName text) :
    (takeNamed text : Token K × List Char).2.length < text.length := by
  have hname : (takeName text).2.length < text.length := takeName_length_lt (by simp [h])
  unfold takeNamed
  split <;> simp_all only [List.length_cons]
  omega

/-- No characters are added when a string with its quotes is taken. -/
theorem takeQuoted_length_le (quote : Char) (text : List Char) :
    (takeQuoted quote text : Token K × List Char).2.length ≤ text.length := by
  have := takeString_length_le quote text
  unfold takeQuoted
  split <;> simp_all

/-- A token takes at least one character, the first one. -/
theorem takeAfter_length_lt [Number K] (c : Char) (rest : List Char) :
    (takeAfter c rest : Token K × List Char).2.length < (c :: rest).length := by
  unfold takeAfter
  simp only [List.length_cons]
  split
  · exact Nat.lt_succ_of_le (List.dropWhile_sublist _).length_le
  split
  · exact Nat.lt_succ_of_le (takeQuoted_length_le _ _)
  split
  · exact Nat.lt_succ_of_le (takeName_length_le _)
  split
  · exact Nat.lt_succ_of_le (takeName_length_le _)
  split
  · exact takeNumeric_length_lt ‹_›
  split
  · exact takeNamed_length_lt ‹_›
  · exact Nat.lt_succ_self _

/-- Taking a token leaves a shorter text. -/
theorem next?_length_lt [Number K] {text rest : List Char} {token : Token K}
    (h : next? text = some (token, rest)) : rest.length < text.length := by
  have hskip := skipComments_length_le text
  rw [next?.eq_def] at h
  split at h
  · cases h
  · have := takeAfter_length_lt (K := K) ‹_› ‹_›
    simp_all only [Option.some.injEq, List.length_cons]
    omega

/-- The tokens of a text. -/
def scan [Number K] (text : List Char) : List (Token K) :=
  match _h : next? text with
  | none => []
  | some (token, rest) => token :: scan rest
termination_by text.length
decreasing_by exact next?_length_lt (by assumption)

/-- A text without a next token has no tokens. -/
theorem scan_of_next?_none [Number K] {text : List Char}
    (h : next? text = (none : Option (Token K × List Char))) : scan text = ([] : List (Token K)) := by
  rw [scan.eq_def]
  split
  · rfl
  · next heq => cases h.symm.trans heq

/-- The tokens of a text are the next one and those of the rest. -/
theorem scan_of_next?_some [Number K] {text rest : List Char} {token : Token K}
    (h : next? text = some (token, rest)) : scan text = token :: scan rest := by
  rw [scan.eq_def]
  split
  · next heq => cases h.symm.trans heq
  · next heq =>
    cases h.symm.trans heq
    rfl

end CssColor.Token
