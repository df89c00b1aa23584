import CssColor.Number.Text
import CssColor.Token.Lexer

/-!
# Reading by byte offsets

`Reader.nextToken` takes the tokens off a text that stays as a whole, by the byte offset of what is
left. It looks ahead, steps back over a character that it has taken, jumps over comments and reads a
numeral between two offsets. Each of these cuts the source at an offset, which fails beyond its end
and inside of a character. Nothing but the characters stops a loop, and one that goes on for more
rounds than the source has bytes fails as well. So a reader has a value only if all cuts succeed and
all loops end.
-/

namespace CssColor.Token

/-- The text from a byte offset on; none beyond the end and inside of a character. -/
def textFrom? (source : String) (offset : Nat) : Option String :=
  if h : String.Pos.Raw.IsValid source ⟨offset⟩ then
    some (source.sliceFrom ⟨⟨offset⟩, h⟩).copy
  else none

/-- The text up to a byte offset; none beyond the end and inside of a character. -/
def textTo? (source : String) (offset : Nat) : Option String :=
  if h : String.Pos.Raw.IsValid source ⟨offset⟩ then
    some (source.sliceTo ⟨⟨offset⟩, h⟩).copy
  else none

/-- The byte offset of the first end of a comment. -/
def commentEnd? : List Char → Option Nat
  | '*' :: '/' :: _ => some 0
  | c :: rest => (commentEnd? rest).map (c.utf8Size + ·)
  | [] => none

/-- A reader goes from a byte offset to a value and the offset where it stops. It has none if a cut
fails or a loop does not end. -/
abbrev Reader := StateT Nat Option

namespace Reader

variable (source : String)

/-! ## Steps -/

/-- The text that is left. -/
def remaining : Reader String := do textFrom? source (← get)

/-- The text that has been taken. -/
def taken : Reader String := do textTo? source (← get)

/-- The character some places ahead. -/
def peek (n : Nat) : Reader (Option Char) := return (← remaining source).toList[n]?

/-- The next character, which is taken. -/
def next : Reader (Option Char) := do
  match ← peek source 0 with
  | some c =>
    modify (· + c.utf8Size)
    return some c
  | none => return none

/-- Puts the last character back. -/
def stepBack : Reader Unit := do
  match (← taken source).toList.getLast? with
  | some c => modify (· - c.utf8Size)
  | none => return ()

/-- Takes some characters, if there are as many. -/
def advance : Nat → Reader Unit
  | 0 => return ()
  | n + 1 => do if (← next source).isSome then advance n

/-! ## Loops -/

/-- A number of rounds of a loop, each of which gets what comes after it. The last one fails if it
goes on. -/
def rounds {α : Type} (step : Reader α → Reader α) : Nat → Reader α
  | 0 => failure
  | n + 1 => step (rounds step n)

/-- A loop, by what a round does with what comes after it. It fails if it has not ended when each
byte of the source could have had a round. -/
def loop {α : Type} (step : Reader α → Reader α) : Reader α :=
  rounds step (source.utf8ByteSize + 1)

/-- Takes the characters in front that pass a test. -/
def skipWhile (test : Char → Bool) : Reader Unit :=
  loop source fun again => do
    if (← peek source 0).any test then
      advance source 1
      again

/-- Takes the comments in front of a token. -/
def skipComments : Reader Unit :=
  loop source fun again => do
    let text ← remaining source
    if ['/', '*'].isPrefixOf text.toList then
      let body ← textFrom? text 2
      match commentEnd? body.toList with
      | some length => modify (· + (length + 4))
      | none => set source.utf8ByteSize
      again

/-! ## Lookahead -/

/-- Whether two characters start an escape. -/
def isEscape (first second : Option Char) : Bool := first == some '\\' && second.any (· != '\n')

def startsEscape : Reader Bool := return isEscape (← peek source 0) (← peek source 1)

def startsName : Reader Bool := do
  match ← peek source 0 with
  | some '-' =>
    let second ← peek source 1
    if second.any fun c => isNameStart c || c == '-' then return true
    else return isEscape second (← peek source 2)
  | some '\\' => return isEscape (some '\\') (← peek source 1)
  | some c => return isNameStart c
  | none => return false

/-- Whether a character is a sign. -/
def isSign (c : Char) : Bool := c == '+' || c == '-'

/-- Whether some places ahead there is a digit, or a point and a digit. -/
def startsMagnitude (n : Nat) : Reader Bool := do
  let first ← peek source n
  if first == some '.' then return (← peek source (n + 1)).any Char.isDigit
  else return first.any Char.isDigit

def startsNumeral : Reader Bool := do
  if (← peek source 0).any isSign then startsMagnitude source 1 else startsMagnitude source 0

/-! ## Names and strings -/

/-- Goes on with a hexadecimal number by some digits at most. -/
def takeHex (value : Nat) : Nat → Reader Nat
  | 0 => return value
  | n + 1 => do
    match ← peek source 0 with
    | some c =>
      match hexValue? c with
      | some digit =>
        advance source 1
        takeHex (value * 16 + digit) n
      | none => return value
    | none => return value

/-- Takes a blank in front, if there is one. -/
def skipBlank : Reader Unit := do
  if (← peek source 0).any isBlank then advance source 1

/-- The character of an escape whose backslash has been taken. -/
def takeEscape : Reader Char := do
  match ← next source with
  | some c =>
    match hexValue? c with
    | some digit =>
      let value ← takeHex source digit 5
      skipBlank source
      return escapedChar value
    | none => return c
  | none => return replacement

def takeName : Reader (List Char) :=
  loop source fun again => do
    match ← peek source 0 with
    | some c =>
      if isNameChar c then
        advance source 1
        return c :: (← again)
      else if ← startsEscape source then
        advance source 1
        let escaped ← takeEscape source
        return escaped :: (← again)
      else return []
    | none => return []

/-- The content of a string whose opening quote has been taken, and whether no line break cuts it
off. -/
def takeString (quote : Char) : Reader (List Char × Bool) :=
  loop source fun again => do
    match ← next source with
    | some c =>
      if c == quote then return ([], true)
      else if c == '\n' then
        stepBack source
        return ([], false)
      else if c == '\\' then
        match ← peek source 0 with
        | some '\n' =>
          advance source 1
          again
        | some _ =>
          let escaped ← takeEscape source
          let (content, isWhole) ← again
          return (escaped :: content, isWhole)
        | none => again
      else
        let (content, isWhole) ← again
        return (c :: content, isWhole)
    | none => return ([], true)

/-! ## Numerals -/

def skipSign : Reader Unit := do
  if (← peek source 0).any isSign then advance source 1

def skipFraction : Reader Unit := do
  if (← peek source 0) == some '.' && (← peek source 1).any Char.isDigit then
    advance source 2
    skipWhile source Char.isDigit

def skipExponent : Reader Unit := do
  if (← peek source 0).any fun c => c == 'e' || c == 'E' then
    let second ← peek source 1
    if second.any Char.isDigit then
      advance source 2
      skipWhile source Char.isDigit
    else if second.any isSign && (← peek source 2).any Char.isDigit then
      advance source 3
      skipWhile source Char.isDigit

variable {K : Type} [Scalar K]

/-- The number of a numeral, whose text lies between the offsets before and after it. What cannot be
read is not a number. -/
def takeNumeral : Reader K := do
  let start ← get
  skipSign source
  skipWhile source Char.isDigit
  skipFraction source
  skipExponent source
  let numeral ← textFrom? (← taken source) start
  match Scalar.ofText numeral with
  | .ok x => return x
  | .error _ => return Scalar.nan

/-! ## Tokens -/

def takeNumeric : Reader (Token K) := do
  let x ← takeNumeral source
  if ← startsName source then
    return dimension x (String.ofList (← takeName source)).toLower
  else if (← peek source 0) == some '%' then
    advance source 1
    return percentage x
  else return number x

def takeNamed : Reader (Token K) := do
  let name ← takeName source
  if (← peek source 0) == some '(' then
    advance source 1
    return function (String.ofList name)
  else return ident (String.ofList name)

def takeQuoted (quote : Char) : Reader (Token K) := do
  let (content, isWhole) ← takeString source quote
  return if isWhole then string (String.ofList content) else badString (String.ofList content)

/-- A hash, whose name may start with any character of names. -/
def takeHash : Reader (Token K) := do
  match ← peek source 0 with
  | some c =>
    if isNameChar c || (← startsEscape source) then
      let flag := if ← startsName source then HashKind.id else .unrestricted
      return hash (String.ofList (← takeName source)) flag
    else return delim '#'
  | none => return delim '#'

/-- The token whose first character `c` has been taken. -/
def takeAfter (c : Char) : Reader (Token K) := do
  if isBlank c then
    skipWhile source isBlank
    return whitespace
  else if c == '"' || c == '\x27' then takeQuoted source c
  else if c == '#' then takeHash source
  else match ofPunctuation? c with
  | some token => return token
  | none =>
    if c == '+' || c == '.' then
      stepBack source
      if ← startsNumeral source then takeNumeric source
      else return delim ((← next source).getD '+')
    else if c == '-' then
      stepBack source
      if ← startsNumeral source then takeNumeric source
      else if ← startsName source then takeNamed source
      else
        advance source 1
        return delim '-'
    else if c == '@' then
      if ← startsName source then return atKeyword (String.ofList (← takeName source))
      else return delim '@'
    else if c == '\\' then
      stepBack source
      if ← startsEscape source then takeNamed source
      else
        advance source 1
        return delim '\\'
    else if c.isDigit then
      stepBack source
      takeNumeric source
    else if isNameStart c then
      stepBack source
      takeNamed source
    else return delim c

/-- The next token; none if only comments are left. -/
def nextToken : Reader (Option (Token K)) := do
  skipComments source
  match ← next source with
  | some c => return some (← takeAfter source c)
  | none => return none

/-- All tokens that are left. -/
def tokens : Reader (List (Token K)) :=
  loop source fun again => do
    match ← nextToken source with
    | some token => return token :: (← again)
    | none => return []

end Reader

end CssColor.Token
