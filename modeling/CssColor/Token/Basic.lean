import CssColor.Number.Text
import CssColor.Text.Quoted

/-!
# Tokens

The tokens of a style sheet value and their text. Units are kept in lower case, and a percentage
holds the number that stands in front of its sign.
-/

namespace CssColor

/-- Whether the name of a hash could be an identifier. -/
inductive HashKind where
  | unrestricted
  | id
deriving DecidableEq, Repr

/-- A token with numbers of type `K`. -/
inductive Token (K : Type) where
  | ident (name : String)
  | function (name : String)
  | atKeyword (name : String)
  | hash (name : String) (kind : HashKind)
  | string (value : String)
  | badString (value : String)
  | number (value : K)
  | percentage (value : K)
  | dimension (value : K) (unit : String)
  | colon
  | semicolon
  | comma
  | openBrace
  | closeBrace
  | openParen
  | closeParen
  | openBracket
  | closeBracket
  | whitespace
  | delim (char : Char)
deriving BEq

namespace Token

variable {K : Type}

/-- Whether the token is blank. -/
def isWhitespace : Token K → Bool
  | whitespace => true
  | _ => false

/-- Whether the token opens a block that a closing parenthesis ends. -/
def opensBlock : Token K → Bool
  | function _ => true
  | openParen => true
  | _ => false

/-- Whether the token closes such a block. -/
def closesBlock : Token K → Bool
  | closeParen => true
  | _ => false

/-- Whether the token is the delimiter `char`. -/
def isDelim (char : Char) : Token K → Bool
  | delim c => c == char
  | _ => false

/-- Whether the token is an identifier of the given name in any case. -/
def isIdent (name : String) : Token K → Bool
  | ident other => other.toLower == name.toLower
  | _ => false

/-- Whether the token opens the function of the given name in any case. -/
def isFunction (name : String) : Token K → Bool
  | function other => other.toLower == name.toLower
  | _ => false

/-- The text of a token. -/
def text [Scalar K] : Token K → String
  | ident name => name
  | function name => name ++ "("
  | atKeyword name => "@" ++ name
  | hash name _ => "#" ++ name
  | string value => Text.quoted value
  | badString value => Text.quoted value
  | number value => Scalar.text value
  | percentage value => Scalar.text value ++ "%"
  | dimension value unit => Scalar.text value ++ unit
  | colon => ":"
  | semicolon => ";"
  | comma => ","
  | openBrace => "\x7b"
  | closeBrace => "\x7d"
  | openParen => "("
  | closeParen => ")"
  | openBracket => "["
  | closeBracket => "]"
  | whitespace => " "
  | delim c => String.singleton c

/-- The texts of tokens one after the other. -/
def textOf [Scalar K] (tokens : List (Token K)) : String := String.join (tokens.map text)

/-- Leaves one blank of each run of blanks. -/
def collapse : List (Token K) → List (Token K)
  | whitespace :: whitespace :: rest => collapse (whitespace :: rest)
  | token :: rest => token :: collapse rest
  | [] => []

end Token

end CssColor
