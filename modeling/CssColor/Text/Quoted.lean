import CssColor.Text.Shown

/-!
# Quoted text

A text between double quotes. Quotes, backslashes and the common controls are escaped by a
backslash and a letter, any other character that does not show by its code point.
-/

namespace CssColor.Text

/-- The escape of a character by its code point in lower case hexadecimal digits. -/
def escapeCodePoint (c : Char) : List Char :=
  "\\u".toList ++ '\x7b' :: (Nat.toDigits 16 c.toNat ++ ['\x7d'])

/-- A character inside double quotes. -/
def escape (c : Char) : List Char :=
  match c with
  | '"' => ['\\', '"']
  | '\\' => ['\\', '\\']
  | '\n' => ['\\', 'n']
  | '\r' => ['\\', 'r']
  | '\t' => ['\\', 't']
  | '\x00' => ['\\', '0']
  | c => if isShown c then [c] else escapeCodePoint c

/-- A text in double quotes. -/
def quoted (text : String) : String :=
  String.ofList ('"' :: (text.toList.flatMap escape ++ ['"']))

end CssColor.Text
