/-!
# Blank text

The blanks of plain text are the characters with the white space property. Style sheets know fewer
of them, see `CssColor.Token.isBlank`.
-/

namespace CssColor.Text

/-- Whether a character is white space. -/
def isBlank (c : Char) : Bool :=
  let n := c.toNat
  (9 ≤ n && n ≤ 13) || n == 0x20 || n == 0x85 || n == 0xA0 || n == 0x1680
    || (0x2000 ≤ n && n ≤ 0x200A) || n == 0x2028 || n == 0x2029 || n == 0x202F || n == 0x205F
    || n == 0x3000

/-- A text without the blanks at both ends. -/
def trim (text : String) : String :=
  let start := text.toList.dropWhile isBlank
  String.ofList (start.reverse.dropWhile isBlank).reverse

/-- Whether two texts differ at most in the case of their ASCII letters. -/
def sameIgnoringCase (a b : String) : Bool := a.toLower == b.toLower

end CssColor.Text
