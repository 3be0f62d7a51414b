/-!
# Blank characters

Trimming removes the characters that Unicode marks as `White_Space`, at either end of a text.
The property is a finite table of code points; core's `Char.isWhitespace` knows only four of
them.
-/

set_option autoImplicit false

namespace Uplift.Text

/-- The code points with the Unicode property `White_Space`. -/
def isBlank (c : Char) : Bool :=
  let n := c.toNat
  (9 ≤ n && n ≤ 13) || n == 32 || n == 0x85 || n == 0xA0 || n == 0x1680 ||
    (0x2000 ≤ n && n ≤ 0x200A) || n == 0x2028 || n == 0x2029 || n == 0x202F ||
    n == 0x205F || n == 0x3000

/-- A text without the blanks it starts with. -/
def trimStart (text : List Char) : List Char :=
  text.dropWhile isBlank

/-- A text without the blanks it ends with. -/
def trimEnd (text : List Char) : List Char :=
  (text.reverse.dropWhile isBlank).reverse

/-- A text without the blanks at its two ends. -/
def trim (text : List Char) : List Char :=
  trimEnd (trimStart text)

/-- Trimming of a string. -/
def trimmed (text : String) : String :=
  String.ofList (trim text.toList)

end Uplift.Text
