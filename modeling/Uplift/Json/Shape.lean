import Uplift.Json.Printer

/-!
# Values of the wrong shape

How a value is named in messages that say it should have been something else.  Texts are quoted
with the characters that cannot be seen written as escapes.
-/

set_option autoImplicit false

namespace Uplift.Json

/-- Whether a character is written as it is between quotes. -/
def isVisible (c : Char) : Bool :=
  let n := c.toNat
  !(n < 0x20 || (0x7f ≤ n && n < 0xa0) || n = 0xad || (0x300 ≤ n && n ≤ 0x36f) ||
    (0x200b ≤ n && n ≤ 0x200f) || (0x2028 ≤ n && n ≤ 0x202e) || (0x2060 ≤ n && n ≤ 0x206f) ||
    (0xe000 ≤ n && n ≤ 0xf8ff) || n = 0xfeff || (0xfff0 ≤ n && n ≤ 0xfffb) || n = 0xfffe ||
    n = 0xffff || 0xe0000 ≤ n)

/-- A character between quotes. -/
def quotedChar (c : Char) : String :=
  if c = '"' then "\\\""
  else if c = '\\' then "\\\\"
  else if c = '\n' then "\\n"
  else if c = '\r' then "\\r"
  else if c = '\t' then "\\t"
  else if c = Char.ofNat 0 then "\\0"
  else if isVisible c then String.singleton c
  else "\\u\x7b" ++ String.ofList (Nat.toDigits 16 c.toNat) ++ "\x7d"

/-- A text in quotes. -/
def quoted (text : String) : String :=
  "\"" ++ String.join (text.toList.map quotedChar) ++ "\""

/-- How a value is named where another was expected. -/
def Value.describe : Value → String
  | .null => "null"
  | .bool value => s!"boolean `{value}`"
  | .number (.integer n) => s!"integer `{n}`"
  | .number (.double bits) => s!"floating point `{(Value.number (.double bits)).renderCompact}`"
  | .string text => s!"string {quoted text}"
  | .array _ => "sequence"
  | .object _ => "map"

/-- The message that a value is not what was expected. -/
def wrongType (found expected : String) : String :=
  s!"invalid type: {found}, expected {expected}"

end Uplift.Json
