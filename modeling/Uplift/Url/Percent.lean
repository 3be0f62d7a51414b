import Uplift.Text.Utf8

/-!
# Percent-encoding

A character that may not stand in some part of an address is written as its bytes, each as a
percent sign and two hexadecimal digits.  Which characters those are differs from part to part;
controls and everything outside ASCII are among them in every part.
-/

set_option autoImplicit false

namespace Uplift.Url

/-- A hexadecimal digit, in capitals. -/
def upperHexDigit (n : Nat) : Char :=
  if n < 10 then Char.ofNat ('0'.toNat + n) else Char.ofNat ('A'.toNat + n - 10)

/-- The value of a hexadecimal digit. -/
def hexValue? (c : Char) : Option Nat :=
  if c.isDigit then some (c.toNat - '0'.toNat)
  else if 'a' ≤ c ∧ c ≤ 'f' then some (c.toNat - 'a'.toNat + 10)
  else if 'A' ≤ c ∧ c ≤ 'F' then some (c.toNat - 'A'.toNat + 10)
  else none

/-- A byte as a percent sign and two digits. -/
def escapeByte (byte : UInt8) : List Char :=
  ['%', upperHexDigit (byte.toNat / 16), upperHexDigit (byte.toNat % 16)]

/-- Writes a text with the characters of a class escaped. -/
def escape (reserved : Char → Bool) (text : List Char) : List Char :=
  text.flatMap fun c =>
    if reserved c then (Text.encode (String.singleton c)).toList.flatMap escapeByte else [c]

/-- The bytes of a text, with every escape replaced by its byte; a percent sign without two digits
stands for itself. -/
def unescape : List Char → List UInt8
  | '%' :: a :: b :: rest =>
    match hexValue? a, hexValue? b with
    | some high, some low => (high * 16 + low).toUInt8 :: unescape rest
    | _, _ => '%'.toUInt8 :: unescape (a :: b :: rest)
  | c :: rest => (Text.encode (String.singleton c)).toList ++ unescape rest
  | [] => []
termination_by text => text.length

/-! ## Classes of characters -/

/-- Controls, and everything outside ASCII. -/
def isControl (c : Char) : Bool :=
  c.toNat < 0x20 || 0x7E < c.toNat

/-- What is escaped in a fragment. -/
def reservedInFragment (c : Char) : Bool :=
  isControl c || [' ', '"', '<', '>', '\x60'].contains c

/-- What is escaped in a query. -/
def reservedInQuery (c : Char) : Bool :=
  isControl c || [' ', '"', '#', '<', '>'].contains c

/-- What is escaped in a segment. -/
def reservedInSegment (c : Char) : Bool :=
  reservedInFragment c || ['#', '?', '\x7b', '\x7d'].contains c

/-- What is escaped in a user name or a password. -/
def reservedInUser (c : Char) : Bool :=
  reservedInSegment c || ['/', ':', ';', '=', '@', '[', '\\', ']', '^', '|'].contains c

end Uplift.Url
