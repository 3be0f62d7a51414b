/-!
# Bytes and text

Files and process output are bytes.  Reading text from them is strict: bytes that are no UTF-8
give no text, and what was written as text reads back as that text (`decode?_encode`).  Messages
of other programs are read leniently: every maximal ill-formed run stands for one replacement
character.

`symbols` keeps both apart: a byte sequence is a sequence of characters and of stray bytes that
belong to no character.
-/

set_option autoImplicit false

namespace Uplift.Text

/-- The bytes of a text. -/
def encode (text : String) : ByteArray :=
  text.toUTF8

/-- The text that bytes spell, if they are well-formed UTF-8. -/
def decode? (bytes : ByteArray) : Option String :=
  String.fromUTF8? bytes

/-- Written text reads back. -/
theorem decode?_encode (text : String) : decode? (encode text) = some text := by
  have h : text.toUTF8.IsValidUTF8 := text.isValidUTF8
  exact dif_pos h

/-- One unit of a byte sequence read as UTF-8. -/
inductive Symbol where
  /-- A well-formed character. -/
  | char (c : Char)
  /-- A byte that starts or continues no well-formed character. -/
  | stray (byte : UInt8)
  deriving DecidableEq, Repr

namespace Symbol

/-- The number of bytes a unit takes. -/
def width : Symbol → Nat
  | .char c => c.utf8Size
  | .stray _ => 1

/-- Whether the unit is the given character. -/
def isChar (s : Symbol) (c : Char) : Bool :=
  match s with
  | .char d => d == c
  | .stray _ => false

end Symbol

/-- Whether a byte continues a character. -/
def isContinuation (byte : UInt8) : Bool :=
  0x80 ≤ byte && byte < 0xC0

/-- The character that a lead byte and its continuation start, with the number of bytes taken, or
the number of bytes of the ill-formed run. -/
def decodeOne (lead : UInt8) (rest : List UInt8) : Except Nat (Char × Nat) :=
  let tail (byte : UInt8) : Nat := byte.toNat - 0x80
  if lead < 0x80 then .ok (Char.ofNat lead.toNat, 1)
  else if lead < 0xC2 then .error 1
  else if lead < 0xE0 then
    match rest with
    | b :: _ =>
      if isContinuation b then .ok (Char.ofNat ((lead.toNat - 0xC0) * 64 + tail b), 2)
      else .error 1
    | [] => .error 1
  else if lead < 0xF0 then
    match rest with
    | b :: more =>
      let low : UInt8 := if lead == 0xE0 then 0xA0 else 0x80
      let high : UInt8 := if lead == 0xED then 0x9F else 0xBF
      if low ≤ b && b ≤ high then
        match more with
        | c :: _ =>
          if isContinuation c then
            .ok (Char.ofNat ((lead.toNat - 0xE0) * 4096 + tail b * 64 + tail c), 3)
          else .error 2
        | [] => .error 2
      else .error 1
    | [] => .error 1
  else if lead < 0xF5 then
    match rest with
    | b :: more =>
      let low : UInt8 := if lead == 0xF0 then 0x90 else 0x80
      let high : UInt8 := if lead == 0xF4 then 0x8F else 0xBF
      if low ≤ b && b ≤ high then
        match more with
        | c :: last =>
          if isContinuation c then
            match last with
            | d :: _ =>
              if isContinuation d then
                .ok (Char.ofNat
                  ((lead.toNat - 0xF0) * 262144 + tail b * 4096 + tail c * 64 + tail d), 4)
              else .error 3
            | [] => .error 3
          else .error 2
        | [] => .error 2
      else .error 1
    | [] => .error 1
  else .error 1

/-- The characters of a byte sequence, with each maximal ill-formed run given as its bytes. -/
def runs : Nat → List UInt8 → List (Except (List UInt8) Char)
  | 0, _ => []
  | _, [] => []
  | fuel + 1, lead :: rest =>
    match decodeOne lead rest with
    | .ok (c, taken) => .ok c :: runs fuel (rest.drop (taken - 1))
    | .error taken => .error (lead :: rest.take (taken - 1)) :: runs fuel (rest.drop (taken - 1))

/-- The units of a byte sequence. -/
def symbols (bytes : ByteArray) : List Symbol :=
  match decode? bytes with
  | some text => text.toList.map .char
  | none =>
    (runs bytes.size bytes.toList).flatMap fun
      | .ok c => [.char c]
      | .error strays => strays.map .stray

/-- Lenient reading: every ill-formed run becomes one replacement character. -/
def decodeLossy (bytes : ByteArray) : String :=
  match decode? bytes with
  | some text => text
  | none =>
    String.ofList ((runs bytes.size bytes.toList).map fun
      | .ok c => c
      | .error _ => Char.ofNat 0xFFFD)

end Uplift.Text
