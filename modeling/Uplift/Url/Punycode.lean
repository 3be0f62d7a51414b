/-!
# Names in ASCII

A label of a host name is written in ASCII by giving its ASCII characters first and then saying,
character by character in ascending order, where the others go in.  A place is a difference to the
one before it, and a difference is a number whose digits have a varying base: the threshold of a
digit depends on its position and on a bias that follows the size of the differences so far.
-/

set_option autoImplicit false

namespace Uplift.Url.Punycode

/-- The digits: the letters, then the decimal digits. -/
def digitChar (n : Nat) : Char :=
  if n < 26 then Char.ofNat ('a'.toNat + n) else Char.ofNat ('0'.toNat + n - 26)

/-- The value of a digit. -/
def digitValue? (c : Char) : Option Nat :=
  if 'a' ≤ c ∧ c ≤ 'z' then some (c.toNat - 'a'.toNat)
  else if c.isDigit then some (c.toNat - '0'.toNat + 26)
  else none

/-- A digit below its threshold is the last of its number. -/
def threshold (position bias : Nat) : Nat :=
  min 26 (max 1 (position - bias))

/-- Thresholds are between 1 and 26. -/
theorem threshold_bounds (position bias : Nat) :
    1 ≤ threshold position bias ∧ threshold position bias ≤ 26 := by
  simp only [threshold]
  omega

/-- Reduces a difference until it is small, counting the steps. -/
def reduce (delta steps : Nat) : Nat × Nat :=
  if 455 < delta then reduce (delta / 35) (steps + 1) else (delta, steps)
termination_by delta
decreasing_by exact Nat.div_lt_self (by omega) (by omega)

/-- The bias after a difference; `count` characters are in place by then. -/
def adapt (delta count : Nat) (first : Bool) : Nat :=
  let scaled := if first then delta / 700 else delta / 2
  let (small, steps) := reduce (scaled + scaled / count) 0
  36 * steps + 36 * small / (small + 38)

/-! ## Writing -/

/-- The digits of a number, from the digit at a position on. -/
def writeNumber (bias position n : Nat) : List Char :=
  let limit := threshold position bias
  if n < limit then [digitChar n]
  else
    digitChar (limit + (n - limit) % (36 - limit)) ::
      writeNumber bias (position + 36) ((n - limit) / (36 - limit))
termination_by n
decreasing_by
  have bounds := threshold_bounds position bias
  have := Nat.div_le_self (n - threshold position bias) (36 - threshold position bias)
  omega

/-- How far the writing of a label has come. -/
structure Writer where
  output : List Char
  delta : Nat
  bias : Nat
  /-- The number of characters in place. -/
  count : Nat

/-- Passes over a character of the label while the places of `next` are written; `basic` is the
number of ASCII characters. -/
def Writer.visit (basic next : Nat) (writer : Writer) (c : Char) : Writer :=
  if c.toNat < next then { writer with delta := writer.delta + 1 }
  else if c.toNat = next then
    { output := writer.output ++ writeNumber writer.bias 36 writer.delta
      delta := 0
      bias := adapt writer.delta (writer.count + 1) (writer.count = basic)
      count := writer.count + 1 }
  else writer

/-- Writes the places of the characters in `pending`, which are ascending; `low` is the least one
that may still come. -/
def Writer.writePlaces (label : List Char) (basic low : Nat) (writer : Writer) :
    List Nat → Writer
  | [] => writer
  | next :: pending =>
    let start := { writer with delta := writer.delta + (next - low) * (writer.count + 1) }
    let done := label.foldl (Writer.visit basic next) start
    writePlaces label basic (next + 1) { done with delta := done.delta + 1 } pending

/-- A label in ASCII. -/
def encode (label : List Char) : List Char :=
  let basic := label.filter fun c => c.toNat < 0x80
  let others := ((label.filter fun c => 0x80 ≤ c.toNat).map Char.toNat).eraseDups.mergeSort
  let start : Writer := ⟨[], 0, 72, basic.length⟩
  let lead := if basic.isEmpty then [] else basic ++ ['-']
  lead ++ (start.writePlaces label basic.length 0x80 others).output

/-! ## Reading -/

/-- Reads a number whose next digit has the given position and weight. -/
def readNumber? (bias position weight : Nat) : List Char → Option (Nat × List Char)
  | [] => none
  | c :: rest => do
    let digit ← digitValue? c
    let limit := threshold position bias
    if digit < limit then some (digit * weight, rest)
    else do
      let (high, rest) ← readNumber? bias (position + 36) (weight * (36 - limit)) rest
      some (digit * weight + high, rest)

/-- Puts in characters place by place.  Every place takes a digit at least, so as many rounds as
there are digits suffice. -/
def readPlaces? (rounds bias place code : Nat) (first : Bool) (label digits : List Char) :
    Option (List Char) :=
  match rounds, digits with
  | _, [] => some label
  | 0, _ :: _ => none
  | rounds + 1, digits => do
    let (delta, rest) ← readNumber? bias 36 1 digits
    let count := label.length + 1
    let place := place + delta
    let code := code + place / count
    if code.isValidChar then
      let place := place % count
      readPlaces? rounds (adapt delta count first) (place + 1) code false
        (label.take place ++ Char.ofNat code :: label.drop place) rest
    else none

/-- The characters before the last dash of a text, and those after it. -/
def splitLead (text : List Char) : List Char × List Char :=
  let digits := (text.reverse.takeWhile (· ≠ '-')).reverse
  (text.take (text.length - digits.length - 1), digits)

/-- The label that a text in ASCII stands for. -/
def decode? (text : List Char) : Option (List Char) :=
  let (lead, digits) := splitLead text
  readPlaces? digits.length 72 0 0x80 true lead digits

end Uplift.Url.Punycode
