/-!
# Lines

A text is cut after every line feed, so that each piece keeps its terminator and the pieces
concatenate to the text (`flatten_splitLines`).  A carriage return followed by a line feed is
folded into the line feed alone, once, from left to right.
-/

set_option autoImplicit false

namespace Uplift.Text

/-- Every carriage return that a line feed follows is dropped. -/
def foldCrlf : List Char → List Char
  | [] => []
  | [c] => [c]
  | '\r' :: '\n' :: rest => '\n' :: foldCrlf rest
  | c :: d :: rest => c :: foldCrlf (d :: rest)

/-- The pieces of a text, each ending with its line feed; only the last may lack one, and no
piece is empty. -/
def splitLines : List Char → List (List Char)
  | [] => []
  | c :: rest =>
    if c = '\n' then ['\n'] :: splitLines rest
    else
      match splitLines rest with
      | [] => [[c]]
      | piece :: pieces => (c :: piece) :: pieces

/-- Nothing is lost by cutting a text into lines. -/
theorem flatten_splitLines (text : List Char) : (splitLines text).flatten = text := by
  induction text with
  | nil => rfl
  | cons c rest ih =>
    unfold splitLines
    split
    next h => simp [ih, h]
    next =>
      split
      next h => simp [h] at ih; simp [← ih]
      next piece pieces h => simp [h] at ih; simp [ih]

/-- A line without its terminator: one line feed, and one carriage return before it. -/
def stripTerminator (line : List Char) : List Char :=
  match line.reverse with
  | '\n' :: '\r' :: rest => rest.reverse
  | '\n' :: rest => rest.reverse
  | _ => line

/-- The lines of a text without their terminators. -/
def lines (text : List Char) : List (List Char) :=
  (splitLines text).map stripTerminator

/-- Joins pieces with a separator between each two. -/
def joinWith (separator : List Char) : List (List Char) → List Char
  | [] => []
  | [piece] => piece
  | piece :: next :: pieces => piece ++ separator ++ joinWith separator (next :: pieces)

/-- Joins strings with a separator between each two. -/
def join (separator : String) (pieces : List String) : String :=
  String.intercalate separator pieces

end Uplift.Text
