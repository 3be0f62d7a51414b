import Uplift.Text.Search

/-!
# Patterns of text

A pattern is a sequence of sets of characters, each taken once, at most once, or any number of
times, and it may be tied to the start or the end of a line.  Of the places where a pattern fits,
the first one counts, and there the longest piece of text that fits.
-/

set_option autoImplicit false

namespace Uplift.Text

/-- A set of characters. -/
inductive CharSet where
  | any
  | exactly (c : Char)
  /-- The characters in one of some ranges, or those in none of them. -/
  | ranges (isNegated : Bool) (bounds : List (Char × Char))
  deriving DecidableEq, Repr

/-- Whether a character is in a set. -/
def CharSet.accepts (set : CharSet) (c : Char) : Bool :=
  match set with
  | .any => true
  | .exactly d => c = d
  | .ranges isNegated bounds => isNegated != bounds.any fun (low, high) => low ≤ c && c ≤ high

/-- How often a character is taken. -/
inductive Repetition where
  | once
  | atMostOnce
  | anyNumber
  deriving DecidableEq, Repr

/-- A pattern. -/
structure Pattern where
  startsLine : Bool
  items : List (CharSet × Repetition)
  endsLine : Bool
  deriving DecidableEq, Repr

/-! ## Reading -/

/-- The ranges of a set in brackets. -/
def readRanges : List Char → List (Char × Char)
  | low :: '-' :: high :: rest => (low, high) :: readRanges rest
  | c :: rest => (c, c) :: readRanges rest
  | [] => []

/-- The set after an opening bracket, and what follows the closing one.  A closing bracket that
comes first is a member. -/
def readSet? (text : List Char) : Option (CharSet × List Char) := do
  let (isNegated, text) := match text with
    | '^' :: rest => (true, rest)
    | text => (false, text)
  let (first, text) := match text with
    | ']' :: rest => ([']'], rest)
    | text => ([], text)
  let (inside, rest) ← splitOnce? ']' text
  some (.ranges isNegated (readRanges (first ++ inside)), rest)

/-- The set that a text starts with, and what follows it. -/
def readCharSet? : List Char → Option (CharSet × List Char)
  | '.' :: rest => some (.any, rest)
  | '[' :: rest => readSet? rest
  | '\\' :: c :: rest => if c.isAlphanum ∨ c = '(' then none else some (.exactly c, rest)
  | c :: rest => some (.exactly c, rest)
  | [] => none

/-- How often the set before a text is taken, and what follows.  Only extended patterns know more
than the star. -/
def readRepetition (isExtended : Bool) : List Char → List Repetition × List Char
  | '*' :: rest => ([.anyNumber], rest)
  | '+' :: rest => if isExtended then ([.once, .anyNumber], rest) else ([.once], '+' :: rest)
  | '?' :: rest => if isExtended then ([.atMostOnce], rest) else ([.once], '?' :: rest)
  | text => ([.once], text)

/-- The sets of a pattern with their repetitions, and whether it is tied to the end of the line. -/
def readItems? (isExtended : Bool) :
    Nat → List Char → Option (List (CharSet × Repetition) × Bool)
  | 0, _ => none
  | _ + 1, [] => some ([], false)
  | _ + 1, ['$'] => some ([], true)
  | fuel + 1, text => do
    let (set, text) ← readCharSet? text
    let (repetitions, text) := readRepetition isExtended text
    let (items, endsLine) ← readItems? isExtended fuel text
    some (repetitions.map (fun repetition => (set, repetition)) ++ items, endsLine)

/-- The pattern that a text stands for. -/
def Pattern.read? (isExtended : Bool) (text : List Char) : Option Pattern := do
  let (startsLine, text) := match text with
    | '^' :: rest => (true, rest)
    | text => (false, text)
  let (items, endsLine) ← readItems? isExtended (text.length + 1) text
  some ⟨startsLine, items, endsLine⟩

/-! ## Matching -/

/-- What may be left of a text after characters of a set, any number of them. -/
def tailsAfter (set : CharSet) : List Char → List (List Char)
  | [] => [[]]
  | c :: rest => (c :: rest) :: if set.accepts c then tailsAfter set rest else []

/-- What may be left of a text after the items of a pattern. -/
def tailsAfterItems : List (CharSet × Repetition) → List Char → List (List Char)
  | [], text => [text]
  | (set, repetition) :: items, text =>
    match repetition, text with
    | .anyNumber, text => (tailsAfter set text).flatMap (tailsAfterItems items)
    | .once, [] => []
    | .once, c :: rest => if set.accepts c then tailsAfterItems items rest else []
    | .atMostOnce, [] => tailsAfterItems items []
    | .atMostOnce, c :: rest =>
      tailsAfterItems items (c :: rest) ++
        if set.accepts c then tailsAfterItems items rest else []

/-- The shortest text of a list. -/
def shortest? : List (List Char) → Option (List Char)
  | [] => none
  | text :: rest =>
    match shortest? rest with
    | some other => if other.length < text.length then some other else some text
    | none => some text

/-- The longest piece at the start of a text that fits a pattern, and what follows it.  `isStart`
says whether the text starts a line. -/
def Pattern.fit? (pattern : Pattern) (isStart : Bool) (text : List Char) :
    Option (List Char × List Char) := do
  guard (isStart || !pattern.startsLine)
  let tails := tailsAfterItems pattern.items text
  let rest ← shortest? (if pattern.endsLine then tails.filter List.isEmpty else tails)
  some (text.take (text.length - rest.length), rest)

/-- A line cut up by a pattern: pieces that fit, marked with `true`, and single characters between
them. -/
def Pattern.cut (pattern : Pattern) (isStart : Bool) (line : List Char) :
    List (Bool × List Char) :=
  match line with
  | [] => match pattern.fit? isStart [] with
    | some (piece, _) => [(true, piece)]
    | none => []
  | c :: text =>
    match pattern.fit? isStart (c :: text) with
    | some (piece, rest) =>
      if rest.length ≤ text.length then
        if rest.isEmpty then [(true, piece)] else (true, piece) :: pattern.cut false rest
      else (true, []) :: (false, [c]) :: pattern.cut false text
    | none => (false, [c]) :: pattern.cut false text
termination_by line.length
decreasing_by all_goals simp only [List.length_cons]; omega

/-- Whether a pattern fits somewhere in a line. -/
def Pattern.fits (pattern : Pattern) (line : List Char) : Bool :=
  (pattern.cut true line).any Prod.fst

/-- Puts a replacement, which may use the piece itself, in the place of pieces that fit: of all of
them, or of the first one. -/
def replacePieces (replacement : List Char → List Char) (isGlobal : Bool) :
    List (Bool × List Char) → List Char
  | [] => []
  | (true, piece) :: rest =>
    replacement piece ++
      if isGlobal then replacePieces replacement isGlobal rest else (rest.map Prod.snd).flatten
  | (false, piece) :: rest => piece ++ replacePieces replacement isGlobal rest

end Uplift.Text
