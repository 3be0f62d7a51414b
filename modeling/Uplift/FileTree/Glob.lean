import Uplift.FileTree.Access

/-!
# Glob patterns

A pattern is matched piece by piece.  `*` stands for any characters within a name, `?` for one,
brackets for one of a class or, after `!`, for one outside of it; `**` as a whole piece stands for
any number of directories.  A piece without any of these is followed as it is written, dots
included.
-/

set_option autoImplicit false

namespace Uplift.Glob

/-- Why a text is no pattern. -/
inductive PatternError where
  | wildcards
  | recursiveWildcards
  | characterClass
  deriving DecidableEq, Repr

/-- The wording of a cause. -/
def PatternError.message : PatternError → String
  | .wildcards => "wildcards are either regular `*` or recursive `**`"
  | .recursiveWildcards => "recursive wildcards must form a single path component"
  | .characterClass => "invalid range pattern"

/-- A pattern error with the place it was found at, counted in characters. -/
structure PatternFault where
  error : PatternError
  place : Nat
  deriving DecidableEq, Repr

/-- One member of a character class. -/
inductive ClassItem where
  | single (c : Char)
  | range (low high : Char)
  deriving DecidableEq, Repr

/-- Whether a character is a member. -/
def ClassItem.accepts (item : ClassItem) (c : Char) : Bool :=
  match item with
  | .single d => c = d
  | .range low high => low ≤ c && c ≤ high

/-- The members that the inside of a pair of brackets lists. -/
def classItems : List Char → List ClassItem
  | a :: '-' :: b :: rest => .range a b :: classItems rest
  | a :: rest => .single a :: classItems rest
  | [] => []

/-- A unit of a pattern. -/
inductive Token where
  | literal (c : Char)
  | anyChar
  | anySequence
  | anyDirectories
  | within (items : List ClassItem)
  | outside (items : List ClassItem)
  deriving DecidableEq, Repr

/-- Whether a unit that stands for one character accepts it. -/
def Token.accepts (token : Token) (c : Char) : Bool :=
  match token with
  | .literal d => c = d
  | .anyChar => true
  | .within items => items.any (·.accepts c)
  | .outside items => !items.any (·.accepts c)
  | .anySequence | .anyDirectories => false

/-- The first character of a class, then everything up to its closing bracket, and what follows. -/
def readClass? : List Char → Option (List Char × List Char)
  | first :: rest =>
    if rest.contains ']' then
      some (first :: rest.takeWhile (· ≠ ']'), (rest.dropWhile (· ≠ ']')).drop 1)
    else none
  | [] => none

/-- The units of a pattern, from what is left of it, the character before and the number of
characters read. -/
def readTokens : Nat → Option Char → Nat → List Char → Except PatternFault (List Token)
  | 0, _, _, _ => .ok []
  | _, _, _, [] => .ok []
  | fuel + 1, previous, read, c :: rest =>
    if c = '?' then do
      .ok (.anyChar :: (← readTokens fuel (some c) (read + 1) rest))
    else if c = '*' then
      let stars := (c :: rest).takeWhile (· = '*')
      let rest := rest.dropWhile (· = '*')
      if 2 < stars.length then .error ⟨.wildcards, read + 2⟩
      else if stars.length = 1 then do
        .ok (.anySequence :: (← readTokens fuel (some c) (read + 1) rest))
      else if previous = none ∨ previous = some '/' then
        match rest with
        | [] => .ok [.anyDirectories]
        | '/' :: rest => do
          .ok (.anyDirectories :: (← readTokens fuel (some '/') (read + 3) rest))
        | _ => .error ⟨.recursiveWildcards, read + 2⟩
      else .error ⟨.recursiveWildcards, read - 1⟩
    else if c = '[' then
      let (outside, inside) := match rest with
        | '!' :: rest => (true, rest)
        | rest => (false, rest)
      match readClass? inside with
      | some (items, after) => do
        let token := if outside then .outside (classItems items) else .within (classItems items)
        .ok (token :: (← readTokens fuel (some ']') (read + rest.length + 1 - after.length) after))
      | none => .error ⟨.characterClass, read⟩
    else do
      .ok (.literal c :: (← readTokens fuel (some c) (read + 1) rest))

/-- The units of a pattern. -/
def compile (pattern : List Char) : Except PatternFault (List Token) :=
  readTokens pattern.length none 0 pattern

/-- The final pieces of a list, the whole list first. -/
def suffixes {α : Type} : List α → List (List α)
  | [] => [[]]
  | a :: rest => (a :: rest) :: suffixes rest

/-- Whether a name matches the units of a piece. -/
def accepts : List Token → List Char → Bool
  | [], text => text.isEmpty
  | .anySequence :: tokens, text => (suffixes text).any (accepts tokens)
  | token :: tokens, c :: text => token.accepts c && accepts tokens text
  | _ :: _, [] => false

/-- The text of a piece without wildcards. -/
def literal? (tokens : List Token) : Option String :=
  let chars := tokens.mapM fun token =>
    match token with
    | .literal c => some c
    | _ => none
  chars.map String.ofList

/-- Whether a piece stands for any number of directories. -/
def isRecursive (tokens : List Token) : Bool :=
  tokens.contains .anyDirectories

/-- The paths that the pieces of a pattern lead to from a path.  The first argument bounds the
number of pieces and directories passed on the way. -/
def expandFrom (tree : FileTree) : Nat → List (List Token) → Path → List Path
  | 0, _, _ => []
  | _, [], _ => []
  | fuel + 1, piece :: pieces, path =>
    let goOn (rest : List (List Token)) (next : Path) : List Path :=
      if rest.isEmpty then [next] else expandFrom tree fuel rest next
    match literal? piece with
    | some text =>
      let next := path.joinText text
      let found := if text = "." ∨ text = ".." then tree.hasDirectory path else tree.has next
      if found then goOn pieces next else []
    | none =>
      match tree.list path with
      | .error _ => []
      | .ok names =>
        let matchName (rest : List (List Token)) (name : String) : List Path :=
          match rest with
          | [] => []
          | first :: rest =>
            if accepts first name.toList then goOn rest (path.joinText name) else []
        let children := names.flatMap fun name =>
          let child := path.joinText name
          if isRecursive piece then
            let rest := pieces.dropWhile isRecursive
            if tree.hasDirectory child then
              expandFrom tree fuel (piece :: rest) child ++
                (if rest.isEmpty then [child] else matchName rest name)
            else matchName rest name
          else matchName (piece :: pieces) name
        let dots := if piece.head? = some (.literal '.') then
            [".", ".."].flatMap fun dot =>
              if accepts piece dot.toList then goOn pieces (path.joinText dot) else []
          else []
        children ++ dots

/-- The paths that match a pattern, in no particular order. -/
def expand (tree : FileTree) (pattern : Path) : Except PatternFault (List Path) := do
  let _ ← compile pattern.text.toList
  let (start, pieces) : Path × List String :=
    if pattern.isAbsolute then (⟨["", ""]⟩, pattern.pieces.drop 1) else (Path.empty, pattern.pieces)
  let pieces ← pieces.mapM fun piece => compile piece.toList
  .ok (expandFrom tree ((pieces.length + 1) * (tree.size + 2)) pieces start)

end Uplift.Glob
