import Uplift.Text.Search

/-!
# Paths

A path is the list of pieces between the slashes of its text, so nothing of its spelling is lost:
doubled and trailing slashes show as empty pieces, and joining two paths is joining their lists.
What a path *means* is its list of components.  There an empty piece counts for nothing, and
neither does a single dot, except as the first piece of a relative path.  Comparison, prefixes and
order all go by components.
-/

set_option autoImplicit false

namespace Uplift

/-- A path, by the pieces between its slashes. -/
structure Path where
  pieces : List String
  deriving DecidableEq, Repr, Inhabited

namespace Path

/-- A meaningful part of a path. -/
inductive Component where
  | root
  | current
  | parent
  | normal (name : String)
  deriving DecidableEq, Repr

namespace Component

/-- How a component is written. -/
def piece : Component → String
  | .root => ""
  | .current => "."
  | .parent => ".."
  | .normal name => name

/-- The rank of a component; all names have the same. -/
def rank : Component → Nat
  | .root => 0
  | .current => 1
  | .parent => 2
  | .normal _ => 3

/-- Components compare by rank, names by their text. -/
protected def compare (a b : Component) : Ordering :=
  match a, b with
  | .normal a, .normal b => Ord.compare a b
  | a, b => Ord.compare a.rank b.rank

end Component

/-! ## Text -/

/-- The path a text spells. -/
def ofText (text : String) : Path :=
  ⟨(Text.splitOn '/' text.toList).map String.ofList⟩

/-- The spelling of a path. -/
def text (path : Path) : String :=
  String.intercalate "/" path.pieces

/-- The empty relative path. -/
def empty : Path :=
  ⟨[""]⟩

/-- Whether a path starts at the root. -/
def isAbsolute (path : Path) : Bool :=
  match path.pieces with
  | "" :: _ :: _ => true
  | _ => false

/-- Whether a path ends in a slash. -/
def endsInSlash (path : Path) : Bool :=
  path.pieces.getLast? = some ""

/-- Whether a path ends in a name, apart from slashes. -/
def endsInName (path : Path) : Bool :=
  match path.pieces.reverse.dropWhile (· = "") with
  | last :: _ => last ≠ "." && last ≠ ".."
  | [] => false

/-! ## Components -/

/-- What a piece means after the start of a path. -/
def innerComponent? (piece : String) : Option Component :=
  if piece = "" ∨ piece = "." then none
  else if piece = ".." then some .parent
  else some (.normal piece)

/-- What the first piece of a relative path means. -/
def leadingComponent? (piece : String) : Option Component :=
  if piece = "" then none
  else if piece = "." then some .current
  else if piece = ".." then some .parent
  else some (.normal piece)

/-- The components of a path. -/
def components (path : Path) : List Component :=
  match path.pieces with
  | [] => []
  | [piece] => (leadingComponent? piece).toList
  | "" :: rest => .root :: rest.filterMap innerComponent?
  | piece :: rest => (leadingComponent? piece).toList ++ rest.filterMap innerComponent?

/-- The plainest path with the given components. -/
def ofComponents (components : List Component) : Path :=
  match components with
  | [] => empty
  | [.root] => ⟨["", ""]⟩
  | components => ⟨components.map Component.piece⟩

/-- Whether two paths have the same components. -/
def same (a b : Path) : Bool :=
  a.components == b.components

/-- Lists of components compare at the first place where they differ. -/
def compareComponents : List Component → List Component → Ordering
  | [], [] => .eq
  | [], _ :: _ => .lt
  | _ :: _, [] => .gt
  | a :: as, b :: bs => (a.compare b).then (compareComponents as bs)

/-- The order of paths. -/
protected def compare (a b : Path) : Ordering :=
  compareComponents a.components b.components

/-- Whether a path comes before another or has the same components. -/
def upTo (a b : Path) : Bool :=
  Path.compare a b != .gt

/-- Whether a path starts with the components of another. -/
def startsWith (path base : Path) : Bool :=
  base.components.isPrefixOf path.components

/-! ## Joining and taking apart -/

/-- The path without a final empty piece. -/
def openEnd (pieces : List String) : List String :=
  if pieces.getLast? = some "" then pieces.dropLast else pieces

/-- A path continued by another; an absolute one replaces it. -/
def join (path next : Path) : Path :=
  if next.isAbsolute then next else ⟨openEnd path.pieces ++ next.pieces⟩

/-- A path continued by a text. -/
def joinText (path : Path) (next : String) : Path :=
  path.join (ofText next)

/-- Whether a piece after the first means nothing. -/
def isIdle (piece : String) : Bool :=
  piece = "" || piece = "."

/-- Drops the idle pieces at the end of a list. -/
def dropIdleEnd (pieces : List String) : List String :=
  (pieces.reverse.dropWhile isIdle).reverse

/-- The pieces of a path after the root, without the idle ones at the end; the first piece of a
relative path is idle only if it is empty. -/
def body (path : Path) : List String :=
  match path.pieces with
  | [] => []
  | [""] => []
  | "" :: rest => dropIdleEnd rest
  | piece :: rest => piece :: dropIdleEnd rest

/-- A path with the given pieces after its root, if it has one. -/
def rebuild (absolute : Bool) (pieces : List String) : Path :=
  match absolute, pieces with
  | true, [] => ⟨["", ""]⟩
  | true, pieces => ⟨"" :: pieces⟩
  | false, [] => empty
  | false, pieces => ⟨pieces⟩

/-- The path without its last component, if it has one other than the root. -/
def parent? (path : Path) : Option Path :=
  match path.body with
  | [] => none
  | pieces => some (rebuild path.isAbsolute (rebuild path.isAbsolute pieces.dropLast).body)

/-- The last component, if it is a name. -/
def fileName? (path : Path) : Option String :=
  match path.components.getLast? with
  | some (.normal name) => some name
  | _ => none

/-- The path with another last name. -/
def withFileName (path : Path) (name : String) : Path :=
  if path.fileName?.isSome then (path.parent?.getD empty).joinText name else path.joinText name

/-- What follows the last dot of the file name, unless the name starts with that dot. -/
def extension? (path : Path) : Option String := do
  let (before, after) ← Text.splitLast? '.' (← path.fileName?).toList
  if before.isEmpty then none else some (String.ofList after)

/-- Drops pieces up to and including a number of components. -/
def dropComponents : Nat → List String → List String
  | 0, pieces => pieces
  | _, [] => []
  | count + 1, piece :: rest =>
    if isIdle piece then dropComponents (count + 1) rest else dropComponents count rest

/-- What remains of a path after a base, if it starts with the base. -/
def stripBase? (path base : Path) : Option Path :=
  if path.startsWith base then
    let count := base.components.length
    if count = 0 then some (rebuild path.isAbsolute path.body)
    else
      let rest := dropComponents (count - 1) (path.pieces.drop 1)
      some (rebuild false (dropIdleEnd (rest.dropWhile isIdle)))
  else none

/-- The proper ancestors of a path, nearest first. -/
def properAncestors : Nat → Path → List Path
  | 0, _ => []
  | fuel + 1, path =>
    match path.parent? with
    | some parent => parent :: properAncestors fuel parent
    | none => []

/-- A path and its ancestors, nearest first. -/
def ancestors (path : Path) : List Path :=
  path :: properAncestors path.pieces.length path

end Path

end Uplift
