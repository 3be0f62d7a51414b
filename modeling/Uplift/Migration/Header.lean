import Uplift.Text.Blank
import Uplift.Text.Lines
import Uplift.Text.Search

/-!
# Headers of migration documents

A migration document starts with a header between two `---` lines: three scalars that must be
given (`package`, `version`, `breaking`) and an optional list of changes.  Everything after the
second line is free text.

The header is read line by line.  Blank lines and lines that start with `#` count for nothing.
Below `changes:` an item starts with a hyphen, and the indented lines after it belong to it; the
first line that is neither ends the list.
-/

set_option autoImplicit false

namespace Uplift.Migration

/-! ## Changes -/

/-- What a change does. -/
inductive ChangeKind where
  | renamed
  | removed
  | signatureChanged
  | moved
  | deprecated
  | added
  deriving DecidableEq, Repr, Inhabited

namespace ChangeKind

/-- All kinds. -/
def all : List ChangeKind :=
  [.renamed, .removed, .signatureChanged, .moved, .deprecated, .added]

/-- How a kind is written. -/
def text : ChangeKind → String
  | .renamed => "renamed"
  | .removed => "removed"
  | .signatureChanged => "signature-changed"
  | .moved => "moved"
  | .deprecated => "deprecated"
  | .added => "added"

/-- The kind a text names. -/
def parse? (text : String) : Option ChangeKind :=
  all.find? fun kind => kind.text = text

/-- The name of a kind is read as that kind. -/
theorem parse?_text (kind : ChangeKind) : parse? kind.text = some kind := by
  cases kind <;> rfl

end ChangeKind

/-- One change that a document declares. -/
structure Change where
  kind : ChangeKind
  origin : Option String
  destination : Option String
  path : Option String
  symbol : Option String
  detail : Option String
  /-- The script that carries the change out, relative to the codemod root. -/
  codemod : Option String
  deriving DecidableEq, Repr, Inhabited

/-- The header of a document. -/
structure Header where
  package : String
  version : String
  breaking : Bool
  changes : List Change
  deriving DecidableEq, Repr, Inhabited

/-! ## Lines -/

/-- The line around a header. -/
def delimiter : List Char := "---".toList

/-- A text without the pair of equal quotes around it, if there is one. -/
def unquote (text : List Char) : List Char :=
  match text with
  | first :: rest =>
    if (first = '"' ∨ first = '\'') ∧ rest.getLast? = some first then rest.dropLast else text
  | [] => []

/-- The key and the value of a line.  A key has no blank in it. -/
def keyValue? (text : List Char) : Option (String × String) := do
  let (key, value) ← Text.splitOnce? ':' text
  let key := Text.trim key
  if key.isEmpty || key.contains ' ' then none
  else some (String.ofList key, String.ofList (unquote (Text.trim value)))

/-- What an item's first line says, after its hyphen. -/
def listItem? (trimmed : List Char) : Option (List Char) :=
  match trimmed with
  | ['-'] => some []
  | '-' :: ' ' :: rest => some (Text.trim rest)
  | _ => none

/-- Whether a line starts with a blank or a tab. -/
def isIndented : List Char → Bool
  | c :: _ => c = ' ' || c = '\t'
  | [] => false

/-- `true` and `false`, as written. -/
def parseBool? (text : String) : Option Bool :=
  if text = "true" then some true else if text = "false" then some false else none

/-! ## Items -/

/-- The key and value lines of an item, in order. -/
abbrev RawChange := List (String × String)

/-- A change under construction; its kind is not known yet. -/
structure PartialChange where
  kind : Option ChangeKind
  change : Change

/-- Takes one line of an item into account; unknown keys are ignored, and a later line wins. -/
def PartialChange.set (draft : PartialChange) (line : String × String) : PartialChange :=
  let change := draft.change
  match line with
  | ("type", value) => { draft with kind := ChangeKind.parse? value }
  | ("from", value) => { draft with change := { change with origin := some value } }
  | ("to", value) => { draft with change := { change with destination := some value } }
  | ("path", value) => { draft with change := { change with path := some value } }
  | ("export", value) => { draft with change := { change with symbol := some value } }
  | ("detail", value) => { draft with change := { change with detail := some value } }
  | ("codemod", value) => { draft with change := { change with codemod := some value } }
  | _ => draft

/-- The change that an item's lines describe, if they name a kind. -/
def RawChange.toChange? (raw : RawChange) : Option Change :=
  let start : PartialChange := ⟨none, ⟨.added, none, none, none, none, none, none⟩⟩
  let draft := raw.foldl PartialChange.set start
  draft.kind.map fun kind => { draft.change with kind }

/-! ## The header as a whole -/

/-- What has been read of a header so far. -/
structure Draft where
  package : Option String
  version : Option String
  breaking : Option Bool
  changes : List Change
  inChanges : Bool
  current : Option RawChange
  deriving Inhabited

namespace Draft

/-- Nothing read yet. -/
def start : Draft :=
  ⟨none, none, none, [], false, none⟩

/-- Ends the item that is being read; one without a known kind is dropped. -/
def flush (draft : Draft) : Draft :=
  match draft.current with
  | some raw => { draft with changes := draft.changes ++ raw.toChange?.toList, current := none }
  | none => draft

/-- Takes a line outside of the list of changes into account. -/
def scalar (draft : Draft) (trimmed : List Char) : Draft :=
  match keyValue? trimmed with
  | some ("package", value) => { draft with package := some value }
  | some ("version", value) => { draft with version := some value }
  | some ("breaking", value) => { draft with breaking := parseBool? value }
  | some ("changes", value) => { draft with inChanges := value = "" }
  | _ => draft

/-- Takes a line into account. -/
def step (draft : Draft) (line : List Char) : Draft :=
  let trimmed := Text.trim line
  if trimmed.isEmpty || trimmed.head? = some '#' then draft
  else if draft.inChanges then
    match listItem? trimmed with
    | some item => { draft.flush with current := some (keyValue? item).toList }
    | none =>
      if isIndented line then
        match draft.current, keyValue? trimmed with
        | some raw, some pair => { draft with current := some (raw ++ [pair]) }
        | _, _ => draft
      else scalar { draft.flush with inChanges := false } trimmed
  else draft.scalar trimmed

/-- The header, if all that must be given was given. -/
def finish? (draft : Draft) : Option Header := do
  let draft := draft.flush
  let package ← draft.package
  let version ← draft.version
  let breaking ← draft.breaking
  if package = "" ∨ version = "" then none
  else some ⟨package, version, breaking, draft.changes⟩

end Draft

/-- The header that lines spell. -/
def parseHeader? (lines : List (List Char)) : Option Header :=
  (lines.foldl Draft.step Draft.start).finish?

/-- The lines of a header and the lines after it, from the lines after its first delimiter. -/
def splitHeader? : List (List Char) → Option (List (List Char) × List (List Char))
  | [] => none
  | line :: rest =>
    if Text.trimEnd line = delimiter then some ([], rest)
    else (splitHeader? rest).map fun (header, body) => (line :: header, body)

/-- A text without a byte order mark at its start. -/
def stripMark : List Char → List Char
  | c :: rest => if c.toNat = 0xFEFF then rest else c :: rest
  | [] => []

/-- The header and the body of a document. -/
def parseDocument? (text : String) : Option (Header × String) :=
  match Text.lines (stripMark (Text.foldCrlf text.toList)) with
  | [] => none
  | first :: rest =>
    if Text.trimEnd first = delimiter then do
      let (headerLines, bodyLines) ← splitHeader? rest
      let header ← parseHeader? headerLines
      some (header, String.ofList (Text.trim (Text.joinWith ['\n'] bodyLines)))
    else none

end Uplift.Migration
