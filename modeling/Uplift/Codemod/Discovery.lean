import Uplift.Migration.Library
import Uplift.Path.Lexical

/-!
# Finding codemods

The documents of a library refer to codemods by paths relative to one directory.  A reference
counts only if it leads to a file below that directory, and each file is listed once, where it is
first referred to.
-/

set_option autoImplicit false

namespace Uplift.Codemod

/-- A codemod: how a document refers to it, and where it is. -/
structure Reference where
  relative : String
  path : Path
  deriving DecidableEq, Repr, Inhabited

/-- The references of some documents, in order. -/
def referencesOf (documents : List Migration.Document) : List String :=
  documents.flatMap fun document => document.header.changes.filterMap Migration.Change.codemod

/-- The codemod that a reference leads to. -/
def resolve? (tree : FileTree) (root : Path) (reference : String) : Option Reference := do
  let path ← Path.within? root reference
  if tree.hasFile path then some ⟨reference, path⟩ else none

/-- Drops every codemod whose file was listed before; `seen` are the files listed so far. -/
def firstReferences (seen : List Path) : List Reference → List Reference
  | [] => []
  | reference :: rest =>
    if seen.any reference.path.same then firstReferences seen rest
    else reference :: firstReferences (reference.path :: seen) rest

/-- The codemods for a package between two versions. -/
def discover (tree : FileTree) (library root : Path) (package low high : String) :
    List Reference :=
  let documents := Migration.readDocuments tree library package low high
  firstReferences [] ((referencesOf documents).filterMap (resolve? tree root))

end Uplift.Codemod
