import Uplift.Failure
import Uplift.FileTree.Access
import Uplift.Json.Printer
import Uplift.Json.Reader

/-!
# Manifests

A manifest is a JSON object, and each of its dependency sections, where present, is an object
too.  All other content is carried along unchanged and in order.
-/

set_option autoImplicit false

namespace Uplift

/-- The name of manifest files. -/
def manifestFile : String := "package.json"

/-- The parts of a manifest that map package names to ranges. -/
inductive DependencySection where
  | runtime
  | development
  | peer
  | optional
  deriving DecidableEq, Repr

namespace DependencySection

/-- The sections, in the order in which they are visited. -/
def all : List DependencySection :=
  [.runtime, .development, .peer, .optional]

/-- The key of a section. -/
def key : DependencySection → String
  | .runtime => "dependencies"
  | .development => "devDependencies"
  | .peer => "peerDependencies"
  | .optional => "optionalDependencies"

end DependencySection

/-- The fields of a manifest. -/
structure Manifest where
  fields : Json.Fields
  deriving Inhabited

namespace Manifest

/-- The first section that is present and no object. -/
def badSection? (fields : Json.Fields) : Option DependencySection :=
  DependencySection.all.find? fun part =>
    match fields.get? part.key with
    | some (.object _) | none => false
    | some _ => true

/-- The manifest of a document, with failures named after `display`. -/
def ofValue (display : String) : Json.Value → Except Failure Manifest
  | .object fields =>
    match badSection? fields with
    | some part => .error (.manifest display s!"`{part.key}` must be an object")
    | none => .ok ⟨fields⟩
  | _ => .error (.manifest display "manifest must be a JSON object")

/-- The manifest that a text spells, with failures named after `display`. -/
def parse (display content : String) : Except Failure Manifest :=
  match Json.parse content with
  | .error error => .error (.manifest display error.message)
  | .ok document => ofValue display document

/-- The manifest in a file. -/
def load (tree : FileTree) (path : Path) : Except Failure Manifest :=
  match tree.readText path with
  | .error error => .error (.manifest path.text error.message)
  | .ok content => parse path.text content

/-- A manifest as a document. -/
def toValue (manifest : Manifest) : Json.Value :=
  .object manifest.fields

/-- The text of a manifest: indented, with a final line feed. -/
def render (manifest : Manifest) : String :=
  manifest.toValue.render ++ "\n"

/-- The entries of a section, if it is present. -/
def section? (manifest : Manifest) (part : DependencySection) : Option Json.Fields :=
  (manifest.fields.get? part.key).bind Json.Value.fields?

/-- Replaces the entries of a section. -/
def setSection (manifest : Manifest) (part : DependencySection) (entries : Json.Fields) :
    Manifest :=
  ⟨manifest.fields.insert part.key (.object entries)⟩

/-- The dependencies of a section that are texts, in order. -/
def sectionDependencies (manifest : Manifest) (part : DependencySection) :
    List (String × String) :=
  ((manifest.section? part).getD []).filterMap fun entry =>
    entry.2.text?.map fun range => (entry.1, range)

/-- All dependencies that are texts: section by section, in order. -/
def dependencies (manifest : Manifest) : List (DependencySection × String × String) :=
  DependencySection.all.flatMap fun part =>
    (manifest.sectionDependencies part).map fun dependency => (part, dependency)

/-- The entries of a section in ascending order of their names. -/
def sortEntries (entries : Json.Fields) : Json.Fields :=
  entries.mergeSort fun a b => !(b.1 < a.1)

/-- The patterns of workspace members, if the manifest makes its directory a workspace.  They are
given as a list or as the `packages` of an object; items that are no texts are ignored. -/
def workspacePatterns? (manifest : Manifest) : Option (List String) := do
  let items ← match ← manifest.fields.get? "workspaces" with
    | .array items => some items
    | .object fields => (Json.Fields.get? fields "packages").bind Json.Value.items?
    | _ => none
  some (items.filterMap Json.Value.text?)

end Manifest

end Uplift
