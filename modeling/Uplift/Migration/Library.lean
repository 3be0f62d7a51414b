import Uplift.FileTree.Access
import Uplift.Migration.Header
import Uplift.Path.Display
import Uplift.Version

/-!
# Libraries of migration documents

A library is a directory of documents, each named after the short name of a package and a version.
Short names are shared between scopes, so a document counts for a package only if its header names
that package in full.  A query gives the documents for the versions above one and up to another, in
ascending order.
-/

set_option autoImplicit false

namespace Uplift.Migration

/-- A document of a library. -/
structure Document where
  file : Path
  /-- The version in the file's name. -/
  version : Version
  header : Header
  body : String

/-! ## Finding a library -/

/-- The library at or above a directory. -/
def libraryAbove? (tree : FileTree) (dir : Path) (relative : String) : Option Path :=
  (dir.ancestors.map fun above => above.joinText relative).find? tree.hasDirectory

/-- The library at or above a directory, or else the one below a fallback. -/
def findLibrary? (tree : FileTree) (dir : Path) (relative : String) (fallback : Option Path) :
    Option Path :=
  match libraryAbove? tree dir relative with
  | some found => some found
  | none => (fallback.map fun other => other.joinText relative).filter tree.hasDirectory

/-! ## Documents -/

/-- The version in the name of a document for a package. -/
def versionOfName? (package name : String) : Option Version := do
  let stem ← Text.stripSuffix? ".md".toList name.toList
  let version ← Text.stripPrefix? (shortName package ++ "-").toList stem
  Version.parse? (String.ofList version)

/-- The files of a directory that are named for a package, with their versions. -/
def namedFiles (tree : FileTree) (dir : Path) (package : String) : List (Version × Path) :=
  match tree.list dir with
  | .error _ => []
  | .ok names =>
    names.filterMap fun name =>
      let path := dir.joinText name
      if tree.hasFile path then (versionOfName? package name).map fun version => (version, path)
      else none

/-- The document in a file, if it is written for a package. -/
def loadDocument? (tree : FileTree) (package : String) (version : Version) (file : Path) :
    Option Document := do
  let content ← (tree.readText file).toOption
  let (header, body) ← parseDocument? content
  if header.package = package then some ⟨file, version, header, body⟩ else none

/-- The documents for a package with a version above `low` and up to `high`. -/
def documentsBetween (tree : FileTree) (dir : Path) (package : String) (low high : Version) :
    List Document :=
  let inRange := (namedFiles tree dir package).filter fun (version, _) =>
    low.before version && version.upTo high
  let documents := inRange.filterMap fun (version, file) => loadDocument? tree package version file
  documents.mergeSort fun a b => a.version.upTo b.version

/-- The documents for a package between two version texts; none if one is no version. -/
def readDocuments (tree : FileTree) (dir : Path) (package low high : String) : List Document :=
  match Version.parseLoose? low, Version.parseLoose? high with
  | some low, some high => documentsBetween tree dir package low high
  | _, _ => []

/-- The authors' flag for one version of a package.  Only libraries of the project itself count. -/
def breakingFlag? (tree : FileTree) (dir : Path) (relative package version : String) :
    Option Bool := do
  let library ← libraryAbove? tree dir relative
  let version ← Version.parseLoose? version
  let (version, file) ← (namedFiles tree library package).find? fun entry => entry.1 = version
  let document ← loadDocument? tree package version file
  return document.header.breaking

end Uplift.Migration
