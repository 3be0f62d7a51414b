import Uplift.FileTree.Staged
import Uplift.Patch.Unified
import Uplift.Workspace.Scan

/-!
# Upgrading a workspace

The approved versions are put into the ranges of every manifest that declares one of the packages.
All of these manifests are read and checked before any is written, so a manifest that cannot be
read leaves the workspace as it was.  After the manifests are written the installer is called once,
at the root.  If it fails, the manifests stay written and the failure is part of the outcome.
-/

set_option autoImplicit false

namespace Uplift.Workspace

/-- A range that was replaced. -/
structure DependencyChange where
  /-- The manifest as messages name it. -/
  manifest : String
  /-- The key of the section. -/
  part : String
  name : String
  origin : String
  destination : String
  deriving DecidableEq, Repr, Inhabited

namespace DependencyChange

/-- A change as a document. -/
def toJson (change : DependencyChange) : Json.Value :=
  .object [("manifest", .string change.manifest), ("section", .string change.part),
    ("name", .string change.name), ("from", .string change.origin),
    ("to", .string change.destination)]

/-- A change on one line. -/
def render (change : DependencyChange) : String :=
  s!"{change.manifest} {change.part}: {change.name} {change.origin} → {change.destination}\n"

end DependencyChange

/-! ## Ranges -/

/-- The new range of a package in a section: there if the section has a range for it that is
understood and that the target changes. -/
def bumped? (entries : Json.Fields) (name target : String) : Option (String × String) := do
  let current ← (← entries.get? name).text?
  let range ← Range.parse? current
  let next := range.retarget target
  if next = current then none else some (current, next)

/-- Puts approved versions into the entries of a section, by ascending name. -/
def bumpEntries (manifest : String) (part : DependencySection) :
    List (String × String) → Json.Fields → Json.Fields × List DependencyChange
  | [], entries => (entries, [])
  | (name, target) :: rest, entries =>
    match bumped? entries name target with
    | none => bumpEntries manifest part rest entries
    | some (current, next) =>
      let (entries, changes) := bumpEntries manifest part rest (entries.insert name (.string next))
      (entries, ⟨manifest, part.key, name, current, next⟩ :: changes)

/-- Puts approved versions into some sections of a manifest. -/
def bumpSections (relative : String) (approved : Table String) :
    List DependencySection → Manifest → Manifest × List DependencyChange
  | [], manifest => (manifest, [])
  | part :: rest, manifest =>
    match manifest.section? part with
    | none => bumpSections relative approved rest manifest
    | some entries =>
      let (entries, changes) := bumpEntries relative part approved.entries entries
      let (manifest, later) :=
        bumpSections relative approved rest (manifest.setSection part entries)
      (manifest, changes ++ later)

/-- Puts approved versions into a manifest; every range keeps what stands before its version. -/
def bumpRanges (relative : String) (approved : Table String) (manifest : Manifest) :
    Manifest × List DependencyChange :=
  bumpSections relative approved DependencySection.all manifest

/-! ## Edits -/

/-- A manifest with its new text. -/
structure ManifestEdit where
  path : Path
  relative : String
  before : String
  after : String
  changes : List DependencyChange
  deriving DecidableEq, Repr

/-- The difference an edit makes. -/
def ManifestEdit.preview (edit : ManifestEdit) : String :=
  Patch.unified edit.relative edit.before edit.after

/-- The write that carries out an edit. -/
def ManifestEdit.write (edit : ManifestEdit) : PendingWrite :=
  ⟨edit.path, edit.after⟩

/-- The manifests that declare an approved package, in the order of the scan. -/
def affectedManifests (scan : Scan) (approved : Table String) : List Path :=
  let affected := approved.names.flatMap fun name => (scan.manifestsByPackage.get? name).getD []
  scan.manifests.filter fun path => affected.any path.same

/-- The edit of a manifest, if it changes. -/
def editOf (tree : FileTree) (scan : Scan) (approved : Table String) (path : Path) :
    Except Failure (Option ManifestEdit) := do
  let relative := scan.relative path
  let before ← match tree.readText path with
    | .ok text => .ok text
    | .error error => .error (.manifest relative error.message)
  let (manifest, changes) := bumpRanges relative approved (← Manifest.parse relative before)
  if changes.isEmpty then .ok none
  else .ok (some ⟨path, relative, before, manifest.render, changes⟩)

/-- The edits of all manifests. -/
def editsOf (tree : FileTree) (scan : Scan) (approved : Table String) :
    Except Failure (List ManifestEdit) := do
  let edits ← (affectedManifests scan approved).mapM (editOf tree scan approved)
  .ok edits.reduceOption

/-! ## Installing -/

/-- Installs packages in a directory. -/
abbrev Installer := Path → FileTree → Except Failure Unit × FileTree

/-- Files, and the directories in which the installer was called. -/
structure World where
  files : FileTree
  installs : List Path

/-- Calls the installer. -/
def World.install (world : World) (installer : Installer) (dir : Path) :
    Except Failure Unit × World :=
  let (result, files) := installer dir world.files
  (result, ⟨files, world.installs ++ [dir]⟩)

/-! ## Upgrading -/

/-- What an upgrade did, or would do. -/
structure UpgradeOutcome where
  changes : List DependencyChange
  /-- The difference of each changed manifest. -/
  previews : List String
  manifestsWritten : Bool
  installed : Bool
  /-- Why the installer failed after the manifests were written. -/
  installError : Option Failure
  deriving Inhabited

/-- The outcome of edits that are not carried out. -/
def UpgradeOutcome.planned (edits : List ManifestEdit) : UpgradeOutcome :=
  ⟨edits.flatMap ManifestEdit.changes, edits.map ManifestEdit.preview, false, false, none⟩

/-- The outcome of edits that are carried out, given how the installer ended. -/
def UpgradeOutcome.carriedOut (edits : List ManifestEdit) : Except Failure Unit → UpgradeOutcome
  | .ok () => { planned edits with manifestsWritten := true, installed := true }
  | .error failure =>
    { planned edits with manifestsWritten := true, installError := some failure }

/-- Puts approved versions into a scanned workspace. -/
def upgrade (world : World) (scan : Scan) (approved : Table String) (installer : Installer)
    (dryRun : Bool) : Except Failure UpgradeOutcome × World :=
  match editsOf world.files scan approved with
  | .error failure => (.error failure, world)
  | .ok edits =>
    if edits.isEmpty || dryRun then (.ok (.planned edits), world)
    else
      match world.files.writeAll (edits.map ManifestEdit.write) with
      | (.error error, files) =>
        (.error (.manifest scan.root.text error.message), { world with files })
      | (.ok (), files) =>
        let (installed, world) := { world with files }.install installer scan.root
        (.ok (.carriedOut edits installed), world)

end Uplift.Workspace
