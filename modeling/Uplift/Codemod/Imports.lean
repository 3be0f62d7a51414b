import Uplift.Codemod.Outcome
import Uplift.FileTree.Staged
import Uplift.Manifest
import Uplift.Patch.Unified
import Uplift.Path.Display
import Uplift.Source.Relocation

/-!
# Relocating imports

The built-in codemod relocates the module specifiers of all source files below a directory, and
then the dependencies that go with them.  Every source file belongs to a package: the nearest
directory at or above it, but not above the target, that has a manifest.  A dependency is dropped
from a manifest only if all sources of its package could be read and none of them still refers to
it, as a specifier or in plain text.

A plan is computed from what was found in each file, and nothing is written before the plan is
complete.
-/

set_option autoImplicit false

namespace Uplift.Codemod.Imports

/-- A dependency that takes the place of another. -/
structure PackageRelocation where
  origin : String
  destination : String
  /-- The range of the new dependency. -/
  version : String
  deriving DecidableEq, Repr, Inhabited

/-- What is to be relocated. -/
structure Spec where
  /-- The replacement of each module specifier. -/
  relocations : Table String
  packages : List PackageRelocation

/-- A file with its new content. -/
structure FileEdit where
  path : Path
  relative : String
  before : String
  after : String
  deriving DecidableEq, Repr

/-- The difference an edit makes. -/
def FileEdit.preview (edit : FileEdit) : String :=
  Patch.unified edit.relative edit.before edit.after

/-- The write that carries out an edit. -/
def FileEdit.write (edit : FileEdit) : PendingWrite :=
  ⟨edit.path, edit.after⟩

/-! ## Files -/

/-- Directories that are not looked into. -/
def skippedDirectories : List String :=
  ["node_modules", ".git", "dist", "build"]

/-- The files below a target in order, with their paths; a target that is a file is the only one.
The cause is given if there is no such target. -/
def filesBelow (tree : FileTree) (target : Path) : Except FileError (List Path) := do
  let top ← tree.find target
  if top.isFile then .ok [target]
  else
    let places := top.sortedWalk fun name => !skippedDirectories.contains name
    .ok (places.filterMap fun (place, found) =>
      if found.isFile then some (place.foldl Path.joinText target) else none)

/-- The package that a file belongs to. -/
def owner (tree : FileTree) (target file : Path) : Path :=
  let above := file.ancestors.drop 1
  let inside := above.takeWhile fun dir => dir.startsWith target
  (inside.find? fun dir => tree.hasFile (dir.joinText manifestFile)).getD target

/-- What a file contributes to a plan. -/
inductive Finding where
  /-- A manifest in a directory. -/
  | manifest (dir : Path)
  /-- A source file of a package that was read. -/
  | source (owner : Path) (edit : FileEdit) (relocated : Source.Relocated)
  /-- A source file of a package that could not be read, or is none. -/
  | broken (owner : Path) (relative message : String)

/-- Reads a source file. -/
def readSource (read : Source.Reading) (tree : FileTree) (spec : Spec) (target file : Path)
    (dialect : Source.Dialect) : Finding :=
  let relative := target.display file
  let package := owner tree target file
  match tree.readText file with
  | .error error => .broken package relative error.message
  | .ok before =>
    match Source.relocate read dialect before spec.relocations with
    | .error error => .broken package relative error.message
    | .ok relocated => .source package ⟨file, relative, before, relocated.output⟩ relocated

/-- What a file contributes, if it is a manifest or a source file. -/
def finding? (read : Source.Reading) (tree : FileTree) (spec : Spec) (target file : Path) :
    Option Finding :=
  if file.fileName? = some manifestFile then file.parent?.map Finding.manifest
  else (Source.Dialect.ofPath? file).map (readSource read tree spec target file)

namespace Finding

/-- The package that a finding is about. -/
def owner : Finding → Path
  | .manifest dir => dir
  | .source owner _ _ => owner
  | .broken owner _ _ => owner

/-- The edit of a source file in which something is relocated. -/
def edit? : Finding → Option FileEdit
  | .source _ edit relocated => if relocated.replaced = 0 then none else some edit
  | _ => none

/-- The name of a source file in which nothing is relocated. -/
def skipped? : Finding → Option String
  | .source _ edit relocated => if relocated.replaced = 0 then some edit.relative else none
  | _ => none

/-- The message of a source file that could not be read. -/
def error? : Finding → Option String
  | .broken _ relative message => some s!"{relative}: {message}"
  | _ => none

end Finding

/-! ## Packages -/

/-- What the sources of a package say about its dependencies. -/
structure Usage where
  /-- Relocated specifiers that occur as plain text. -/
  residual : NameSet
  /-- Specifiers that are not relocated. -/
  retained : NameSet
  /-- Whether a source could not be read. -/
  incomplete : Bool

/-- The usage of a package without sources. -/
def Usage.empty : Usage :=
  ⟨Table.empty, Table.empty, false⟩

/-- The usage with one more source. -/
def Usage.add (usage : Usage) : Finding → Usage
  | .manifest _ => usage
  | .source _ _ relocated =>
    { usage with
      residual := NameSet.union usage.residual relocated.residual
      retained := NameSet.union usage.retained relocated.retained }
  | .broken .. => { usage with incomplete := true }

/-- The usage of a package. -/
def usageOf (findings : List Finding) (dir : Path) : Usage :=
  (findings.filter fun finding => finding.owner.same dir).foldl Usage.add Usage.empty

/-- Drops every path with the same components as an earlier one. -/
def distinct (seen : List Path) : List Path → List Path
  | [] => []
  | path :: rest =>
    if seen.any path.same then distinct seen rest else path :: distinct (path :: seen) rest

/-- The packages in which something was found, in order of their paths. -/
def ownersOf (findings : List Finding) : List Path :=
  (distinct [] (findings.map Finding.owner)).mergeSort Path.upTo

/-! ## Manifests -/

/-- Whether some specifier belongs to a package: it is its name, or starts with it and a slash. -/
def refersTo (specifiers : NameSet) (package : String) : Bool :=
  specifiers.names.any fun specifier =>
    specifier = package || Text.startsWith specifier (package ++ "/")

/-- Whether a dependency must be kept. -/
def Usage.keeps (usage : Usage) (package : String) : Bool :=
  usage.incomplete || refersTo usage.residual package || refersTo usage.retained package

/-- Puts the new dependency into the entries of a section that has the old one, and drops the old
one unless it must be kept.  Entries that change are sorted. -/
def relocateEntries (keep : Bool) (relocation : PackageRelocation) (entries : Json.Fields) :
    Option Json.Fields :=
  if !entries.contains relocation.origin then none
  else
    let isNew := !entries.contains relocation.destination
    let added :=
      if isNew then entries.insert relocation.destination (.string relocation.version) else entries
    if isNew || !keep then
      some (Manifest.sortEntries (if keep then added else added.erase relocation.origin))
    else none

/-- Carries out one relocation in one section, and says whether something changed. -/
def relocateSection (keep : Bool) (relocation : PackageRelocation) (state : Manifest × Bool)
    (part : DependencySection) : Manifest × Bool :=
  match (state.1.section? part).bind (relocateEntries keep relocation) with
  | some entries => (state.1.setSection part entries, true)
  | none => state

/-- Carries out relocations in a manifest, and says whether something changed. -/
def relocateDependencies (packages : List PackageRelocation) (usage : Usage) (manifest : Manifest) :
    Manifest × Bool :=
  packages.foldl (fun state relocation =>
    DependencySection.all.foldl (relocateSection (usage.keeps relocation.origin) relocation) state)
    (manifest, false)

/-- The edit of a manifest, if it changes. -/
def manifestEdit (tree : FileTree) (spec : Spec) (usage : Usage) (path : Path) (relative : String) :
    Except Failure (Option FileEdit) := do
  let before ← match tree.readText path with
    | .ok text => .ok text
    | .error error => .error (.other error.message)
  let document ← Manifest.parse relative before
  let (manifest, changed) := relocateDependencies spec.packages usage document
  let after := manifest.render
  if !changed || after = before then .ok none else .ok (some ⟨path, relative, before, after⟩)

/-- The edit of a package's manifest, or the message why there is none though there should be. -/
def packageEdit? (tree : FileTree) (target : Path) (spec : Spec) (findings : List Finding)
    (dir : Path) : Option (Except String FileEdit) :=
  let path := dir.joinText manifestFile
  if spec.packages.isEmpty || !tree.hasFile path then none
  else
    let relative := target.display path
    match manifestEdit tree spec (usageOf findings dir) path relative with
    | .ok edit => edit.map .ok
    | .error failure => some (.error s!"{relative}: {failure.message}")

/-! ## Plans -/

/-- Everything that relocating would change. -/
structure Plan where
  files : List FileEdit
  manifests : List FileEdit
  skipped : List String
  errors : List String
  /-- The relocated specifiers left in plain text, by package. -/
  residuals : Table NameSet

/-- All edits of a plan. -/
def Plan.edits (plan : Plan) : List FileEdit :=
  plan.files ++ plan.manifests

/-- The names of the files that a plan changes. -/
def Plan.changedFiles (plan : Plan) : List String :=
  plan.edits.map FileEdit.relative

/-- How a package is named. -/
def ownerName (target dir : Path) : String :=
  let name := target.display dir
  if name = "" then "." else name

/-- The plan for what was found. -/
def planOf (tree : FileTree) (target : Path) (spec : Spec) (walkErrors : List String)
    (findings : List Finding) : Plan :=
  let owners := ownersOf findings
  let manifests := owners.filterMap (packageEdit? tree target spec findings)
  let residual := owners.map fun dir => (ownerName target dir, (usageOf findings dir).residual)
  { files := findings.filterMap Finding.edit?
    manifests := manifests.filterMap Except.toOption
    skipped := findings.filterMap Finding.skipped?
    errors := walkErrors ++ findings.filterMap Finding.error? ++
      manifests.filterMap fun edit =>
        match edit with
        | .error message => some message
        | .ok _ => none
    residuals := Table.ofList (residual.filter fun entry => !entry.2.isEmpty) }

/-- What is found below a target. -/
def findingsOf (read : Source.Reading) (tree : FileTree) (target : Path) (spec : Spec) :
    List Finding :=
  match filesBelow tree target with
  | .ok files => files.filterMap (finding? read tree spec target)
  | .error _ => []

/-- The message about a target that is not there. -/
def walkErrors (tree : FileTree) (target : Path) : List String :=
  match filesBelow tree target with
  | .ok _ => []
  | .error error => [s!"IO error for operation on {target.text}: {error.message}"]

/-- The plan for everything below a target. -/
def plan (read : Source.Reading) (tree : FileTree) (target : Path) (spec : Spec) : Plan :=
  planOf tree target spec (walkErrors tree target) (findingsOf read tree target spec)

/-! ## Carrying out -/

/-- What a plan reports if all goes well. -/
def Plan.outcome (plan : Plan) : Outcome :=
  ⟨plan.changedFiles, plan.skipped, plan.errors⟩

/-- What a plan reports if its edits could not be written. -/
def Plan.unwritten (plan : Plan) (error : FileError) : Outcome :=
  ⟨[], plan.skipped ++ plan.changedFiles,
    plan.errors ++ [s!"failed to write rewrites: {error.message}"]⟩

/-- Relocates everything below a target. -/
def run (read : Source.Reading) (tree : FileTree) (target : Path) (spec : Spec) (dryRun : Bool) :
    Outcome × FileTree :=
  let plan := plan read tree target spec
  if dryRun then (plan.outcome, tree)
  else
    match tree.writeAll (plan.edits.map FileEdit.write) with
    | (.ok (), tree) => (plan.outcome, tree)
    | (.error error, tree) => (plan.unwritten error, tree)

end Uplift.Codemod.Imports
