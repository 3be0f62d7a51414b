import Uplift.FileTree.Disk
import Uplift.Manifest
import Uplift.Path.Display
import Uplift.Path.Lexical

/-!
# Converting a package into a workspace

The package at a root becomes the first member of a workspace at that root.  Everything at the
root, apart from what belongs to a workspace as a whole, is moved into a staging directory and from
there into the directory of the member; then a new manifest is written at the root.  If a step
fails, everything is moved back to where it came from.  The staging directory is removed only when
nothing is left in it: if something could not be moved back, it stays and the failure names it.
-/

set_option autoImplicit false

namespace Uplift.Workspace

/-- What a conversion did. -/
structure Conversion where
  /-- The directory of the member. -/
  member : Path
  /-- The names that were moved, ascending. -/
  moved : List String
  rootManifest : Manifest

/-- The entries of a root that belong to the workspace as a whole. -/
def keptAtRoot : List String :=
  [".git", "node_modules", ".migrasaurus", "migrasaurus.toml", "package-lock.json", "yarn.lock",
    "pnpm-lock.yaml"]

/-- What the names of staging directories start with. -/
def stagingStart : String :=
  ".migrasaurus-staging-"

/-- Whether an entry of the root moves into the member whose path starts with `memberTop`. -/
def moves (memberTop name : String) : Bool :=
  name ≠ memberTop && !Text.startsWith name stagingStart && !keptAtRoot.contains name

/-- The entries of the root that move, in ascending order. -/
def entriesToMove (tree : FileTree) (root : Path) (memberTop : String) :
    Except FileError (List String) := do
  let names ← tree.list root
  .ok ((names.filter (moves memberTop)).mergeSort fun a b => !(b < a))

/-! ## Moving -/

/-- An entry of the root, and where it is now. -/
structure Relocation where
  name : String
  current : Path
  deriving DecidableEq, Repr

/-- Moves entries into a directory, up to the first that cannot be moved. -/
def moveAll (destination : Path) (disk : Disk) :
    List Relocation → Except FileError Unit × List Relocation × Disk
  | [] => (.ok (), [], disk)
  | entry :: rest =>
    let target := destination.joinText entry.name
    match disk.rename entry.current target with
    | (.error error, disk) => (.error error, entry :: rest, disk)
    | (.ok (), disk) =>
      let (result, rest, disk) := moveAll destination disk rest
      (result, { entry with current := target } :: rest, disk)

/-- Moves entries back to the root, and says whether all of them could be. -/
def rollBack (root : Path) (disk : Disk) : List Relocation → Bool × Disk
  | [] => (true, disk)
  | entry :: rest =>
    let origin := root.joinText entry.name
    if entry.current.same origin then rollBack root disk rest
    else
      match disk.rename entry.current origin with
      | (.ok (), disk) => rollBack root disk rest
      | (.error _, disk) => (false, (rollBack root disk rest).2)

/-! ## The new manifest -/

/-- The pattern that finds a member: everything beside it, or itself at the top. -/
def memberPattern (member : String) : String :=
  match Text.splitLast? '/' member.toList with
  | some (parent, _) => String.ofList parent ++ "/*"
  | none => member

/-- The manifest of the new workspace. -/
def workspaceManifest (package : Manifest) (member : String) : Manifest :=
  let name := match (package.fields.get? "name").bind Json.Value.text? with
    | some name => name ++ "-workspace"
    | none => "workspace"
  ⟨[("name", .string name), ("private", .bool true),
    ("workspaces", .ofStrings [memberPattern member])]⟩

/-! ## Conversion -/

/-- Where a conversion goes. -/
structure ConversionPlan where
  root : Path
  staging : Path
  member : Path
  /-- The member as the root names it. -/
  memberText : String
  /-- The manifest of the package. -/
  package : Manifest

/-- The manifest of the root. -/
def ConversionPlan.rootManifest (plan : ConversionPlan) : Path :=
  plan.root.joinText manifestFile

/-- The first name of the member's path. -/
def ConversionPlan.memberTop (plan : ConversionPlan) : String :=
  String.ofList ((Text.splitOn '/' plan.memberText.toList).headD [])

/-- Checks that a conversion is possible.  `token` makes the name of the staging directory one of
its own. -/
def planConversion (tree : FileTree) (root : Path) (memberDir token : String) :
    Except Failure ConversionPlan := do
  let package ← Manifest.load tree (root.joinText manifestFile)
  if package.workspacePatterns?.isSome then
    .error (.arguments s!"{root.text} is already a workspace root")
  else
    match Path.within? root memberDir with
    | none =>
      .error (.arguments s!"member directory must be inside the workspace: {memberDir}")
    | some member =>
      if tree.has member then
        .error (.arguments s!"member directory already exists: {memberDir}")
      else
        .ok ⟨root, root.joinText (stagingStart ++ token), member, root.display member, package⟩

/-- Moves everything into the member and writes the new manifest. -/
def carryOut (plan : ConversionPlan) (disk : Disk) (entries : List Relocation) :
    Except FileError Unit × List Relocation × Disk :=
  match moveAll plan.staging disk entries with
  | (.error error, entries, disk) => (.error error, entries, disk)
  | (.ok (), entries, disk) =>
    match disk.makeDirectories plan.member with
    | (.error error, disk) => (.error error, entries, disk)
    | (.ok (), disk) =>
      match moveAll plan.member disk entries with
      | (.error error, entries, disk) => (.error error, entries, disk)
      | (.ok (), entries, disk) =>
        let manifest := workspaceManifest plan.package plan.memberText
        let (result, disk) := disk.writeText plan.rootManifest manifest.render
        (result, entries, disk)

/-- Restores the root after a failure. -/
def recover (plan : ConversionPlan) (disk : Disk) (entries : List Relocation) (error : FileError) :
    Failure × Disk :=
  match rollBack plan.root disk entries with
  | (true, disk) => (.other error.message, (disk.removeAll plan.staging).2)
  | (false, disk) =>
    (.other (s!"{error.message}; entries that could not be restored were left in " ++
      plan.staging.text), disk)

/-- Removes the member's directory if it is there and empty. -/
def removeMember (plan : ConversionPlan) (disk : Disk) : Disk :=
  if disk.tree.hasDirectory plan.member then (disk.removeDirectory plan.member).2 else disk

/-- Converts the package at a root into a workspace with one member. -/
def convert (disk : Disk) (root : Path) (memberDir token : String) :
    Except Failure Conversion × Disk :=
  match planConversion disk.tree root memberDir token with
  | .error failure => (.error failure, disk)
  | .ok plan =>
    match disk.makeDirectory plan.staging with
    | (.error error, disk) => (.error (.other error.message), disk)
    | (.ok (), disk) =>
      match entriesToMove disk.tree root plan.memberTop with
      | .error error => (.error (.other error.message), (disk.removeAll plan.staging).2)
      | .ok names =>
        match carryOut plan disk (names.map fun name => ⟨name, root.joinText name⟩) with
        | (.ok (), entries, disk) =>
          match disk.removeAll plan.staging with
          | (.error error, disk) => (.error (.other error.message), disk)
          | (.ok (), disk) =>
            (.ok ⟨plan.member, entries.map Relocation.name,
              workspaceManifest plan.package plan.memberText⟩, disk)
        | (.error error, entries, disk) =>
          let (failure, disk) := recover plan disk entries error
          (.error failure, removeMember plan disk)

end Uplift.Workspace
