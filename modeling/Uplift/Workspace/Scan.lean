import Uplift.FileTree.Glob
import Uplift.Manifest
import Uplift.Path.Display
import Uplift.Range
import Uplift.Table

/-!
# Scanning a workspace

A scan lists the manifests of a workspace, the root first and the members in order of their paths,
and collects what they declare: each declaration is a package name with a range that is
understood, in one section of one manifest.  The declarations are visited in order, and an inventory
keeps what they tell of each package: which manifests declare it, with which ranges, and which
version is installed.
-/

set_option autoImplicit false

namespace Uplift.Workspace

/-- Which packages are tracked: those whose name starts with one of the scopes, or all if there is
no scope. -/
structure DependencyFilter where
  scopes : List String
  deriving DecidableEq, Repr, Inhabited

/-- Whether a package is tracked. -/
def DependencyFilter.accepts (filter : DependencyFilter) (name : String) : Bool :=
  filter.scopes.isEmpty || filter.scopes.any fun scope => Text.startsWith name scope

/-- One of several ranges of a package, with the manifests that declare it. -/
structure ConflictVersion where
  version : String
  manifests : List String
  deriving DecidableEq, Repr, Inhabited

/-- A package declared with different ranges. -/
structure VersionConflict where
  name : String
  versions : List ConflictVersion
  deriving DecidableEq, Repr, Inhabited

/-- The wording of a conflict. -/
def VersionConflict.render (conflict : VersionConflict) : String :=
  let versions := conflict.versions.map fun v =>
    let manifests := String.intercalate ", " v.manifests
    s!"{v.version} ({manifests})"
  s!"version conflict for {conflict.name}: " ++ String.intercalate ", " versions

/-- What a scan found. -/
structure Scan where
  root : Path
  /-- Whether the root manifest declares members. -/
  isWorkspace : Bool
  /-- The root manifest, then the members in order. -/
  manifests : List Path
  /-- The installed version of each tracked package. -/
  installed : Table String
  /-- The manifests that declare each tracked package. -/
  manifestsByPackage : Table (List Path)
  conflicts : List VersionConflict
  deriving Inhabited

/-- The empty scan. -/
def Scan.empty : Scan :=
  ⟨Path.empty, false, [], Table.empty, Table.empty, []⟩

/-- A path as the scan names it. -/
def Scan.relative (scan : Scan) (path : Path) : String :=
  scan.root.display path

/-! ## Members -/

/-- The failure for a text that is no pattern. -/
def patternFailure (fault : Glob.PatternFault) : Failure :=
  .glob s!"Pattern syntax error near position {fault.place}: {fault.error.message}"

/-- Whether a path passes through installed packages. -/
def inInstalledPackages (path : Path) : Bool :=
  path.components.contains (.normal "node_modules")

/-- A text without the slashes at its end. -/
def trimSlashes (text : String) : String :=
  String.ofList (text.toList.reverse.dropWhile (· = '/')).reverse

/-- The manifests that one pattern finds.  Negated patterns find none. -/
def patternManifests (tree : FileTree) (root : Path) (pattern : String) :
    Except Failure (List Path) :=
  if Text.startsWith pattern "!" then .ok []
  else
    match Glob.expand tree ((root.joinText (trimSlashes pattern)).joinText manifestFile) with
    | .error fault => .error (patternFailure fault)
    | .ok found => .ok (found.filter fun path => !inInstalledPackages path)

/-- Drops every path with the same components as the one before it. -/
def dropRepeats : List Path → List Path
  | a :: b :: rest => if a.same b then dropRepeats (a :: rest) else a :: dropRepeats (b :: rest)
  | paths => paths
termination_by paths => paths.length

/-- The manifests of the members, in order of their paths and without the root's. -/
def memberManifests (tree : FileTree) (root : Path) (patterns : List String) :
    Except Failure (List Path) := do
  let found ← patterns.mapM (patternManifests tree root)
  let members := dropRepeats (found.flatten.mergeSort Path.upTo)
  .ok (members.filter fun member => !member.same (root.joinText manifestFile))

/-! ## Declarations -/

/-- A range that is understood, declared for a tracked package. -/
structure Declaration where
  manifest : Path
  /-- The manifest as messages name it. -/
  relative : String
  name : String
  /-- The range as it is written. -/
  raw : String
  range : Range
  deriving DecidableEq, Repr

/-- The declarations of one manifest. -/
def declarationsOf (root : Path) (filter : DependencyFilter) (path : Path) (manifest : Manifest) :
    List Declaration :=
  manifest.dependencies.filterMap fun (_, name, raw) =>
    if filter.accepts name then
      (Range.parse? raw).map fun range => ⟨path, root.display path, name, raw, range⟩
    else none

/-- The version found in the installed packages of a directory. -/
def installedIn? (tree : FileTree) (dir : Path) (name : String) : Option String := do
  let path := ((dir.joinText "node_modules").joinText name).joinText manifestFile
  let content ← (tree.readText path).toOption
  let document ← (Json.parse content).toOption
  (← document.field? "version").text?

/-- The version a declaration stands for: the one installed beside its manifest, or at the root, or
else the one of its range. -/
def Declaration.installedVersion (tree : FileTree) (root : Path) (declaration : Declaration) :
    String :=
  let beside := declaration.manifest.parent?.getD root
  match installedIn? tree beside declaration.name with
  | some version => version
  | none => (installedIn? tree root declaration.name).getD declaration.range.version

/-! ## The inventory -/

/-- A list with an item at its end, unless one that counts as the same is there already. -/
def addOnce {α : Type} (same : α → α → Bool) (item : α) (items : List α) : List α :=
  if items.any fun other => same other item then items else items ++ [item]

/-- What the declarations visited so far tell of each package. -/
structure Inventory where
  /-- The manifests that declare each package. -/
  manifests : Table (List Path)
  /-- The ranges of each package as they are written, each with the manifests that declare it. -/
  ranges : Table (Table (List String))
  /-- The installed version of each package. -/
  installed : Table String
  deriving Inhabited

namespace Inventory

/-- The inventory before any declaration is visited. -/
def empty : Inventory :=
  ⟨.empty, .empty, .empty⟩

/-- Takes a declaration into account.  The first one of a package decides which version is
installed. -/
def note (tree : FileTree) (root : Path) (inventory : Inventory) (declaration : Declaration) :
    Inventory :=
  let name := declaration.name
  { manifests := inventory.manifests.update name [] (addOnce Path.same declaration.manifest)
    ranges := inventory.ranges.update name .empty fun users =>
      users.update declaration.raw [] (addOnce (· == ·) declaration.relative)
    installed :=
      if inventory.installed.contains name then inventory.installed
      else inventory.installed.insert name (declaration.installedVersion tree root) }

/-- Takes the declarations of a manifest into account. -/
def visit (tree : FileTree) (root : Path) (filter : DependencyFilter) (inventory : Inventory)
    (entry : Path × Manifest) : Inventory :=
  (declarationsOf root filter entry.1 entry.2).foldl (note tree root) inventory

/-- The packages with more than one range, in ascending order. -/
def conflicts (inventory : Inventory) : List VersionConflict :=
  (inventory.ranges.entries.filter fun entry => 1 < entry.2.entries.length).map fun entry =>
    ⟨entry.1, entry.2.entries.map fun range => ⟨range.1, range.2⟩⟩

end Inventory

/-! ## The scan -/

/-- The manifests of a workspace with their contents, the root first. -/
def loadManifests (tree : FileTree) (root : Path) :
    Except Failure (Bool × List (Path × Manifest)) := do
  let rootPath := root.joinText manifestFile
  let rootManifest ← Manifest.load tree rootPath
  match rootManifest.workspacePatterns? with
  | none => .ok (false, [(rootPath, rootManifest)])
  | some patterns =>
    let members ← (← memberManifests tree root patterns).mapM fun path => do
      .ok (path, ← Manifest.load tree path)
    .ok (true, (rootPath, rootManifest) :: members)

/-- What a scan finds in manifests that have been loaded. -/
def scanOf (tree : FileTree) (root : Path) (filter : DependencyFilter) (isWorkspace : Bool)
    (manifests : List (Path × Manifest)) : Scan :=
  let inventory := manifests.foldl (Inventory.visit tree root filter) .empty
  { root
    isWorkspace
    manifests := manifests.map Prod.fst
    installed := inventory.installed
    manifestsByPackage := inventory.manifests
    conflicts := inventory.conflicts }

/-- Scans a workspace.  A manifest that cannot be read fails the scan. -/
def scan (tree : FileTree) (root : Path) (filter : DependencyFilter) : Except Failure Scan := do
  let (isWorkspace, manifests) ← loadManifests tree root
  .ok (scanOf tree root filter isWorkspace manifests)

end Uplift.Workspace
