import Uplift.Codemod.Outcome
import Uplift.FileTree.Disk
import Uplift.Instant
import Uplift.Json.Printer
import Uplift.Plan
import Uplift.Workspace.Upgrade

/-!
# Reports

Every run leaves a report: when it ran and with which options, what it found, what it changed, and
why it failed if it did.  Whether a run failed is not a field of its own; it is said by whether
there is a failure.
-/

set_option autoImplicit false

namespace Uplift

/-- The options of a run, as reports record them. -/
structure RunFlags where
  command : String := ""
  allowBreaking : Bool := false
  dryRun : Bool := false
  codemods : Bool := false
  json : Bool := false
  deriving DecidableEq, Repr, Inhabited

/-- Options as a document. -/
def RunFlags.toJson (flags : RunFlags) : Json.Value :=
  .object [("command", .string flags.command), ("allowBreaking", .bool flags.allowBreaking),
    ("dryRun", .bool flags.dryRun), ("codemods", .bool flags.codemods), ("json", .bool flags.json)]

/-- What a run did. -/
structure Report where
  startedAt : Instant
  finishedAt : Instant
  flags : RunFlags
  root : String
  /-- None if the run made no plan. -/
  plan : Option Plan
  conflicts : List Workspace.VersionConflict
  changes : List Workspace.DependencyChange
  codemods : Codemod.Summary
  /-- Why the run failed. -/
  failure : Option Failure

/-! ## Documents -/

/-- The counts of a plan as a document. -/
def PlanCounts.toJson (counts : PlanCounts) : Json.Value :=
  .object [("upToDate", .ofNat counts.upToDate),
    ("upgradableNonBreaking", .ofNat counts.nonBreaking),
    ("upgradableBreaking", .ofNat counts.breaking), ("blocked", .ofNat counts.unresolved)]

/-- The status of a package as a document. -/
def PackageStatus.toJson (status : PackageStatus) : Json.Value :=
  .object [("name", .string status.name), ("currentVersion", .string status.current),
    ("latestVersion", .ofOption (status.latest.map .string)),
    ("classification", .string status.classification.label), ("breaking", .bool status.breaking)]

/-- A range of a conflict as a document. -/
def Workspace.ConflictVersion.toJson (version : Workspace.ConflictVersion) : Json.Value :=
  .object [("version", .string version.version), ("manifests", .ofStrings version.manifests)]

/-- A conflict as a document. -/
def Workspace.VersionConflict.toJson (conflict : Workspace.VersionConflict) : Json.Value :=
  .object [("name", .string conflict.name),
    ("versions", .array (conflict.versions.map Workspace.ConflictVersion.toJson))]

namespace Report

/-- The version of the format. -/
def schemaVersion : Nat := 1

/-- How a run ended. -/
inductive Status where
  | success
  | failed
  deriving DecidableEq, Repr

/-- How a status is written. -/
def Status.text : Status → String
  | .success => "success"
  | .failed => "failed"

/-- How the run ended. -/
def status (report : Report) : Status :=
  if report.failure.isSome then .failed else .success

/-- A report as a document. -/
def toJson (report : Report) : Json.Value :=
  .object [("schemaVersion", .ofNat schemaVersion), ("status", .string report.status.text),
    ("startedAt", .string report.startedAt.text), ("finishedAt", .string report.finishedAt.text),
    ("flags", report.flags.toJson), ("workspaceRoot", .string report.root),
    ("counts", .ofOption (report.plan.map fun plan => plan.counts.toJson)),
    ("packages", .array ((report.plan.map Plan.packages).getD [] |>.map PackageStatus.toJson)),
    ("conflicts", .array (report.conflicts.map Workspace.VersionConflict.toJson)),
    ("changes", .array (report.changes.map Workspace.DependencyChange.toJson)),
    ("codemods", report.codemods.toJson),
    ("error", .ofOption (report.failure.map Failure.toJson))]

/-- The text of a report. -/
def render (report : Report) : String :=
  report.toJson.render ++ "\n"

/-! ## Writing -/

/-- Makes the directories above a report.  If one of them cannot be made, those made before it
stay. -/
def prepare (tree : FileTree) (path : Path) : Except FileError Unit × FileTree :=
  match path.parent? with
  | some parent =>
    let (prepared, disk) := Disk.makeDirectories { tree } parent
    (prepared, disk.tree)
  | none => (.ok (), tree)

/-- Writes a report to a file; the directories above it are made. -/
def write (report : Report) (tree : FileTree) (path : Path) : Except Failure Unit × FileTree :=
  let failed (error : FileError) : Except Failure Unit :=
    .error (.reportWrite path.text error.message)
  match prepare tree path with
  | (.error error, tree) => (failed error, tree)
  | (.ok (), tree) =>
    match tree.writeText path report.render with
    | .error error => (failed error, tree)
    | .ok tree => (.ok (), tree)

/-- Writes a report if that is possible. -/
def writeIfPossible (report : Report) (tree : FileTree) (path : Path) : FileTree :=
  (report.write tree path).2

end Report

end Uplift
