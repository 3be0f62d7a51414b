import Uplift.Codemod.Runner
import Uplift.Config
import Uplift.Migration.Guide
import Uplift.Registry.Lookup
import Uplift.Report

/-!
# Sessions

A session works on one workspace with one configuration.  Each of its runs surveys the workspace,
does what it is asked to, and leaves a report, whether it succeeds or fails.

Applying upgrades goes in this order: survey, manifests, installation, codemods.  A failure ends
the run where it arises, and what was done before it stays done and is in the report.  Codemods run
package by package in ascending order of the names, each on the files that those before it left,
and those of a package are found at the moment when its turn comes.
-/

set_option autoImplicit false

namespace Uplift

/-- What the runs of a session work with. -/
structure Session where
  root : Path
  config : Config
  registry : Registry.Client
  installer : Workspace.Installer
  machine : Process.Machine
  read : Source.Reading
  /-- Where to look for migration documents last. -/
  fallback : Option Path := none

namespace Session

/-! ## Starting a session -/

/-- The parts of a session, as far as they are given. -/
structure Parts where
  root : Option Path := none
  config : Option Config := none
  registry : Option Registry.Client := none
  installer : Option Workspace.Installer := none
  fallback : Option Path := none

/-- A part that must be given. -/
def Parts.require {α : Type} (name : String) : Option α → Except Failure α
  | some part => .ok part
  | none => .error (.configuration s!"Failed to build orchestrator: `{name}` must be initialized")

/-- The session with the given parts. -/
def ofParts (machine : Process.Machine) (read : Source.Reading) (parts : Parts) :
    Except Failure Session := do
  let root ← Parts.require "root" parts.root
  let config ← Parts.require "config" parts.config
  let registry ← Parts.require "registry" parts.registry
  let installer ← Parts.require "installer" parts.installer
  .ok { root, config, registry, installer, machine, read, fallback := parts.fallback }

/-- Where the report goes. -/
def reportPath (session : Session) : Path :=
  session.root.joinText session.config.reportPath

/-- The library of migration documents. -/
def library? (session : Session) (files : FileTree) : Option Path :=
  Migration.findLibrary? files session.root session.config.migrationsPath session.fallback

/-! ## Surveying -/

/-- What a survey found. -/
structure Survey where
  scan : Workspace.Scan
  plan : Plan

/-- The authors' flags for the latest versions. -/
def breakingFlags (session : Session) (files : FileTree) (latest : Table (Option String)) :
    Table Bool :=
  Table.ofList (latest.entries.filterMap fun (name, version) => do
    let flag ← Migration.breakingFlag? files session.root session.config.migrationsPath name
      (← version)
    some (name, flag))

/-- Scans the workspace, looks up the latest versions and makes a plan. -/
def survey (session : Session) (files : FileTree) : Except Failure Survey := do
  let scan ← Workspace.scan files session.root ⟨session.config.scopes⟩
  let latest := Registry.latestVersions session.registry scan.installed.names
    (session.config.registryTimeoutSecs * 1000)
  .ok ⟨scan, Plan.compute scan.installed latest (session.breakingFlags files latest)⟩

/-! ## Runs -/

/-- How a run ended, with the report it left. -/
structure Run (α : Type) where
  report : Report
  result : Except Failure α

/-- When a run starts and when it ends. -/
structure Times where
  startedAt : Instant
  finishedAt : Instant

/-- What a run has found and done so far. -/
structure Record where
  plan : Option Plan := none
  conflicts : List Workspace.VersionConflict := []
  changes : List Workspace.DependencyChange := []
  codemods : Codemod.Summary := .empty

/-- The record of a survey. -/
def Survey.record (survey : Survey) : Record :=
  { plan := some survey.plan, conflicts := survey.scan.conflicts }

/-- Why something failed. -/
def failureOf? {α : Type} : Except Failure α → Option Failure
  | .ok _ => none
  | .error failure => some failure

/-- The report of a run. -/
def reportOf {α : Type} (session : Session) (times : Times) (flags : RunFlags) (record : Record)
    (result : Except Failure α) : Report :=
  { startedAt := times.startedAt
    finishedAt := times.finishedAt
    flags
    root := session.root.text
    plan := record.plan
    conflicts := record.conflicts
    changes := record.changes
    codemods := record.codemods
    failure := failureOf? result }

/-- Ends a run: its report is written if that is possible. -/
def finish {α : Type} (session : Session) (times : Times) (flags : RunFlags) (files : FileTree)
    (record : Record) (result : Except Failure α) : Run α × FileTree :=
  let report := session.reportOf times flags record result
  (⟨report, result⟩, report.writeIfPossible files session.reportPath)

/-- Surveys the workspace and does nothing else. -/
def scan (session : Session) (times : Times) (flags : RunFlags) (files : FileTree) :
    Run Plan × FileTree :=
  match session.survey files with
  | .ok survey => session.finish times flags files survey.record (.ok survey.plan)
  | .error failure => session.finish times flags files {} (.error failure)

/-- Writes a migration guide for the packages that can be upgraded. -/
def guide (session : Session) (times : Times) (flags : RunFlags) (files : FileTree) :
    Run String × FileTree :=
  match session.survey files with
  | .ok survey =>
    let text := Migration.guide files (session.library? files) survey.plan
    session.finish times flags files survey.record (.ok text)
  | .error failure => session.finish times flags files {} (.error failure)

/-! ## Codemods -/

/-- Runs the codemods for a package between two versions. -/
def runCodemods (session : Session) (files : FileTree) (package low high : String)
    (dryRun : Bool) : Codemod.Summary × FileTree :=
  match session.library? files with
  | none => (.empty, files)
  | some library =>
    let found := Codemod.discover files library (library.joinText session.config.codemodsDir)
      package low high
    Codemod.runAll ⟨session.machine, session.read, session.config.scriptRunner⟩
      ⟨session.root, dryRun⟩ files found

/-- Runs the codemods of some upgrades, one after another; `installed` are the versions to upgrade
from. -/
def runAllCodemods (session : Session) (installed : Table String) (dryRun : Bool)
    (files : FileTree) : List (String × String) → Codemod.Summary × FileTree
  | [] => (.empty, files)
  | (name, target) :: rest =>
    match installed.get? name with
    | none => runAllCodemods session installed dryRun files rest
    | some current =>
      let (summary, files) := session.runCodemods files name current target dryRun
      let (later, files) := runAllCodemods session installed dryRun files rest
      (summary ++ later, files)

/-- Runs the codemods for one package between two versions. -/
def codemod (session : Session) (times : Times) (flags : RunFlags) (files : FileTree)
    (package low high : String) : Run Codemod.Summary × FileTree :=
  let (summary, files) := session.runCodemods files package low high flags.dryRun
  session.finish times flags files { codemods := summary } (.ok summary)

/-! ## Applying upgrades -/

/-- How upgrades are applied. -/
structure ApplyOptions where
  allowBreaking : Bool
  dryRun : Bool
  codemods : Bool
  deriving DecidableEq, Repr

/-- The part of a run's options that says how upgrades are applied. -/
def ApplyOptions.ofFlags (flags : RunFlags) : ApplyOptions :=
  ⟨flags.allowBreaking, flags.dryRun, flags.codemods⟩

/-- What applying upgrades did. -/
structure Application where
  plan : Plan
  /-- The versions that the manifests were moved to. -/
  approved : Table String
  /-- The breaking upgrades that were left out. -/
  heldBack : List String
  outcome : Workspace.UpgradeOutcome
  codemods : Codemod.Summary

/-- Carries out the approved upgrades of a survey. -/
def carryOut (session : Session) (options : ApplyOptions) (world : Workspace.World)
    (survey : Survey) : Except Failure Application × Record × Workspace.World :=
  let approved := survey.plan.approved options.allowBreaking
  match Workspace.upgrade world survey.scan approved session.installer options.dryRun with
  | (.error failure, world) => (.error failure, survey.record, world)
  | (.ok outcome, world) =>
    let record := { survey.record with changes := outcome.changes }
    match outcome.installError with
    | some failure => (.error failure, record, world)
    | none =>
      let upgrades := if options.codemods then approved.entries else []
      let (codemods, files) :=
        session.runAllCodemods survey.scan.installed options.dryRun world.files upgrades
      let heldBack := survey.plan.heldBack options.allowBreaking
      (.ok ⟨survey.plan, approved, heldBack, outcome, codemods⟩, { record with codemods },
        { world with files })

/-- Surveys the workspace and carries out the approved upgrades. -/
def surveyAndCarryOut (session : Session) (options : ApplyOptions) (world : Workspace.World) :
    Except Failure Application × Record × Workspace.World :=
  match session.survey world.files with
  | .error failure => (.error failure, {}, world)
  | .ok survey => session.carryOut options world survey

/-- Applies upgrades: manifests, installation and codemods. -/
def apply (session : Session) (times : Times) (flags : RunFlags) (options : ApplyOptions)
    (world : Workspace.World) : Run Application × Workspace.World :=
  let (result, record, world) := session.surveyAndCarryOut options world
  let (run, files) := session.finish times flags world.files record result
  (run, { world with files })

/-- The lines that tell what applying upgrades did, or would do. -/
def renderChanges (outcome : Workspace.UpgradeOutcome) (heldBack : List String)
    (codemods : Codemod.Summary) (dryRun : Bool) : String :=
  (if outcome.changes.isEmpty then "No dependency ranges to update.\n" else "") ++
    String.join (outcome.changes.map Workspace.DependencyChange.render) ++
    (if dryRun then String.join (outcome.previews.map fun preview => "\n" ++ preview) else "") ++
    String.join (heldBack.map fun name => s!"held back breaking upgrade: {name}\n") ++
    codemods.render

/-- The lines that tell what a run did, or would do. -/
def Application.render (application : Application) (dryRun : Bool) : String :=
  renderChanges application.outcome application.heldBack application.codemods dryRun

end Session

end Uplift
