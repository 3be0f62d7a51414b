import Uplift.Proofs.Report
import Uplift.Proofs.Workspace.Upgrade
import Uplift.Session

/-!
# Runs that only read

Scanning, writing a guide, and dry runs of applying upgrades and of codemods touch nothing but the
report, and none of them calls the installer (`onlyReports_of_readOnly`).  What a dry run is told
reaches every part that could write: the manifests (`upgrade_dryRun_world`), the built-in transform
(`Codemod.Imports.run_dryRun`) and the programs that are started, which are told by their options.
What a program does with its options is up to the program, so that it leaves the files alone when
it is told of a dry run is a hypothesis about the machine (`HeedsDryRun`).
-/

set_option autoImplicit false

namespace Uplift

/-- On the machine, every codemod that is told of a dry run leaves the files alone. -/
def HeedsDryRun (machine : Process.Machine) : Prop :=
  ∀ (launch : Codemod.Launch) (path target : Path) (tree : FileTree),
    (machine (launch.invocation path ⟨target, true⟩) tree).2 = tree

namespace Codemod

/-! ## Codemods -/

theorem Imports.run_dryRun (read : Source.Reading) (tree : FileTree) (target : Path)
    (spec : Imports.Spec) : (Imports.run read tree target spec true).2 = tree := by
  rw [Imports.run]
  rfl

variable {setting : Setting} (heeds : HeedsDryRun setting.machine)
include heeds

theorem runExternal_dryRun (launch : Launch) (tree : FileTree) (path target : Path) :
    (runExternal setting tree launch path ⟨target, true⟩).2 = tree := by
  have kept := heeds launch path target tree
  have ran : (launch.run setting.machine tree path ⟨target, true⟩).2 = tree := by
    rw [Launch.run]
    split
    next error later done => rwa [done] at kept
    next completion later done => rwa [done] at kept
  rw [runExternal]
  split
  next failure later done => rwa [done] at ran
  next document later done =>
    rw [done] at ran
    split <;> exact ran

/-- **A dry run of a codemod leaves the files alone**, whatever kind of codemod it is. -/
theorem run_dryRun (tree : FileTree) (path target : Path) :
    (run setting tree path ⟨target, true⟩).2 = tree := by
  rw [run]
  split
  · rfl
  dsimp only
  split
  · rw [runDescriptor]
    dsimp only
    split
    · rfl
    next spec _ => exact Imports.run_dryRun setting.read tree target spec
  split
  · exact runExternal_dryRun heeds _ tree path target
  · exact runExternal_dryRun heeds _ tree path target

theorem runAll_dryRun (target : Path) (tree : FileTree) (references : List Reference) :
    (runAll setting ⟨target, true⟩ tree references).2 = tree := by
  induction references generalizing tree with
  | nil => rfl
  | cons reference rest ih =>
      have first := run_dryRun heeds tree reference.path target
      rw [runAll]
      generalize run setting tree reference.path ⟨target, true⟩ = done at first ⊢
      obtain ⟨result, later⟩ := done
      obtain rfl : later = tree := first
      exact ih later

end Codemod

namespace Workspace

/-- A dry run of an upgrade leaves the world alone, whether it succeeds or fails. -/
theorem upgrade_dryRun_world (world : World) (scan : Scan) (approved : Table String)
    (installer : Installer) : (upgrade world scan approved installer true).2 = world := by
  cases edited : editsOf world.files scan approved with
  | error failure => rw [upgrade_of_editsOf_error edited]
  | ok edits => rw [upgrade_dryRun edited]

end Workspace

namespace Session

/-! ## Sessions -/

section

variable {session : Session} (heeds : HeedsDryRun session.machine)
include heeds

theorem runCodemods_dryRun (files : FileTree) (package low high : String) :
    (session.runCodemods files package low high true).2 = files := by
  unfold runCodemods
  split
  · rfl
  · exact Codemod.runAll_dryRun heeds session.root files _

theorem runAllCodemods_dryRun (installed : Table String) (files : FileTree)
    (upgrades : List (String × String)) :
    (session.runAllCodemods installed true files upgrades).2 = files := by
  induction upgrades generalizing files with
  | nil => rfl
  | cons upgrade rest ih =>
      obtain ⟨name, target⟩ := upgrade
      rw [runAllCodemods]
      split
      · exact ih files
      next current _ =>
        have first := runCodemods_dryRun heeds files name current target
        generalize session.runCodemods files name current target true = done at first ⊢
        obtain ⟨summary, later⟩ := done
        obtain rfl : later = files := first
        exact ih later

theorem carryOut_dryRun {options : ApplyOptions} (dry : options.dryRun = true)
    (world : Workspace.World) (survey : Survey) :
    (session.carryOut options world survey).2.2 = world := by
  have kept := Workspace.upgrade_dryRun_world world survey.scan
    (survey.plan.approved options.allowBreaking) session.installer
  rw [carryOut, dry]
  dsimp only
  split
  next failure later done => rwa [done] at kept
  next outcome later done =>
    rw [done] at kept
    obtain rfl : later = world := kept
    split
    · rfl
    · dsimp only
      rw [runAllCodemods_dryRun heeds]

end

/-- A run that changes nothing but its report. -/
def OnlyReports {α : Type} (session : Session) (files : FileTree) (done : Run α × FileTree) :
    Prop :=
  done.1.report.OnlyWrites session.reportPath files done.2

/-- Ending a run writes its report and nothing else. -/
theorem onlyReports_finish {α : Type} (session : Session) (times : Times) (flags : RunFlags)
    (files : FileTree) (record : Record) (result : Except Failure α) :
    session.OnlyReports files (session.finish times flags files record result) :=
  Report.onlyWrites_writeIfPossible _ files session.reportPath

theorem onlyReports_scan (session : Session) (times : Times) (flags : RunFlags)
    (files : FileTree) : session.OnlyReports files (session.scan times flags files) := by
  unfold scan
  split <;> exact onlyReports_finish session times flags files _ _

theorem onlyReports_guide (session : Session) (times : Times) (flags : RunFlags)
    (files : FileTree) : session.OnlyReports files (session.guide times flags files) := by
  unfold guide
  split <;> exact onlyReports_finish session times flags files _ _

theorem onlyReports_codemod {session : Session} (heeds : HeedsDryRun session.machine)
    (times : Times) {flags : RunFlags} (dry : flags.dryRun = true) (files : FileTree)
    (package low high : String) :
    session.OnlyReports files (session.codemod times flags files package low high) := by
  have kept := runCodemods_dryRun heeds files package low high
  rw [codemod, dry]
  generalize session.runCodemods files package low high true = done at kept ⊢
  obtain ⟨summary, later⟩ := done
  obtain rfl : later = files := kept
  exact onlyReports_finish session times flags later _ _

theorem onlyReports_apply {session : Session} (heeds : HeedsDryRun session.machine)
    (times : Times) (flags : RunFlags) {options : ApplyOptions} (dry : options.dryRun = true)
    (world : Workspace.World) :
    session.OnlyReports world.files ((session.apply times flags options world).1,
        (session.apply times flags options world).2.files) ∧
      (session.apply times flags options world).2.installs = world.installs := by
  have kept : (session.surveyAndCarryOut options world).2.2 = world := by
    rw [surveyAndCarryOut]
    split
    · rfl
    · exact carryOut_dryRun heeds dry world _
  rw [apply]
  generalize session.surveyAndCarryOut options world = done at kept ⊢
  obtain ⟨result, record, later⟩ := done
  obtain rfl : later = world := kept
  exact ⟨onlyReports_finish session times flags later.files record result, rfl⟩

/-- **Runs that only read touch only the report.**  Scanning, writing a guide, dry runs of codemods
and dry runs of applying upgrades leave every place of the tree as it was, other than the report and
the directories made above it, whether they succeed or fail; and applying does not call the
installer. -/
theorem onlyReports_of_readOnly (session : Session) (times : Times) (flags : RunFlags)
    (heeds : HeedsDryRun session.machine) :
    (∀ files, session.OnlyReports files (session.scan times flags files)) ∧
      (∀ files, session.OnlyReports files (session.guide times flags files)) ∧
      (flags.dryRun = true → ∀ files package low high,
        session.OnlyReports files (session.codemod times flags files package low high)) ∧
      ∀ options : ApplyOptions, options.dryRun = true → ∀ world,
        session.OnlyReports world.files ((session.apply times flags options world).1,
            (session.apply times flags options world).2.files) ∧
          (session.apply times flags options world).2.installs = world.installs :=
  ⟨onlyReports_scan session times flags, onlyReports_guide session times flags,
    fun dry => onlyReports_codemod heeds times dry,
    fun _ dry => onlyReports_apply heeds times flags dry⟩

/-! ## A machine whose programs write unless they are told not to -/

/-- What ends the options of a dry run. -/
def dryRunEnd : String :=
  "\"dryRun\":true\x7d"

/-- The texts by which a program can be told its options. -/
def optionTexts (invocation : Process.Invocation) : List String :=
  (Text.decode? invocation.input).toList ++ invocation.environment.map Prod.snd

/-- Every program reports nothing, and leaves a file at the top unless it is told of a dry run. -/
def touchingMachine : Process.Machine := fun invocation tree =>
  let report := Text.encode
    "\x7b\"changedFiles\":[],\"skippedFiles\":[],\"errors\":[]\x7d"
  let touched := (tree.writeText ⟨["", "touched"]⟩ "").toOption.getD tree
  (.ok ⟨.exited 0, report, .empty⟩,
    if (optionTexts invocation).any fun text => Text.endsWith text dryRunEnd then tree else touched)

theorem endsWith_dryRunEnd (target : Path) :
    Text.endsWith (Codemod.Options.text ⟨target, true⟩) dryRunEnd = true := by
  rw [Text.endsWith, Option.isSome_iff_exists]
  refine ⟨'{' :: Json.quote "targetDir" ++ ':' :: Json.quote target.text ++ [','], ?_⟩
  rw [Text.stripSuffix?_eq_some_iff, Codemod.Options.text, Json.Value.renderCompact,
    String.toList_ofList]
  simp [Json.compact, Json.compactFields, Json.quote, dryRunEnd, Json.escape]

theorem heedsDryRun_touchingMachine : HeedsDryRun touchingMachine := by
  intro launch path target tree
  have told : (optionTexts (launch.invocation path ⟨target, true⟩)).any
      (fun text => Text.endsWith text dryRunEnd) = true := by
    refine List.any_eq_true.2 ⟨_, ?_, endsWith_dryRunEnd target⟩
    cases launch with
    | module interpreter => simp [optionTexts, Codemod.Launch.invocation]
    | program => simp [optionTexts, Codemod.Launch.invocation, Text.decode?_encode]
  exact if_pos told

/-- A session on that machine, with an installer that leaves a file too. -/
def touchingSession : Session where
  root := ⟨["", ""]⟩
  config := {}
  registry := fun _ => .atOnce (.ok "1.2.0")
  installer := fun _ tree => (.ok (), (tree.writeText ⟨["", "installed"]⟩ "").toOption.getD tree)
  machine := touchingMachine
  read := fun _ _ => none

/-- A dry run that finds a range to change, on a machine and with an installer that would write. -/
theorem onlyReports_of_readOnly_touchingSession :
    HeedsDryRun touchingSession.machine ∧
      (touchingSession.apply ⟨⟨0, 0⟩, ⟨0, 0⟩⟩ {} ⟨false, true, true⟩
        ⟨Workspace.twoManifests, []⟩).1.report.changes.length = 1 ∧
      touchingSession.OnlyReports Workspace.twoManifests
        ((touchingSession.apply ⟨⟨0, 0⟩, ⟨0, 0⟩⟩ {} ⟨false, true, true⟩
            ⟨Workspace.twoManifests, []⟩).1,
          (touchingSession.apply ⟨⟨0, 0⟩, ⟨0, 0⟩⟩ {} ⟨false, true, true⟩
            ⟨Workspace.twoManifests, []⟩).2.files) := by
  have results := onlyReports_of_readOnly touchingSession ⟨⟨0, 0⟩, ⟨0, 0⟩⟩ {}
    heedsDryRun_touchingMachine
  refine ⟨heedsDryRun_touchingMachine, by decide +kernel, ?_⟩
  exact (results.2.2.2 ⟨false, true, true⟩ rfl ⟨Workspace.twoManifests, []⟩).1

end Session

end Uplift
