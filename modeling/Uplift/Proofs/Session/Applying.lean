import Uplift.Proofs.Codemod.Running
import Uplift.Proofs.FileTree.Outcomes
import Uplift.Proofs.Session.Changes
import Uplift.Proofs.Session.ReadOnly
import Uplift.Proofs.Workspace.Repeating

/-!
# The order in which upgrades are applied

A run of applying upgrades takes one of four courses (`Course`).  It ends with the survey; it ends
with the upgrade, over a manifest that cannot be read or written; it ends with the installer, after
the manifests were written; or the packages take their turns.  In the report there is always what
was done by the time the run ended, and the failure that ended it if there was one.

In the turn of a package its codemods are discovered on the files that the turns before it left, and
each of them is executed (`Turn.Taken`).  Turns are taken in ascending order of the names, and the
summary is that of all of them (`exists_turns`).

The report is written last.  Whether it can be written has no influence on the run, and neither has
the path it is written to; but a report that goes to the path of a manifest takes the place of what
was written there, so that what the installer left in a manifest stays only apart from that path
(`Workspace.AreWritten`, `Course`).
-/

set_option autoImplicit false

namespace Uplift.Session

open Workspace (World Installer ManifestEdit)

/-! ## Turns of packages -/

section Turns

/-- What the codemods of a session need to run. -/
def codemodSetting (session : Session) : Codemod.Setting :=
  ⟨session.machine, session.read, session.config.scriptRunner⟩

/-- The codemods that are found in some files for a package between two versions: none without a
library. -/
def foundCodemods (session : Session) (files : FileTree) (package low high : String) :
    List Codemod.Reference :=
  match session.library? files with
  | none => []
  | some library =>
    Codemod.discover files library (library.joinText session.config.codemodsDir) package low high

theorem runCodemods_eq (session : Session) (files : FileTree) (package low high : String)
    (dryRun : Bool) :
    session.runCodemods files package low high dryRun =
      Codemod.runAll session.codemodSetting ⟨session.root, dryRun⟩ files
        (session.foundCodemods files package low high) := by
  unfold runCodemods foundCodemods
  cases session.library? files <;> rfl

theorem nodup_relative_foundCodemods (session : Session) (files : FileTree)
    (package low high : String) :
    ((session.foundCodemods files package low high).map Codemod.Reference.relative).Nodup := by
  unfold foundCodemods
  cases session.library? files with
  | none => exact List.nodup_nil
  | some library => exact Codemod.nodup_relative_discover files library _ package low high

/-- The turn of a package: the versions between which its codemods are looked for, and their
executions. -/
structure Turn where
  name : String
  current : String
  target : String
  executions : List Codemod.Execution

/-- The summary of a turn. -/
def Turn.summary (turn : Turn) : Codemod.Summary :=
  Codemod.summaryOf turn.executions

/-- A package takes its turn.  What is executed is what is found at that moment between the
installed version and the target; every codemod is named once, and one that fails adds the one error
that says so. -/
structure Turn.Taken (session : Session) (installed : Table String) (dryRun : Bool) (turn : Turn)
    (before after : FileTree) : Prop where
  installed : installed.get? turn.name = some turn.current
  found : turn.executions.map Codemod.Execution.reference =
    session.foundCodemods before turn.name turn.current turn.target
  runs : Codemod.Runs session.codemodSetting ⟨session.root, dryRun⟩ before turn.executions after
  ran : turn.summary.ran =
    (session.foundCodemods before turn.name turn.current turn.target).map
      Codemod.Reference.relative
  once : turn.summary.ran.Nodup
  errors : turn.summary.errors = turn.executions.flatMap Codemod.Execution.errors

/-- Packages take their turns one after another, each on the files that those before it left. -/
inductive TurnsTaken (session : Session) (installed : Table String) (dryRun : Bool) :
    FileTree → List Turn → FileTree → Prop where
  | nil {files : FileTree} : TurnsTaken session installed dryRun files [] files
  | cons {before between after : FileTree} {turn : Turn} {rest : List Turn}
      (taken : turn.Taken session installed dryRun before between)
      (next : TurnsTaken session installed dryRun between rest after) :
      TurnsTaken session installed dryRun before (turn :: rest) after

variable (session : Session) (installed : Table String) (dryRun : Bool)

/-- One turn. -/
theorem exists_turn (files : FileTree) {name current : String} (target : String)
    (known : installed.get? name = some current) :
    ∃ executions, (⟨name, current, target, executions⟩ : Turn).Taken session installed dryRun files
        (session.runCodemods files name current target dryRun).2 ∧
      (session.runCodemods files name current target dryRun).1 =
        Codemod.summaryOf executions := by
  rw [runCodemods_eq]
  obtain ⟨executions, found, runs, summary⟩ := Codemod.exists_runs session.codemodSetting
    ⟨session.root, dryRun⟩ files (session.foundCodemods files name current target)
  have ran : (Codemod.summaryOf executions).ran =
      (session.foundCodemods files name current target).map Codemod.Reference.relative := by
    rw [Codemod.ran_summaryOf, ← found, List.map_map]
    rfl
  refine ⟨executions, ⟨known, found, runs, ran, ?_, Codemod.errors_summaryOf executions⟩, summary⟩
  change (Codemod.summaryOf executions).ran.Nodup
  rw [ran]
  exact session.nodup_relative_foundCodemods files name current target

/-- **The packages of some upgrades take their turns in order**, and the summary is that of all
turns. -/
theorem exists_turns (files : FileTree) (upgrades : List (String × String))
    (known : ∀ upgrade ∈ upgrades, ∃ current, installed.get? upgrade.1 = some current) :
    ∃ turns : List Turn, turns.map (fun turn => (turn.name, turn.target)) = upgrades ∧
      TurnsTaken session installed dryRun files turns
        (session.runAllCodemods installed dryRun files upgrades).2 ∧
      (session.runAllCodemods installed dryRun files upgrades).1 =
        .concat (turns.map Turn.summary) := by
  induction upgrades generalizing files with
  | nil => exact ⟨[], rfl, .nil, rfl⟩
  | cons upgrade rest ih =>
      obtain ⟨name, target⟩ := upgrade
      obtain ⟨current, here⟩ := known (name, target) List.mem_cons_self
      obtain ⟨executions, taken, summary⟩ := exists_turn session installed dryRun files target here
      obtain ⟨turns, listed, next, later⟩ :=
        ih (session.runCodemods files name current target dryRun).2
          fun other member => known other (List.mem_cons_of_mem _ member)
      refine ⟨⟨name, current, target, executions⟩ :: turns, ?_, ?_, ?_⟩
      · rw [List.map_cons, listed]
      · rw [runAllCodemods, here]
        exact .cons taken next
      · rw [runAllCodemods, here]
        change (session.runCodemods files name current target dryRun).1 ++
          (session.runAllCodemods installed dryRun _ rest).1 = _
        rw [summary, later]
        rfl

/-- Turns for the entries of a table are taken in ascending order of the names. -/
theorem ascending_of_entries {turns : List Turn} {upgrades : Table String} {codemods : Bool}
    (listed : turns.map (fun turn => (turn.name, turn.target)) =
      if codemods then upgrades.entries else []) :
    (turns.map Turn.name).Pairwise (· < ·) := by
  have names : turns.map Turn.name =
      (turns.map fun turn => (turn.name, turn.target)).map Prod.fst := by
    rw [List.map_map]
    rfl
  rw [names, listed, List.pairwise_map]
  split
  · exact upgrades.ascending
  · exact .nil

end Turns

/-! ## Courses -/

/-- A world in which the report of a run is written if that is possible. -/
def withReport {α : Type} (session : Session) (run : Run α) (world : World) : World :=
  { world with files := run.report.writeIfPossible world.files session.reportPath }

/-- The courses that applying upgrades can take, with the world that each leaves. -/
inductive Course (session : Session) (options : ApplyOptions) (world : World)
    (run : Run Application) : World → Prop where
  /-- The workspace cannot be surveyed. -/
  | unsurveyed {failure : Failure}
      (failed : session.survey world.files = .error failure)
      (result : run.result = .error failure)
      (changes : run.report.changes = [])
      (codemods : run.report.codemods = .empty) :
      Course session options world run (session.withReport run world)
  /-- The upgrade fails: there are no changes in the report, and no codemod runs. -/
  | refused {survey : Survey} {failure : Failure} {later : World}
      (surveyed : session.survey world.files = .ok survey)
      (failed : Workspace.upgrade world survey.scan (survey.plan.approved options.allowBreaking)
        session.installer options.dryRun = (.error failure, later))
      (installs : later.installs = world.installs)
      (result : run.result = .error failure)
      (changes : run.report.changes = [])
      (codemods : run.report.codemods = .empty) :
      Course session options world run (session.withReport run later)
  /-- The installer fails: its failure is the result, the changes are those that were written, they
  stay written apart from the installer and the report, and no codemod runs. -/
  | uninstalled {survey : Survey} {edits : List ManifestEdit} {handed : FileTree}
      {failure : Failure}
      (surveyed : session.survey world.files = .ok survey)
      (live : options.dryRun = false)
      (edited : Workspace.editsOf world.files survey.scan
        (survey.plan.approved options.allowBreaking) = .ok edits)
      (written : Workspace.AreWritten world.files survey.scan
        (survey.plan.approved options.allowBreaking) edits handed)
      (failed : (session.installer survey.scan.root handed).1 = .error failure)
      (result : run.result = .error failure)
      (changes : run.report.changes = edits.flatMap ManifestEdit.changes)
      (codemods : run.report.codemods = .empty)
      (stay : ∀ edit ∈ edits, ∀ place, world.files.locate edit.path = .ok place →
        (session.installer survey.scan.root handed).2.entryAt? place = handed.entryAt? place →
        (run.report.writeIfPossible (session.installer survey.scan.root handed).2
          session.reportPath).locateNew session.reportPath ≠ .ok place →
        (run.report.writeIfPossible (session.installer survey.scan.root handed).2
          session.reportPath).entryAt? place = handed.entryAt? place) :
      Course session options world run (session.withReport run
        ⟨(session.installer survey.scan.root handed).2, world.installs ++ [survey.scan.root]⟩)
  /-- The approved packages take their turns, if codemods are to run, in ascending order. -/
  | completed {survey : Survey} {outcome : Workspace.UpgradeOutcome} {later : World}
      {turns : List Turn} {files : FileTree} {application : Application}
      (surveyed : session.survey world.files = .ok survey)
      (upgraded : Workspace.upgrade world survey.scan (survey.plan.approved options.allowBreaking)
        session.installer options.dryRun = (.ok outcome, later))
      (installed : outcome.installError = none)
      (upgrades : turns.map (fun turn => (turn.name, turn.target)) =
        if options.codemods then (survey.plan.approved options.allowBreaking).entries else [])
      (ascending : (turns.map Turn.name).Pairwise (· < ·))
      (taken : TurnsTaken session survey.scan.installed options.dryRun later.files turns files)
      (result : run.result = .ok application)
      (outcome_eq : application.outcome = outcome)
      (changes : run.report.changes = outcome.changes)
      (summary : application.codemods = .concat (turns.map Turn.summary))
      (codemods : run.report.codemods = application.codemods) :
      Course session options world run (session.withReport run { later with files })

section Courses

variable (session : Session) (times : Times) (flags : RunFlags) (options : ApplyOptions)

/-- The end of a run of applying upgrades. -/
theorem apply_eq (world : World) {result : Except Failure Application} {record : Record}
    {later : World} (done : session.surveyAndCarryOut options world = (result, record, later)) :
    session.apply times flags options world =
      (⟨session.reportOf times flags record result, result⟩,
        session.withReport ⟨session.reportOf times flags record result, result⟩ later) := by
  rw [apply, done]
  rfl

/-- The report is written over the files that the run leaves. -/
theorem files_apply (world : World) :
    (session.apply times flags options world).2.files =
      (session.apply times flags options world).1.report.writeIfPossible
        (session.surveyAndCarryOut options world).2.2.files session.reportPath := by
  rw [apply_eq session times flags options world rfl]
  rfl

/-- A file that a report is not written to stays as it was. -/
theorem entryAt?_withReport {report : Report} {files : FileTree} {path : Path}
    {place : FileTree.Place} (there : files.entryAt? place ≠ none)
    (apart : (report.writeIfPossible files path).locateNew path ≠ .ok place) :
    (report.writeIfPossible files path).entryAt? place = files.entryAt? place := by
  by_contra changed
  rcases Report.onlyWrites_writeIfPossible report files path place changed with
    ⟨absent, _, _⟩ | ⟨located, _⟩
  · exact there absent
  · exact apart located

/-- The approved packages are installed. -/
theorem known_of_survey {files : FileTree} {survey : Survey}
    (surveyed : session.survey files = .ok survey) (allowBreaking : Bool) :
    ∀ upgrade ∈ (survey.plan.approved allowBreaking).entries,
      ∃ current, survey.scan.installed.get? upgrade.1 = some current := by
  rintro ⟨name, target⟩ member
  obtain ⟨_, latest, _, plan⟩ := survey_eq_ok surveyed
  rw [plan] at member
  exact (Plan.accepted_of_mem_approved member).1

/-- The course after a survey. -/
theorem course_of_carryOut (world : World) {survey : Survey}
    (surveyed : session.survey world.files = .ok survey)
    {result : Except Failure Application} {record : Record} {later : World}
    (done : session.carryOut options world survey = (result, record, later)) :
    Course session options world ⟨session.reportOf times flags record result, result⟩
      (session.withReport ⟨session.reportOf times flags record result, result⟩ later) := by
  obtain ⟨scanned, _⟩ := survey_eq_ok surveyed
  rw [carryOut] at done
  split at done
  next failure later failed =>
    cases done
    exact .refused surveyed failed (Workspace.installs_of_upgrade_error failed) rfl rfl rfl
  next outcome between upgraded =>
    split at done
    next failure failed =>
      cases done
      obtain ⟨live, edits, handed, edited, written, installing, changes, rfl⟩ :=
        Workspace.written_of_installError upgraded failed
      have areWritten := (Workspace.areEdits_of_editsOf edited).areWritten
        (Workspace.named_of_scan scanned) written
      refine .uninstalled surveyed live edited areWritten installing rfl changes rfl ?_
      intro edit edited' place located kept apart
      refine (entryAt?_withReport ?_ apart).trans kept
      obtain ⟨place', _, _, holds, _, held⟩ := areWritten.each edit edited'
      cases located.symm.trans holds.located
      rw [kept, held]
      exact Option.some_ne_none _
    next installed =>
      cases done
      obtain ⟨turns, listed, taken, summary⟩ := exists_turns session survey.scan.installed
        options.dryRun between.files
        (if options.codemods then (survey.plan.approved options.allowBreaking).entries else [])
        (by
          intro upgrade member
          split at member
          · exact known_of_survey session surveyed options.allowBreaking upgrade member
          · cases member)
      exact .completed surveyed upgraded installed listed (ascending_of_entries listed) taken rfl rfl
        rfl summary rfl

/-- A session that writes its report elsewhere. -/
def reportingTo (session : Session) (path : String) : Session :=
  { session with config := { session.config with reportPath := path } }

theorem runAllCodemods_reportingTo (path : String) (installed : Table String) (dryRun : Bool)
    (files : FileTree) (upgrades : List (String × String)) :
    (session.reportingTo path).runAllCodemods installed dryRun files upgrades =
      session.runAllCodemods installed dryRun files upgrades := by
  induction upgrades generalizing files with
  | nil => rfl
  | cons upgrade rest ih =>
      have turn : ∀ package low high, (session.reportingTo path).runCodemods files package low high
          dryRun = session.runCodemods files package low high dryRun := fun _ _ _ => rfl
      simp only [runAllCodemods, ih, turn]

/-- Where the report goes has no influence on what is done. -/
theorem surveyAndCarryOut_reportingTo (path : String) (world : World) :
    (session.reportingTo path).surveyAndCarryOut options world =
      session.surveyAndCarryOut options world := by
  have survey : (session.reportingTo path).survey world.files = session.survey world.files := rfl
  have installer : (session.reportingTo path).installer = session.installer := rfl
  simp only [surveyAndCarryOut, survey, carryOut, installer, runAllCodemods_reportingTo]

/-- **Applying upgrades takes its course.**  The report says that the run failed exactly if it did,
with the failure that is its result.  The run ends with the survey, with the upgrade, with the
installer or after the turns of the packages, and in each case the report has exactly what was done.
None of this depends on where the report is written, or whether it can be. -/
theorem course_of_apply (world : World) :
    ((session.apply times flags options world).1.report.status = .failed ↔
      ∃ failure, (session.apply times flags options world).1.result = .error failure) ∧
    (session.apply times flags options world).1.report.failure =
      failureOf? (session.apply times flags options world).1.result ∧
    Course session options world (session.apply times flags options world).1
      (session.apply times flags options world).2 ∧
    ∀ path, ((session.reportingTo path).apply times flags options world).1 =
      (session.apply times flags options world).1 := by
  cases done : session.surveyAndCarryOut options world with
  | mk result rest =>
      obtain ⟨record, later⟩ := rest
      rw [apply_eq session times flags options world done]
      refine ⟨?_, rfl, ?_, fun path => ?_⟩
      · cases result with
        | ok application => simp [Report.status, reportOf, failureOf?]
        | error failure => simp [Report.status, reportOf, failureOf?]
      · rw [surveyAndCarryOut] at done
        split at done
        next failure failed =>
          cases done
          exact .unsurveyed failed rfl rfl rfl
        next survey surveyed =>
          exact course_of_carryOut session times flags options world surveyed done
      · have same := (surveyAndCarryOut_reportingTo session options path world).trans done
        rw [apply_eq _ times flags options world same]
        rfl

end Courses

/-! ## A report in place of a manifest -/

/-- A report that was written to a path that ends in a name is read back. -/
theorem readText_of_write {report : Report} {tree later : FileTree} {path : Path}
    {above : List String} {name : String} (pieces : path.pieces = above ++ [name])
    (isName : IsName name) (done : report.write tree path = (.ok (), later)) :
    later.readText path = .ok report.render := by
  rw [Report.write] at done
  split at done
  next => cases done
  next between prepared =>
    cases writing : between.writeText path report.render with
    | error error =>
        simp only [writing] at done
        cases done
    | ok written =>
        simp only [writing] at done
        cases done
        obtain ⟨place, executable, located, updated, _⟩ := FileTree.located_of_writeBytes writing
        obtain ⟨dir, lands⟩ := FileTree.lands_of_locateNew pieces isName located
        rw [lands.locateNew] at located
        cases located
        exact Workspace.readText_of_lands (lands.of_sameDirectories updated.sameDirectories)
          updated.here (Text.decode?_encode _)

/-- A report starts with the version of its format. -/
theorem take_render (report : Report) :
    report.render.toList.take 5 = ['{', '\n', ' ', ' ', '"'] ∧
      (report.render.toList.drop 5).head? = some 's' := by
  rw [Report.render, String.toList_append, Json.Value.render, String.toList_ofList, Report.toJson,
    Json.pretty]
  exact ⟨rfl, rfl⟩

/-- A session whose installer fails and leaves the files alone. -/
def uninstallableSession : Session where
  root := ⟨["", ""]⟩
  config := {}
  registry := fun _ => .atOnce (.ok "1.2.0")
  installer := fun _ tree => (.error (.install "npm install" "1" ""), tree)
  machine := fun _ tree => (.error .notFound, tree)
  read := fun _ _ => none

/-- A run of the session on two manifests, with the report going to a path. -/
def uninstallableRun (path : String) : Run Application × World :=
  (uninstallableSession.reportingTo path).apply ⟨⟨0, 0⟩, ⟨0, 0⟩⟩ {} ⟨false, false, false⟩
    ⟨Workspace.twoManifests, []⟩

/-- The text of the first manifest after such a run. -/
def uninstallableManifest? (path : String) : Option String :=
  ((uninstallableRun path).2.files.readText ⟨["", "package.json"]⟩).toOption

/-- The text of the manifest with its new range. -/
def upgradedManifest : String :=
  "\x7b\n  \"dependencies\": \x7b\n    \"a\": \"^1.2.0\"\n  \x7d\n\x7d\n"

/-- The files of such a run before its report is written. -/
def unreportedFiles (path : String) : FileTree :=
  ((uninstallableSession.reportingTo path).surveyAndCarryOut ⟨false, false, false⟩
    ⟨Workspace.twoManifests, []⟩).2.2.files

theorem files_uninstallableRun (path : String) :
    (uninstallableRun path).2.files =
      (uninstallableRun path).1.report.writeIfPossible (unreportedFiles path)
        (uninstallableSession.reportingTo path).reportPath := by
  rw [uninstallableRun, unreportedFiles, files_apply]

/-- The report takes the place of the manifest whose path it goes to. -/
theorem uninstallableManifest?_report :
    uninstallableManifest? "package.json" =
      some (uninstallableRun "package.json").1.report.render := by
  have target : (uninstallableSession.reportingTo "package.json").reportPath =
      ⟨["", "package.json"]⟩ := by
    decide +kernel
  have succeeds : ((uninstallableRun "package.json").1.report.write
      (unreportedFiles "package.json") ⟨["", "package.json"]⟩).1.isOk = true := by
    decide +kernel
  rw [uninstallableManifest?, files_uninstallableRun, Report.writeIfPossible, target]
  generalize (uninstallableRun "package.json").1.report = report at succeeds ⊢
  cases done : report.write (unreportedFiles "package.json") ⟨["", "package.json"]⟩ with
  | mk result later =>
      cases result with
      | error error =>
          rw [done] at succeeds
          cases succeeds
      | ok _ =>
          have isName : IsName "package.json" := by decide
          have pieces : Path.pieces ⟨["", "package.json"]⟩ = [""] ++ ["package.json"] := rfl
          rw [readText_of_write pieces isName done]
          rfl

/-- **A report can take the place of a manifest.**  The installer fails, the report has the change
that was written, and the manifest has it too if the report goes elsewhere; if the report goes to
the path of the manifest, that is where the report is. -/
theorem report_replaces_manifest :
    (uninstallableRun "package.json").1.result.isOk = false ∧
      (uninstallableRun "package.json").1.report.changes =
        [⟨"package.json", "dependencies", "a", "^1.0.0", "^1.2.0"⟩] ∧
      uninstallableManifest? "report.json" = some upgradedManifest ∧
      uninstallableManifest? "package.json" ≠ some upgradedManifest := by
  refine ⟨by decide +kernel, by decide +kernel, by decide +kernel, fun same => ?_⟩
  rw [uninstallableManifest?_report] at same
  have head := (take_render (uninstallableRun "package.json").1.report).2
  rw [Option.some.inj same] at head
  revert head
  decide +kernel

end Uplift.Session
