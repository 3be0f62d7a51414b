import Uplift.Proofs.Plan.Approval
import Uplift.Proofs.Workspace.Ranges
import Uplift.Proofs.Workspace.Upgrade
import Uplift.Session

/-!
# What applying upgrades does to declared ranges

Approval is decided package by package, from the one installed version that a scan finds for it.
A run without permission for breaking upgrades therefore changes ranges only of packages for which
the step from the installed version to the registry's answer is non-breaking, and moves each of
them to that answer (`nonBreaking_of_mem_changes`).

The ranges themselves may declare other versions than the installed one.  The step from a declared
version is non-breaking too if the version lies between the installed one and the target, and in
general exactly if it comes before the target and, unless the authors have spoken, is on the line of
the installed version.  Where a package is declared twice, a range can be moved backwards
(`declared_range_moved_backwards`).
-/

set_option autoImplicit false

namespace Uplift.Session

open Workspace (DependencyChange Moves)

/-! ## Tables of a survey -/

theorem within_of_get?_latestVersions {client : Registry.Client} {packages : List String}
    {limit : Nat} {name : String} {answer : Option String}
    (found : (Registry.latestVersions client packages limit).get? name = some answer) :
    (client name).within limit = answer := by
  obtain ⟨package, _, entry⟩ := List.mem_map.1 (Table.mem_of_get?_ofList found)
  cases entry
  rfl

/-- The authors' flag for a version of a package. -/
def authorsFlag? (session : Session) (files : FileTree) (name target : String) : Option Bool :=
  Migration.breakingFlag? files session.root session.config.migrationsPath name target

theorem breakingFlags_eq (session : Session) (files : FileTree) (latest : Table (Option String)) :
    session.breakingFlags files latest = Table.ofList (latest.entries.filterMap fun entry =>
      entry.2.bind fun target => (session.authorsFlag? files entry.1 target).bind fun flag =>
        some (entry.1, flag)) :=
  rfl

/-- The authors' flag for a package is that for its latest version. -/
theorem get?_breakingFlags (session : Session) (files : FileTree)
    {latest : Table (Option String)} {name target : String}
    (known : latest.get? name = some (some target)) :
    (session.breakingFlags files latest).get? name = session.authorsFlag? files name target := by
  have flagged : ∀ flag, (name, flag) ∈ latest.entries.filterMap (fun entry =>
      entry.2.bind fun target => (session.authorsFlag? files entry.1 target).bind fun flag =>
        some (entry.1, flag)) ↔ session.authorsFlag? files name target = some flag := by
    intro flag
    simp only [List.mem_filterMap, Option.bind_eq_some_iff]
    constructor
    · rintro ⟨⟨other, version⟩, member, answer, rfl, flag', found, same⟩
      cases same
      cases known.symm.trans (Table.get?_eq_some_iff.2 member)
      exact found
    · intro found
      exact ⟨(name, some target), Table.get?_eq_some_iff.1 known, target, rfl, flag, found, rfl⟩
  ext flag
  rw [← flagged flag, breakingFlags_eq]
  refine Table.get?_ofList_eq_some_iff fun first second member member' => ?_
  rw [flagged] at member member'
  exact Option.some.inj (member.symm.trans member')

/-- The parts of a survey. -/
theorem survey_eq_ok {session : Session} {files : FileTree} {survey : Survey}
    (done : session.survey files = .ok survey) :
    Workspace.scan files session.root ⟨session.config.scopes⟩ = .ok survey.scan ∧
      ∃ latest, latest = Registry.latestVersions session.registry survey.scan.installed.names
          (session.config.registryTimeoutSecs * 1000) ∧
        survey.plan = Plan.compute survey.scan.installed latest
          (session.breakingFlags files latest) := by
  obtain ⟨scan, scanned, equal⟩ := Results.bind_eq_ok_iff.1 done
  cases equal
  exact ⟨scanned, _, rfl, rfl⟩

/-! ## Changes of a run -/

/-- The changes in a report are those of an upgrade of the surveyed workspace. -/
theorem survey_of_mem_changes {session : Session} {times : Times} {flags : RunFlags}
    {options : ApplyOptions} {world : Workspace.World} {change : DependencyChange}
    (member : change ∈ (session.apply times flags options world).1.report.changes) :
    ∃ survey outcome later, session.survey world.files = .ok survey ∧
      Workspace.upgrade world survey.scan (survey.plan.approved options.allowBreaking)
        session.installer options.dryRun = (.ok outcome, later) ∧ change ∈ outcome.changes := by
  change change ∈ (session.surveyAndCarryOut options world).2.1.changes at member
  rw [surveyAndCarryOut] at member
  split at member
  next => cases member
  next survey surveyed =>
    refine ⟨survey, ?_⟩
    rw [carryOut] at member
    split at member
    next => cases member
    next outcome later upgraded =>
      refine ⟨outcome, later, surveyed, upgraded, ?_⟩
      split at member
      next => exact member
      next => exact member

/-- A successful run returns the plan of its survey, what this approves and holds back, and an
upgrade whose changes it reports. -/
theorem survey_of_application {session : Session} {times : Times} {flags : RunFlags}
    {options : ApplyOptions} {world : Workspace.World} {application : Application}
    (done : (session.apply times flags options world).1.result = .ok application) :
    ∃ survey, session.survey world.files = .ok survey ∧ application.plan = survey.plan ∧
      application.approved = survey.plan.approved options.allowBreaking ∧
      application.heldBack = survey.plan.heldBack options.allowBreaking ∧
      (session.apply times flags options world).1.report.changes =
        application.outcome.changes := by
  change (session.surveyAndCarryOut options world).1 = .ok application at done
  change ∃ survey, _ ∧ _ ∧ _ ∧ _ ∧ (session.surveyAndCarryOut options world).2.1.changes = _
  rw [surveyAndCarryOut] at done ⊢
  split at done
  next => cases done
  next survey surveyed =>
    rw [carryOut] at done ⊢
    split at done
    next => cases done
    next outcome later upgraded =>
      split at done
      next => cases done
      next =>
        cases done
        exact ⟨survey, surveyed, rfl, rfl, rfl, rfl⟩

/-- What a successful run returns is what it reports. -/
theorem changes_of_application {session : Session} {times : Times} {flags : RunFlags}
    {options : ApplyOptions} {world : Workspace.World} {application : Application}
    (done : (session.apply times flags options world).1.result = .ok application) :
    application.outcome.changes = (session.apply times flags options world).1.report.changes := by
  obtain ⟨_, _, _, _, _, changes⟩ := survey_of_application done
  exact changes.symm

/-- Every change of a run without permission for breaking upgrades moves a range of a package whose
step from the installed version to the registry's answer is non-breaking. -/
theorem moves_of_mem_changes {session : Session} {times : Times} {flags : RunFlags}
    {options : ApplyOptions} {world : Workspace.World} (safe : options.allowBreaking = false)
    {change : DependencyChange}
    (member : change ∈ (session.apply times flags options world).1.report.changes) :
    ∃ scan installed target range,
      Workspace.scan world.files session.root ⟨session.config.scopes⟩ = .ok scan ∧
      scan.installed.get? change.name = some installed ∧
      (session.registry change.name).within (session.config.registryTimeoutSecs * 1000) =
        some target ∧
      Moves change range target ∧
      Classification.ofTexts installed target
        (session.authorsFlag? world.files change.name target) = .nonBreaking := by
  obtain ⟨survey, outcome, later, surveyed, upgraded, changed⟩ := survey_of_mem_changes member
  obtain ⟨scanned, latest, isLatest, plan⟩ := survey_eq_ok surveyed
  obtain ⟨edits, edited, changes⟩ := Workspace.edits_of_upgrade upgraded
  rw [changes] at changed
  obtain ⟨_, _, _, manifest, _, _, bumped⟩ :=
    ((Workspace.areEdits_of_editsOf edited).mem_changes_iff change).1 changed
  obtain ⟨range, target, approved, moves⟩ := Workspace.moves_of_mem_bumpRanges bumped
  rw [safe, plan] at approved
  obtain ⟨installed, found, known, nonBreaking⟩ := Plan.nonBreaking_of_mem_approved approved
  refine ⟨survey.scan, installed, target, range, scanned, found, ?_, moves, ?_⟩
  · rw [isLatest] at known
    exact within_of_get?_latestVersions known
  · rwa [session.get?_breakingFlags world.files known] at nonBreaking

/-- A change that moves a range of a package to the registry's answer, where the step from the
installed version is non-breaking.  The step from the declared version is non-breaking exactly if
that version comes before the target and, unless the authors have spoken, is on the line of the
installed version; in particular if it lies between the two. -/
structure ApprovedMove (session : Session) (files : FileTree) (change : DependencyChange)
    (installed target : String) (range : Range) (start goal : Version) : Prop where
  scanned : ∃ scan, Workspace.scan files session.root ⟨session.config.scopes⟩ = .ok scan ∧
    scan.installed.get? change.name = some installed
  answered : (session.registry change.name).within (session.config.registryTimeoutSecs * 1000) =
    some target
  moves : Moves change range target
  parsedStart : Version.parseLoose? installed = some start
  parsedGoal : Version.parseLoose? target = some goal
  nonBreaking : Classification.ofTexts installed target
    (session.authorsFlag? files change.name target) = .nonBreaking
  declared : ∀ version, Version.parseLoose? range.version = some version →
    (Classification.ofTexts range.version target
        (session.authorsFlag? files change.name target) = .nonBreaking ↔
      version.before goal = true ∧
        ((session.authorsFlag? files change.name target).isSome = true ∨
          version.SameLine start))
  between : ∀ version, Version.parseLoose? range.version = some version →
    version.before start = false → version.before goal = true →
      Classification.ofTexts range.version target
        (session.authorsFlag? files change.name target) = .nonBreaking

/-- **Without permission for breaking upgrades, every change is an approved move.**  What a
successful run returns as its changes is what it reports. -/
theorem approvedMove_of_apply (session : Session) (times : Times) (flags : RunFlags)
    {options : ApplyOptions} (world : Workspace.World) (safe : options.allowBreaking = false) :
    (∀ application, (session.apply times flags options world).1.result = .ok application →
      application.outcome.changes =
        (session.apply times flags options world).1.report.changes) ∧
    ∀ change ∈ (session.apply times flags options world).1.report.changes,
      ∃ installed target range start goal,
        ApprovedMove session world.files change installed target range start goal := by
  refine ⟨fun application done => changes_of_application done, fun change member => ?_⟩
  obtain ⟨scan, installed, target, range, scanned, found, answered, moves, nonBreaking⟩ :=
    moves_of_mem_changes safe member
  obtain ⟨start, goal, isStart, isGoal, step⟩ :=
    Classification.ofTexts_eq_nonBreaking_iff.1 nonBreaking
  have declared : ∀ version, Version.parseLoose? range.version = some version →
      (Classification.ofTexts range.version target
          (session.authorsFlag? world.files change.name target) = .nonBreaking ↔
        version.before goal = true ∧
          ((session.authorsFlag? world.files change.name target).isSome = true ∨
            version.SameLine start)) := by
    intro version parsed
    rw [← Classification.nonBreaking_iff_of_nonBreaking step, Classification.ofTexts, parsed,
      isGoal]
  refine ⟨installed, target, range, start, goal, ⟨scan, scanned, found⟩, answered, moves, isStart,
    isGoal, nonBreaking, declared, fun version parsed below above => ?_⟩
  refine (declared version parsed).2 ⟨above, ?_⟩
  obtain ⟨_, spoken | ⟨_, line⟩⟩ := Classification.ofVersions_eq_nonBreaking_iff.1 step
  · left
    rw [spoken]
    rfl
  · exact .inr (Classification.sameLine_of_between line below above)

/-! ## A package declared twice -/

/-- A manifest that declares a package in two sections, with ranges far apart. -/
def twiceDeclared : FileTree :=
  .directory [("package.json", .file (Text.encode
    ("\x7b\"dependencies\": \x7b\"a\": \"1.0.0\"\x7d, "
      ++ "\"devDependencies\": \x7b\"a\": \"3.0.0\"\x7d\x7d")) false)]

/-- A session whose registry has one version of every package. -/
def oneVersionSession (version : String) : Session where
  root := ⟨["", ""]⟩
  config := {}
  registry := fun _ => .atOnce (.ok version)
  installer := fun _ tree => (.ok (), tree)
  machine := fun _ tree => (.error .notFound, tree)
  read := fun _ _ => none

/-- The changes of a run on the manifest, without permission for breaking upgrades. -/
def twiceDeclaredChanges : List DependencyChange :=
  ((oneVersionSession "1.1.0").apply ⟨⟨0, 0⟩, ⟨0, 0⟩⟩ {} ⟨false, false, false⟩
    ⟨twiceDeclared, []⟩).1.report.changes

theorem twiceDeclaredChanges_eq : twiceDeclaredChanges =
    [⟨"package.json", "dependencies", "a", "1.0.0", "1.1.0"⟩,
      ⟨"package.json", "devDependencies", "a", "3.0.0", "1.1.0"⟩] := by
  decide +kernel

/-- **A range can be moved backwards**: the step from the version it declares is no upgrade at
all. -/
theorem declared_range_moved_backwards :
    ∃ change ∈ twiceDeclaredChanges, ∃ range,
      ((oneVersionSession "1.1.0").registry change.name).within 10000 = some "1.1.0" ∧
      Range.parse? change.origin = some range ∧
      (Version.parseLoose? range.version).isSome = true ∧
      change.destination = range.retarget "1.1.0" ∧
      Classification.ofTexts range.version "1.1.0"
        ((oneVersionSession "1.1.0").authorsFlag? twiceDeclared change.name "1.1.0") =
        .upToDate := by
  refine ⟨⟨"package.json", "devDependencies", "a", "3.0.0", "1.1.0"⟩, ?_,
    ⟨false, .none, "3.0.0"⟩, ?_, ?_, ?_, ?_, ?_⟩
  · rw [twiceDeclaredChanges_eq]
    exact List.mem_cons_of_mem _ List.mem_cons_self
  · rfl
  · decide +kernel
  · decide +kernel
  · decide +kernel
  · decide +kernel

theorem approvedMove_of_apply_twiceDeclared :
    (⟨false, false, false⟩ : ApplyOptions).allowBreaking = false ∧
    twiceDeclaredChanges ≠ [] ∧
    ∀ change ∈ twiceDeclaredChanges, ∃ installed target range start goal,
      ApprovedMove (oneVersionSession "1.1.0") twiceDeclared change installed target range start
        goal := by
  refine ⟨rfl, ?_, ?_⟩
  · rw [twiceDeclaredChanges_eq]
    exact List.cons_ne_nil _ _
  · exact (approvedMove_of_apply (oneVersionSession "1.1.0") ⟨⟨0, 0⟩, ⟨0, 0⟩⟩ {}
      ⟨twiceDeclared, []⟩ rfl).2

end Uplift.Session
