import Uplift.Proofs.Plan.Consistency
import Uplift.Proofs.Session.Changes

/-!
# The plan of a run

A run that applies upgrades makes its plan from the versions that the scan found, the answers of the
registry and the authors' flags.  What it approves and what it holds back it takes from this plan,
one after the other, so that together they are the upgrades of the plan (`planned_of_application`).
-/

set_option autoImplicit false

namespace Uplift.Session

/-- What a successful run returns of its plan: the plan is made from the scan, and its upgrades are
divided into those that are approved and those that are held back. -/
structure Planned (session : Session) (files : FileTree) (options : ApplyOptions)
    (application : Application) : Prop where
  made : ∃ scan latest,
    Workspace.scan files session.root ⟨session.config.scopes⟩ = .ok scan ∧
      latest = Registry.latestVersions session.registry scan.installed.names
        (session.config.registryTimeoutSecs * 1000) ∧
      application.plan =
        Plan.compute scan.installed latest (session.breakingFlags files latest)
  approved : application.approved = application.plan.approved options.allowBreaking
  heldBack : application.heldBack = (application.plan.upgradable.filter fun status =>
    status.breaking && !options.allowBreaking).map PackageStatus.name
  divided : (application.approved.names ++ application.heldBack).Perm
    (application.plan.upgradable.map PackageStatus.name)
  once : (application.approved.names ++ application.heldBack).Nodup

/-- **A successful run divides the upgrades of the plan that it made.** -/
theorem planned_of_application {session : Session} {times : Times} {flags : RunFlags}
    {options : ApplyOptions} {world : Workspace.World} {application : Application}
    (done : (session.apply times flags options world).1.result = .ok application) :
    Planned session world.files options application := by
  obtain ⟨survey, surveyed, plan, approved, heldBack, _⟩ := survey_of_application done
  obtain ⟨scanned, latest, isLatest, made⟩ := survey_eq_ok surveyed
  have divides := Plan.divides_compute survey.scan.installed latest
    (session.breakingFlags world.files latest)
  rw [← made] at divides
  refine ⟨⟨survey.scan, latest, scanned, isLatest, plan.trans made⟩, ?_, ?_, ?_, ?_⟩
  · rw [approved, plan]
  · rw [heldBack, plan]
    rfl
  · rw [approved, heldBack, plan]
    exact divides.divided options.allowBreaking
  · rw [approved, heldBack]
    exact divides.once options.allowBreaking

/-- **Plans are consistent.**

For all tables of installed and latest versions and of flags, the plan made from them has one
package for each installed one, by ascending name; its four counts are those of the packages without
a latest version and of the three classes of the others, and add up to the number of packages; a
name finds its package, and none if it is not installed; and the upgrades of the plan are divided
into what is approved and what is held back.  A run that applies upgrades divides those of its own
plan in this way. -/
theorem plans_consistent :
    (∀ installed latest flags,
      (Plan.compute installed latest flags).Describes installed latest flags ∧
        (Plan.compute installed latest flags).Divides) ∧
    ∀ (session : Session) times flags options (world : Workspace.World) application,
      (session.apply times flags options world).1.result = .ok application →
        Planned session world.files options application :=
  ⟨fun installed latest flags => ⟨Plan.describes_compute installed latest flags,
      Plan.divides_compute installed latest flags⟩,
    fun _ _ _ _ _ _ done => planned_of_application done⟩

/-! ## A run that holds an upgrade back -/

/-- A manifest that declares three packages. -/
def threeDeclared : FileTree :=
  .directory [("package.json", .file (Text.encode
    ("\x7b\"dependencies\": \x7b\"a\": \"1.0.0\", \"b\": \"1.0.0\", \"c\": \"1.0.0\"\x7d\x7d"))
    false)]

/-- A session whose registry knows a later version of the first package on its line, a later major
version of the second, and nothing of the third. -/
def mixedSession : Session :=
  { oneVersionSession "1.1.0" with
    registry := fun name =>
      if name = "a" then .atOnce (.ok "1.1.0")
      else if name = "b" then .atOnce (.ok "2.0.0")
      else .atOnce (.error (.network "")) }

/-- A run of the session without permission for breaking upgrades. -/
def mixedResult : Except Failure Application :=
  (mixedSession.apply ⟨⟨0, 0⟩, ⟨0, 0⟩⟩ {} ⟨false, false, false⟩ ⟨threeDeclared, []⟩).1.result

theorem plans_consistent_mixedSession :
    ∃ application, mixedResult = .ok application ∧
      application.plan.counts = ⟨0, 1, 1, 1⟩ ∧
      application.approved.entries = [("a", "1.1.0")] ∧ application.heldBack = ["b"] ∧
      Planned mixedSession threeDeclared ⟨false, false, false⟩ application := by
  have told : mixedResult.toOption.map (fun application => (application.plan.counts,
      application.approved.entries, application.heldBack)) =
        some (⟨0, 1, 1, 1⟩, [("a", "1.1.0")], ["b"]) := by
    decide +kernel
  cases result : mixedResult with
  | error failure =>
      rw [result] at told
      cases told
  | ok application =>
      rw [result] at told
      obtain ⟨counts, rest⟩ := Prod.mk.inj (Option.some.inj told)
      obtain ⟨approved, heldBack⟩ := Prod.mk.inj rest
      exact ⟨application, rfl, counts, approved, heldBack,
        plans_consistent.2 mixedSession ⟨⟨0, 0⟩, ⟨0, 0⟩⟩ {} ⟨false, false, false⟩
          ⟨threeDeclared, []⟩ application result⟩

end Uplift.Session
