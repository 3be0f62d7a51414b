import Uplift.Proofs.Plan.Computing
import Uplift.Proofs.Version.Order

/-!
# What a plan approves

A step from one version to a later one is non-breaking if the authors say so or, where they say
nothing, if both versions are on one line: they have the same major number and, while that is zero,
the same minor number (`ofVersions_eq_nonBreaking_iff`).  Without permission for breaking upgrades a
plan approves exactly non-breaking steps from the installed version of a package
(`nonBreaking_of_mem_approved`).

A step to the same target from another version, say from one declared elsewhere, need not be
non-breaking: it is exactly if that version comes before the target and, where the authors say
nothing, is on the line of the installed version (`nonBreaking_iff_of_nonBreaking`).  Versions from
the installed one up to the target always are (`sameLine_of_between`).
-/

set_option autoImplicit false

namespace Uplift

/-- Versions between which the numbers show no breaking step. -/
def Version.SameLine (first second : Version) : Prop :=
  first.major = second.major ∧ (first.major = 0 → first.minor = second.minor)

instance (first second : Version) : Decidable (first.SameLine second) :=
  inferInstanceAs (Decidable (_ ∧ _))

theorem Version.SameLine.symm {first second : Version} (line : first.SameLine second) :
    second.SameLine first :=
  ⟨line.1.symm, fun zero => (line.2 (line.1.trans zero)).symm⟩

theorem Version.SameLine.trans {first second third : Version} (line : first.SameLine second)
    (next : second.SameLine third) : first.SameLine third :=
  ⟨line.1.trans next.1, fun zero => (line.2 zero).trans (next.2 (line.1 ▸ zero))⟩

namespace Classification

/-! ## Steps between versions -/

/-- A step forward stays on its line if the numbers cross no boundary. -/
theorem crossesBoundary_eq_false_iff {current latest : Version}
    (before : current.before latest = true) :
    crossesBoundary current latest = false ↔ current.SameLine latest := by
  obtain ⟨major, minor⟩ := Version.numbers_of_before before
  simp only [crossesBoundary, Version.SameLine, Bool.or_eq_false_iff, Bool.and_eq_false_iff,
    decide_eq_false_iff_not]
  omega

theorem ofVersions_eq_nonBreaking_iff {current latest : Version} {flag : Option Bool} :
    ofVersions current latest flag = .nonBreaking ↔
      current.before latest = true ∧
        (flag = some false ∨ flag = none ∧ current.SameLine latest) := by
  rw [ofVersions, Version.before_eq_not_upTo]
  cases upTo : latest.upTo current with
  | true => simp
  | false =>
      have before : current.before latest = true := by
        rw [Version.before_eq_not_upTo, upTo]
        rfl
      cases flag with
      | none =>
          rw [← crossesBoundary_eq_false_iff before]
          cases crossesBoundary current latest <;> simp
      | some breaking => cases breaking <;> simp

/-- A version from the start of a non-breaking step up to its target is on the line of both. -/
theorem sameLine_of_between {installed declared target : Version}
    (line : installed.SameLine target) (below : declared.before installed = false)
    (above : declared.before target = true) : declared.SameLine installed := by
  have upTo : installed.before declared = true ∨ Version.compare installed declared = .eq := by
    rw [Version.before, Version.compare_swap] at below
    rw [Version.before]
    cases order : Version.compare installed declared <;> simp_all
  have numbers := Version.numbers_of_before above
  obtain ⟨major, minor⟩ := line
  rcases upTo with before | equal
  · have lower := Version.numbers_of_before before
    constructor <;> omega
  · simp only [Version.compare, Ordering.then_eq_eq, Nat.compare_eq_eq] at equal
    constructor <;> omega

/-- **Another version on the way to an approved target.**  If the step from the installed version is
non-breaking, then the step from another one is non-breaking exactly if that version comes before
the target and, unless the authors have spoken, is on the line of the installed version. -/
theorem nonBreaking_iff_of_nonBreaking {installed declared target : Version} {flag : Option Bool}
    (safe : ofVersions installed target flag = .nonBreaking) :
    ofVersions declared target flag = .nonBreaking ↔
      declared.before target = true ∧ (flag.isSome = true ∨ declared.SameLine installed) := by
  obtain ⟨_, rfl | ⟨rfl, line⟩⟩ := ofVersions_eq_nonBreaking_iff.1 safe
  · simp [ofVersions_eq_nonBreaking_iff]
  · rw [ofVersions_eq_nonBreaking_iff]
    refine and_congr_right fun _ => ?_
    simp only [reduceCtorEq, false_or, true_and, Option.isSome_none, Bool.false_eq_true]
    exact ⟨fun ahead => ahead.trans line.symm, fun behind => behind.trans line⟩

/-- Two texts make a non-breaking step if they are versions that do. -/
theorem ofTexts_eq_nonBreaking_iff {current latest : String} {flag : Option Bool} :
    ofTexts current latest flag = .nonBreaking ↔
      ∃ first second, Version.parseLoose? current = some first ∧
        Version.parseLoose? latest = some second ∧
        ofVersions first second flag = .nonBreaking := by
  rw [ofTexts]
  cases Version.parseLoose? current with
  | none => simp
  | some first =>
      cases Version.parseLoose? latest with
      | none => simp
      | some second => simp

end Classification

/-! ## Approved upgrades -/

namespace Plan

/-- The targets of a plan are the latest versions of the packages whose upgrade is allowed. -/
theorem mem_targets_iff {plan : Plan} {allowBreaking : Bool} {name target : String} :
    (name, target) ∈ ((plan.upgradable.filter fun status =>
        allowBreaking || !status.breaking).filterMap fun status =>
          status.latest.map fun latest => (status.name, latest)) ↔
      ∃ status ∈ plan.upgradable, (allowBreaking || !status.breaking) = true ∧
        status.name = name ∧ status.latest = some target := by
  simp only [List.mem_filterMap, List.mem_filter, Option.map_eq_some_iff, Prod.mk.injEq]
  constructor
  · rintro ⟨status, ⟨upgradable, allowed⟩, latest, known, named, rfl⟩
    exact ⟨status, upgradable, allowed, named, known⟩
  · rintro ⟨status, upgradable, allowed, named, known⟩
    exact ⟨status, ⟨upgradable, allowed⟩, target, known, named, rfl⟩

/-- What is approved is an upgrade of a package of the plan, and one that is allowed. -/
theorem status_of_mem_approved {plan : Plan} {allowBreaking : Bool} {name target : String}
    (member : (name, target) ∈ (plan.approved allowBreaking).entries) :
    ∃ status ∈ plan.packages, status.name = name ∧ status.latest = some target ∧
      status.isUpgradable = true ∧ (allowBreaking || !status.breaking) = true := by
  have found := Table.mem_of_get?_ofList (Table.get?_eq_some_iff.2 member)
  obtain ⟨status, upgradable, allowed, named, known⟩ := mem_targets_iff.1 found
  obtain ⟨listed, upgrade⟩ := List.mem_filter.1 upgradable
  exact ⟨status, listed, named, known, upgrade, allowed⟩

variable {installed : Table String} {latest : Table (Option String)} {flags : Table Bool}

/-- What is approved is an accepted version of an installed package. -/
theorem accepted_of_mem_approved {allowBreaking : Bool} {name target : String}
    (member : (name, target) ∈ ((compute installed latest flags).approved allowBreaking).entries) :
    (∃ current, installed.get? name = some current) ∧
      ∃ version, Version.parseLoose? target = some version := by
  obtain ⟨status, listed, rfl, found, upgrade, _⟩ := status_of_mem_approved member
  obtain ⟨current, present, equal⟩ := mem_packages_compute.1 listed
  refine ⟨⟨current, present⟩, ?_⟩
  rw [equal] at found upgrade
  change (latest.get? status.name).join = some target at found
  have compared :
      Classification.ofTexts current target (flags.get? status.name) ≠ .upToDate := by
    simpa [PackageStatus.isUpgradable, Classification.isUpgradable, statusOf, found] using upgrade
  rw [Classification.ofTexts] at compared
  split at compared
  next version _ reads => exact ⟨_, reads⟩
  next => exact absurd rfl compared

/-- **What is approved without permission for breaking upgrades is a non-breaking step from the
installed version to the latest one.** -/
theorem nonBreaking_of_mem_approved {name target : String}
    (member : (name, target) ∈ ((compute installed latest flags).approved false).entries) :
    ∃ current, installed.get? name = some current ∧ latest.get? name = some (some target) ∧
      Classification.ofTexts current target (flags.get? name) = .nonBreaking := by
  obtain ⟨status, listed, rfl, found, upgrade, allowed⟩ := status_of_mem_approved member
  rw [breaking_of_mem listed] at allowed
  obtain ⟨current, present, equal⟩ := mem_packages_compute.1 listed
  rw [equal] at found upgrade allowed
  change (latest.get? status.name).join = some target at found
  have known : latest.get? status.name = some (some target) := Option.join_eq_some_iff.1 found
  refine ⟨current, present, known, ?_⟩
  simp only [statusOf, PackageStatus.isUpgradable, Classification.isUpgradable, known,
    Option.join_some] at upgrade allowed
  cases kind : Classification.ofTexts current target (flags.get? status.name) with
  | upToDate => simp [kind] at upgrade
  | nonBreaking => rfl
  | breaking => simp [kind] at allowed

end Plan

end Uplift
