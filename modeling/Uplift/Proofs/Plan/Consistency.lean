import Uplift.Proofs.Plan.Approval

/-!
# What a plan says agrees with itself

A plan holds what it says several times over: as the list of its packages, as the counts, as what
is found under a name, and as what is approved and held back.  The parts look at different fields of
the packages: the counts at the latest version and the class, what is approved at the class, the
mark for breaking upgrades and the latest version.  They agree since a package that can be upgraded
has a latest version (`exists_latest_of_isUpgradable`) and is marked exactly if its upgrade is
breaking (`breaking_of_mem`).

So a plan describes the tables it was made from (`describes_compute`), and what it approves and what
it holds back are together the upgrades it knows, each once (`divides_compute`).
-/

set_option autoImplicit false

namespace Uplift

namespace Plan

variable {installed : Table String} {latest : Table (Option String)} {flags : Table Bool}

/-! ## Packages and counts -/

/-- A plan describes the tables of installed and latest versions and of the authors' flags: it has
one package for each installed one, by ascending name, each in one of four classes; the counts are
those of the classes, and a name finds its package. -/
structure Describes (plan : Plan) (installed : Table String) (latest : Table (Option String))
    (flags : Table Bool) : Prop where
  names : plan.packages.map PackageStatus.name = installed.names
  ascending : plan.packages.Pairwise fun early late => early.name < late.name
  current : ∀ status ∈ plan.packages, installed.get? status.name = some status.current
  /-- A latest version that is not in the table is as unknown as one that could not be found. -/
  latest : ∀ status ∈ plan.packages, status.latest = (latest.get? status.name).join
  classified : ∀ status ∈ plan.packages, status.classification =
    status.latest.elim .upToDate fun target =>
      Classification.ofTexts status.current target (flags.get? status.name)
  marked : ∀ status ∈ plan.packages,
    status.breaking = true ↔ status.classification = .breaking
  counted : plan.counts.upToDate + plan.counts.nonBreaking + plan.counts.breaking +
    plan.counts.unresolved = plan.packages.length
  unresolved : plan.counts.unresolved =
    plan.packages.countP fun status => status.latest.isNone
  upToDate : plan.counts.upToDate = plan.packages.countP fun status =>
    status.latest.isSome && status.classification = .upToDate
  nonBreaking : plan.counts.nonBreaking = plan.packages.countP fun status =>
    status.latest.isSome && status.classification = .nonBreaking
  breaking : plan.counts.breaking = plan.packages.countP fun status =>
    status.latest.isSome && status.classification = .breaking
  found : ∀ name status,
    plan.get? name = some status ↔ status ∈ plan.packages ∧ status.name = name
  absent : ∀ name, plan.get? name = none ↔ installed.get? name = none

/-- Each count of a plan is the number of packages in its class. -/
theorem counted_compute (kind : Option Classification) :
    (compute installed latest flags).counts.counted kind =
      (compute installed latest flags).packages.countP fun status => status.countedAs = kind := by
  rw [counts_compute, PlanCounts.counted_foldl_add]
  rcases kind with _ | _ | _ | _ <;> exact Nat.zero_add _

theorem total_compute : (compute installed latest flags).counts.total =
    (compute installed latest flags).packages.length := by
  rw [counts_compute, PlanCounts.total_foldl_add]
  exact Nat.zero_add _

theorem countedAs_eq_some_iff {status : PackageStatus} {kind : Classification} :
    status.countedAs = some kind ↔
      (status.latest.isSome && status.classification = kind) = true := by
  rw [PackageStatus.countedAs]
  cases status.latest <;> simp

/-- The packages in a class are those with a latest version and that classification. -/
theorem counted_compute_some (kind : Classification) :
    (compute installed latest flags).counts.counted (some kind) =
      (compute installed latest flags).packages.countP fun status =>
        status.latest.isSome && status.classification = kind := by
  rw [counted_compute]
  refine List.countP_congr fun status _ => ?_
  rw [decide_eq_true_eq, countedAs_eq_some_iff]

theorem counted_compute_none : (compute installed latest flags).counts.unresolved =
    (compute installed latest flags).packages.countP fun status => status.latest.isNone := by
  refine (counted_compute none).trans (List.countP_congr fun status _ => ?_)
  rw [decide_eq_true_eq, PackageStatus.countedAs, Option.map_eq_none_iff, Option.isNone_iff_eq_none]

/-- No package of a plan has the name of a package that is not installed. -/
theorem get?_compute_eq_none_iff {name : String} :
    (compute installed latest flags).get? name = none ↔ installed.get? name = none := by
  rw [← not_iff_not, ← ne_eq, ← ne_eq, Option.ne_none_iff_exists', Option.ne_none_iff_exists',
    ← Table.mem_names_iff, ← map_name_compute installed latest flags, List.mem_map]
  exact exists_congr fun status => get?_eq_some_iff ascending_compute

/-- **A plan describes the tables it is made from.** -/
theorem describes_compute (installed : Table String) (latest : Table (Option String))
    (flags : Table Bool) :
    (compute installed latest flags).Describes installed latest flags where
  names := map_name_compute installed latest flags
  ascending := ascending_compute
  current := fun status member => by
    obtain ⟨current, present, equal⟩ := mem_packages_compute.1 member
    rw [present, equal]
    rfl
  latest := fun status member => by
    obtain ⟨current, _, equal⟩ := mem_packages_compute.1 member
    rw [equal]
    rfl
  classified := fun status member => by
    obtain ⟨current, _, equal⟩ := mem_packages_compute.1 member
    rw [equal, statusOf]
    cases (latest.get? status.name).join <;> rfl
  marked := fun status member => by
    rw [breaking_of_mem member, decide_eq_true_eq]
  counted := total_compute
  unresolved := counted_compute_none
  upToDate := counted_compute_some .upToDate
  nonBreaking := counted_compute_some .nonBreaking
  breaking := counted_compute_some .breaking
  found := fun _ _ => get?_eq_some_iff ascending_compute
  absent := fun _ => get?_compute_eq_none_iff

/-! ## What is approved and what is held back -/

/-- A plan divides the upgrades it knows: with permission for breaking ones all of them are
approved, each with the latest version; without it those that are not breaking are approved, and the
others are held back. -/
structure Divides (plan : Plan) : Prop where
  all : (plan.approved true).names = plan.upgradable.map PackageStatus.name
  target : ∀ name target, (plan.approved true).get? name = some target ↔
    ∃ status ∈ plan.upgradable, status.name = name ∧ status.latest = some target
  restricted : plan.approved false = (plan.approved true).filter fun name _ =>
    (plan.get? name).any fun status => status.classification = .nonBreaking
  divided : ∀ allowBreaking, ((plan.approved allowBreaking).names ++
    plan.heldBack allowBreaking).Perm (plan.upgradable.map PackageStatus.name)
  once : ∀ allowBreaking, ((plan.approved allowBreaking).names ++
    plan.heldBack allowBreaking).Nodup
  /-- With permission nothing is held back. -/
  nothing : plan.heldBack true = []

theorem mem_upgradable {plan : Plan} {status : PackageStatus} :
    status ∈ plan.upgradable ↔
      status ∈ plan.packages ∧ status.classification ≠ .upToDate := by
  rw [upgradable, List.mem_filter, PackageStatus.isUpgradable, Classification.isUpgradable,
    decide_eq_true_eq]

theorem ascending_upgradable : (compute installed latest flags).upgradable.Pairwise
    fun early late => early.name < late.name :=
  ascending_compute.filter _

/-- A name has one package. -/
theorem eq_of_name_eq {first second : PackageStatus}
    (member : first ∈ (compute installed latest flags).packages)
    (member' : second ∈ (compute installed latest flags).packages)
    (same : first.name = second.name) : first = second := by
  have found := (get?_eq_some_iff ascending_compute).2 ⟨member, same⟩
  have found' := (get?_eq_some_iff ascending_compute).2 ⟨member', rfl⟩
  exact Option.some.inj (found.symm.trans found')

/-- **What is approved for a name** is the latest version of its package, if it has an upgrade that
is allowed. -/
theorem get?_approved {allowBreaking : Bool} {name target : String} :
    ((compute installed latest flags).approved allowBreaking).get? name = some target ↔
      ∃ status ∈ (compute installed latest flags).upgradable,
        (allowBreaking || !status.breaking) = true ∧ status.name = name ∧
          status.latest = some target := by
  refine Iff.trans (Table.get?_ofList_eq_some_iff fun first second isFirst isSecond => ?_)
    mem_targets_iff
  obtain ⟨one, oneMember, _, oneName, oneTarget⟩ := mem_targets_iff.1 isFirst
  obtain ⟨other, otherMember, _, otherName, otherTarget⟩ := mem_targets_iff.1 isSecond
  have same := eq_of_name_eq (mem_upgradable.1 oneMember).1 (mem_upgradable.1 otherMember).1
    (oneName.trans otherName.symm)
  rw [same, otherTarget] at oneTarget
  exact (Option.some.inj oneTarget).symm

/-- The names that are approved are those of the packages whose upgrade is allowed. -/
theorem names_approved (allowBreaking : Bool) :
    ((compute installed latest flags).approved allowBreaking).names =
      ((compute installed latest flags).upgradable.filter fun status =>
        allowBreaking || !status.breaking).map PackageStatus.name := by
  refine (Table.pairwise_names _).eq_of_mem_iff
    (List.pairwise_map.2 (ascending_upgradable.filter _)) fun name => ?_
  rw [Table.mem_names_iff, List.mem_map]
  simp only [get?_approved, List.mem_filter]
  constructor
  · rintro ⟨_, status, member, allowed, named, _⟩
    exact ⟨status, ⟨member, allowed⟩, named⟩
  · rintro ⟨status, ⟨member, allowed⟩, named⟩
    obtain ⟨listed, upgrade⟩ := List.mem_filter.1 member
    obtain ⟨target, known⟩ := exists_latest_of_isUpgradable listed upgrade
    exact ⟨target, status, member, allowed, named, known⟩

/-- **What is approved and what is held back are together the upgrades**, whether breaking ones are
allowed or not. -/
theorem divided_compute (allowBreaking : Bool) :
    (((compute installed latest flags).approved allowBreaking).names ++
        (compute installed latest flags).heldBack allowBreaking).Perm
      ((compute installed latest flags).upgradable.map PackageStatus.name) := by
  have others : (fun status : PackageStatus => status.breaking && !allowBreaking) =
      fun status => !(allowBreaking || !status.breaking) := by
    funext status
    cases allowBreaking <;> cases status.breaking <;> rfl
  rw [names_approved, heldBack, others, ← List.map_append]
  exact (List.filter_append_perm _ _).map _

/-- An upgrade is not breaking if and only if it is allowed without permission. -/
theorem nonBreaking_iff {status : PackageStatus}
    (member : status ∈ (compute installed latest flags).upgradable) :
    status.classification = .nonBreaking ↔ (false || !status.breaking) = true := by
  obtain ⟨listed, upgrade⟩ := mem_upgradable.1 member
  rw [breaking_of_mem listed]
  cases kind : status.classification with
  | upToDate => exact absurd kind upgrade
  | nonBreaking => simp
  | breaking => simp

/-- **What is approved without permission is a part of what is approved with it**: that of the
packages whose upgrade is not breaking. -/
theorem approved_false_eq_filter :
    (compute installed latest flags).approved false =
      ((compute installed latest flags).approved true).filter fun name _ =>
        ((compute installed latest flags).get? name).any fun status =>
          status.classification = .nonBreaking := by
  refine Table.ext_get? fun name => Option.ext fun target => ?_
  rw [Table.get?_filter, Option.ite_none_right_eq_some, get?_approved, get?_approved,
    Option.any_eq_true]
  simp only [get?_eq_some_iff ascending_compute, decide_eq_true_eq]
  constructor
  · rintro ⟨status, member, allowed, named, known⟩
    exact ⟨⟨status, ⟨(mem_upgradable.1 member).1, named⟩, (nonBreaking_iff member).2 allowed⟩,
      status, member, rfl, named, known⟩
  · rintro ⟨⟨status, ⟨listed, named⟩, safe⟩, other, member, _, named', known⟩
    cases eq_of_name_eq listed (mem_upgradable.1 member).1 (named.trans named'.symm)
    exact ⟨status, member, (nonBreaking_iff member).1 safe, named, known⟩

/-- **A plan divides its upgrades into what is approved and what is held back.** -/
theorem divides_compute (installed : Table String) (latest : Table (Option String))
    (flags : Table Bool) : (compute installed latest flags).Divides where
  all := by
    rw [names_approved, List.filter_eq_self.2 fun status _ => Bool.true_or _]
  target := fun name target => by
    simp only [get?_approved, Bool.true_or, true_and]
  restricted := approved_false_eq_filter
  divided := divided_compute
  once := fun allowBreaking => by
    have distinct : ((compute installed latest flags).upgradable.map PackageStatus.name).Nodup :=
      (List.pairwise_map.2 ascending_upgradable).imp ne_of_lt
    exact (divided_compute allowBreaking).nodup_iff.2 distinct
  nothing := by
    rw [heldBack, List.filter_eq_nil_iff.2 fun status _ => by simp, List.map_nil]

end Plan

end Uplift
