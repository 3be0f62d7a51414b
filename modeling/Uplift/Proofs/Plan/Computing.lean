import Uplift.Plan
import Uplift.Proofs.Table

/-!
# How a plan is put together

A plan takes one installed package after another, in ascending order of the names, adds what it says
of it at the end and counts it in one of four classes.  So it has one status for each installed
package (`packages_compute`), and each count is the number of packages in its class
(`counted_foldl_add`, `total_foldl_add`).

A package is looked up by halving the places at which its name can be.  As the names ascend, the
place that remains is that of the name, if it has one (`narrow_eq`), so looking up a name finds its
package (`get?_eq_some_iff`).
-/

set_option autoImplicit false

namespace Uplift

/-! ## Counting -/

/-- The class in which a package is counted; none if no latest version is known. -/
def PackageStatus.countedAs (status : PackageStatus) : Option Classification :=
  status.latest.map fun _ => status.classification

namespace PlanCounts

/-- The count of a class. -/
def counted (counts : PlanCounts) : Option Classification → Nat
  | none => counts.unresolved
  | some .upToDate => counts.upToDate
  | some .nonBreaking => counts.nonBreaking
  | some .breaking => counts.breaking

/-- All packages that are counted. -/
def total (counts : PlanCounts) : Nat :=
  counts.upToDate + counts.nonBreaking + counts.breaking + counts.unresolved

theorem counted_add (counts : PlanCounts) (status : PackageStatus)
    (kind : Option Classification) :
    (counts.add status).counted kind =
      counts.counted kind + if status.countedAs = kind then 1 else 0 := by
  rw [add, PackageStatus.countedAs]
  cases status.latest with
  | none => rcases kind with _ | _ | _ | _ <;> rfl
  | some latest =>
      cases status.classification <;> rcases kind with _ | _ | _ | _ <;> rfl

theorem total_add (counts : PlanCounts) (status : PackageStatus) :
    (counts.add status).total = counts.total + 1 := by
  rw [add]
  cases status.latest with
  | none => rfl
  | some latest => cases status.classification <;> simp only [total] <;> omega

/-- **Each count is the number of packages in its class.** -/
theorem counted_foldl_add (statuses : List PackageStatus) (counts : PlanCounts)
    (kind : Option Classification) :
    (statuses.foldl add counts).counted kind =
      counts.counted kind + statuses.countP fun status => status.countedAs = kind := by
  induction statuses generalizing counts with
  | nil => rfl
  | cons status rest ih =>
      rw [List.foldl_cons, ih, counted_add, List.countP_cons]
      by_cases same : status.countedAs = kind
      · simp only [same, if_true, decide_true]
        omega
      · simp [same]

/-- **Every package is counted once.** -/
theorem total_foldl_add (statuses : List PackageStatus) (counts : PlanCounts) :
    (statuses.foldl add counts).total = counts.total + statuses.length := by
  induction statuses generalizing counts with
  | nil => rfl
  | cons status rest ih =>
      rw [List.foldl_cons, ih, total_add, List.length_cons]
      omega

end PlanCounts

namespace Plan

/-! ## The packages of a plan -/

theorem packages_foldl_add (statuses : List PackageStatus) (plan : Plan) :
    (statuses.foldl add plan).packages = plan.packages ++ statuses := by
  induction statuses generalizing plan with
  | nil => rw [List.foldl_nil, List.append_nil]
  | cons status rest ih =>
      rw [List.foldl_cons, ih, add, List.append_assoc, List.singleton_append]

theorem counts_foldl_add (statuses : List PackageStatus) (plan : Plan) :
    (statuses.foldl add plan).counts = statuses.foldl PlanCounts.add plan.counts :=
  (List.foldl_hom counts fun _ _ => rfl).symm

variable {installed : Table String} {latest : Table (Option String)} {flags : Table Bool}

theorem compute_eq : compute installed latest flags =
    (installed.entries.map fun entry => statusOf latest flags entry.1 entry.2).foldl add empty := by
  rw [compute, List.foldl_map]

/-- **A plan has one status for each installed package**, in the order of the names. -/
theorem packages_compute : (compute installed latest flags).packages =
    installed.entries.map fun entry => statusOf latest flags entry.1 entry.2 := by
  rw [compute_eq, packages_foldl_add]
  rfl

theorem counts_compute : (compute installed latest flags).counts =
    (compute installed latest flags).packages.foldl PlanCounts.add .zero := by
  rw [compute_eq, counts_foldl_add, packages_foldl_add]
  rfl

/-- What a plan says of a package is made from its versions and its flag. -/
theorem mem_packages_compute {status : PackageStatus} :
    status ∈ (compute installed latest flags).packages ↔
      ∃ current, installed.get? status.name = some current ∧
        status = statusOf latest flags status.name current := by
  rw [packages_compute, List.mem_map]
  constructor
  · rintro ⟨⟨name, current⟩, entry, rfl⟩
    exact ⟨current, Table.get?_eq_some_iff.2 entry, rfl⟩
  · rintro ⟨current, found, equal⟩
    exact ⟨(status.name, current), Table.get?_eq_some_iff.1 found, equal.symm⟩

/-- A package is marked as breaking exactly if its upgrade is. -/
theorem breaking_of_mem {status : PackageStatus}
    (member : status ∈ (compute installed latest flags).packages) :
    status.breaking = decide (status.classification = .breaking) := by
  obtain ⟨current, _, equal⟩ := mem_packages_compute.1 member
  rw [equal]
  rfl

/-- A package that can be upgraded has a known latest version. -/
theorem exists_latest_of_isUpgradable {status : PackageStatus}
    (member : status ∈ (compute installed latest flags).packages)
    (upgradable : status.isUpgradable = true) : ∃ target, status.latest = some target := by
  obtain ⟨current, _, equal⟩ := mem_packages_compute.1 member
  cases known : status.latest with
  | some target => exact ⟨target, rfl⟩
  | none =>
      rw [equal] at known upgradable
      change (latest.get? status.name).join = none at known
      simp [PackageStatus.isUpgradable, statusOf, known, Classification.isUpgradable] at upgradable

variable (installed latest flags) in
theorem map_name_compute :
    (compute installed latest flags).packages.map PackageStatus.name = installed.names := by
  rw [packages_compute, List.map_map]
  rfl

theorem ascending_compute : (compute installed latest flags).packages.Pairwise
    fun early late => early.name < late.name := by
  have names := installed.pairwise_names
  rwa [← map_name_compute installed latest flags, List.pairwise_map] at names

/-! ## Looking up a package -/

/-- **Halving ends at the place of a name**, if that is among the places searched. -/
theorem narrow_eq {packages : List PackageStatus}
    (ascending : packages.Pairwise fun early late => early.name < late.name)
    {status : PackageStatus} {place start size : Nat} (there : packages[place]? = some status)
    (low : start ≤ place) (high : place < start + size) (inside : start + size ≤ packages.length) :
    narrow packages status.name start size = place := by
  fun_induction narrow packages status.name start size with
  | case1 start size single => omega
  | case2 start size several middle isBefore ih =>
      obtain ⟨bound, rfl⟩ := List.getElem?_eq_some_iff.1 there
      have middleBound : middle < packages.length := by omega
      have order := List.pairwise_iff_getElem.1 ascending
      have decides : isBefore = true ↔ place < middle := by
        simp only [isBefore, List.getElem?_eq_getElem middleBound, Option.any_some,
          decide_eq_true_eq]
        constructor
        · intro before
          by_contra late
          rcases Nat.lt_or_eq_of_le (Nat.le_of_not_lt late) with after | rfl
          · exact String.lt_asymm before (order middle place middleBound bound after)
          · exact String.lt_irrefl _ before
        · exact order place middle bound middleBound
      by_cases before : place < middle
      · rw [dif_pos (decides.2 before)] at ih
        rw [if_pos (decides.2 before)]
        exact ih low (by omega) (by omega)
      · rw [dif_neg fun found => before (decides.1 found)] at ih
        rw [if_neg fun found => before (decides.1 found)]
        exact ih (by omega) (by omega) (by omega)

/-- **Looking up a name finds its package**, in a plan whose names ascend. -/
theorem get?_eq_some_iff {plan : Plan}
    (ascending : plan.packages.Pairwise fun early late => early.name < late.name)
    {name : String} {status : PackageStatus} :
    plan.get? name = some status ↔ status ∈ plan.packages ∧ status.name = name := by
  rw [get?, Option.filter_eq_some_iff, decide_eq_true_eq]
  constructor
  · rintro ⟨found, named⟩
    exact ⟨List.mem_of_getElem? found, named⟩
  · rintro ⟨member, rfl⟩
    obtain ⟨place, there⟩ := List.getElem?_of_mem member
    obtain ⟨bound, _⟩ := List.getElem?_eq_some_iff.1 there
    rw [narrow_eq ascending there (Nat.zero_le place) (by omega) (by omega)]
    exact ⟨there, rfl⟩

end Plan

end Uplift
