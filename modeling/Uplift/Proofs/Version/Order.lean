import Mathlib.Data.List.Sort
import Mathlib.Data.List.TakeWhile
import Mathlib.Data.String.Basic
import Uplift.Version

/-!
# The order of versions

Versions compare part by part, identifiers through their keys.  Every part is compared by a total
order in which only equal things are equivalent, so the same holds of versions: the comparison is
transitive, exchanging the versions exchanges the answer (`compare_swap`), and versions that
compare as equal are equal (`eq_of_compare`).  What carries this is that different identifiers have
different keys (`identifierKey_injective`): the significant digits of a number and its length give
back the zeros before them.

The numbers come first in the comparison: a version before another has no greater major number,
and no greater minor number if the major numbers are equal (`numbers_of_before`).
-/

set_option autoImplicit false

namespace Uplift.Version

/-- Comparing a part of things is as good as comparing such parts. -/
theorem transCmp_part {α β : Type} {comparison : β → β → Ordering} [Std.TransCmp comparison]
    (part : α → β) : Std.TransCmp fun first second => comparison (part first) (part second) where
  eq_swap := Std.OrientedCmp.eq_swap
  isLE_trans := Std.TransCmp.isLE_trans

/-! ## Identifiers -/

theorem IdentifierKey.compare_eq : IdentifierKey.compare =
    compareLex (compareOn IdentifierKey.alphanumeric)
      (compareLex (compareOn IdentifierKey.significant)
        (compareLex (compareOn IdentifierKey.text) (compareOn IdentifierKey.length))) := by
  funext first second
  rfl

instance : Std.TransCmp IdentifierKey.compare := by
  rw [IdentifierKey.compare_eq]
  infer_instance

instance : Std.LawfulEqCmp IdentifierKey.compare where
  eq_of_compare := by
    intro first second equal
    simp only [IdentifierKey.compare, Ordering.then_eq_eq, Std.compare_eq_iff_eq] at equal
    obtain ⟨alphanumeric, significant, text, length⟩ := equal
    cases first
    cases second
    simp_all

/-- The zeros at the start of a text are known from its length and what is after them. -/
theorem eq_zeros_append (digits : List Char) :
    digits = List.replicate (digits.length - (digits.dropWhile (· = '0')).length) '0' ++
      digits.dropWhile (· = '0') := by
  have split := List.takeWhile_append_dropWhile (p := (· = '0')) (l := digits)
  have zeros : digits.takeWhile (· = '0') =
      List.replicate (digits.takeWhile (· = '0')).length '0' := by
    refine List.eq_replicate_length.2 ?_
    intro digit member
    simpa using List.mem_takeWhile_imp member
  have length := congrArg List.length split
  rw [List.length_append] at length
  conv => lhs; rw [← split, zeros]
  congr 2
  omega

/-- **Different identifiers have different keys.** -/
theorem identifierKey_injective : Function.Injective identifierKey := by
  intro first second equal
  rw [identifierKey, identifierKey] at equal
  split at equal <;> split at equal <;> simp only [IdentifierKey.mk.injEq] at equal
  · obtain ⟨_, _, significant, length⟩ := equal
    have same := String.ofList_injective significant
    rw [← String.toList_inj, eq_zeros_append first.toList, eq_zeros_append second.toList, same,
      length]
  · omega
  · omega
  · exact equal.2.2.1

instance : Std.TransCmp compareIdentifier :=
  transCmp_part identifierKey

instance : Std.LawfulEqCmp compareIdentifier where
  eq_of_compare := fun equal => identifierKey_injective (Std.LawfulEqCmp.eq_of_compare equal)

/-! ## Lists of identifiers -/

theorem compareLists_eq : compareLists = List.compareLex compareIdentifier := by
  funext first second
  induction first generalizing second with
  | nil => cases second <;> rfl
  | cons identifier first ih =>
      cases second with
      | nil => rfl
      | cons other second => rw [compareLists, List.compareLex_cons_cons, ih]

instance : Std.TransCmp compareLists := by
  rw [compareLists_eq]
  infer_instance

instance : Std.LawfulEqCmp compareLists := by
  rw [compareLists_eq]
  infer_instance

/-- Prerelease identifiers compare by whether there are any, and then as lists. -/
theorem comparePrerelease_eq : comparePrerelease =
    compareLex (compareOn fun identifiers : List String => identifiers.isEmpty.toNat)
      compareLists := by
  funext first second
  cases first <;> cases second <;> rfl

instance : Std.TransCmp comparePrerelease := by
  rw [comparePrerelease_eq]
  infer_instance

instance : Std.LawfulEqCmp comparePrerelease where
  eq_of_compare := by
    intro first second equal
    rw [comparePrerelease_eq, compareLex_eq_eq] at equal
    exact Std.LawfulEqCmp.eq_of_compare equal.2

/-! ## Versions -/

instance : Std.TransCmp fun first second : Version =>
    comparePrerelease first.prerelease second.prerelease :=
  transCmp_part Version.prerelease

instance : Std.TransCmp fun first second : Version => compareLists first.build second.build :=
  transCmp_part Version.build

theorem compare_eq : Version.compare =
    compareLex (compareOn Version.major)
      (compareLex (compareOn Version.minor)
        (compareLex (compareOn Version.patch)
          (compareLex (fun first second => comparePrerelease first.prerelease second.prerelease)
            fun first second => compareLists first.build second.build))) := by
  funext first second
  rfl

instance : Std.TransCmp Version.compare := by
  rw [compare_eq]
  infer_instance

/-- **Versions that compare as equal are equal**: the order leaves nothing out. -/
theorem eq_of_compare {first second : Version} (equal : Version.compare first second = .eq) :
    first = second := by
  simp only [Version.compare, Ordering.then_eq_eq, Std.LawfulEqCmp.compare_eq_iff_eq] at equal
  obtain ⟨major, minor, patch, prerelease, build⟩ := equal
  cases first
  cases second
  simp_all

instance : Std.LawfulEqCmp Version.compare where
  eq_of_compare := eq_of_compare

/-- **Exchanging two versions exchanges the answer of their comparison.** -/
theorem compare_swap (first second : Version) :
    Version.compare first second = (Version.compare second first).swap :=
  Std.OrientedCmp.eq_swap

theorem before_eq_not_upTo (first second : Version) :
    first.before second = !second.upTo first := by
  rw [before, upTo, compare_swap first second]
  cases Version.compare second first <;> rfl

theorem upTo_iff {first second : Version} :
    first.upTo second = true ↔ (Version.compare first second).isLE = true := by
  rw [upTo]
  cases Version.compare first second <;> decide

theorem before_iff {first second : Version} :
    first.before second = true ↔ Version.compare first second = .lt := by
  rw [before, beq_iff_eq]

theorem upTo_trans {first second third : Version} (early : first.upTo second = true)
    (late : second.upTo third = true) : first.upTo third = true := by
  rw [upTo_iff] at *
  exact Std.TransCmp.isLE_trans early late

theorem upTo_total (first second : Version) :
    (first.upTo second || second.upTo first) = true := by
  rw [upTo, upTo, compare_swap first second]
  cases Version.compare second first <;> rfl

theorem before_of_upTo_of_before {first second third : Version}
    (early : first.upTo second = true) (late : second.before third = true) :
    first.before third = true := by
  rw [upTo_iff] at early
  rw [before_iff] at *
  exact Std.TransCmp.lt_of_isLE_of_lt early late

theorem before_trans {first second third : Version} (early : first.before second = true)
    (late : second.before third = true) : first.before third = true := by
  rw [before_iff] at *
  exact Std.TransCmp.lt_trans early late

theorem not_before_self (version : Version) : version.before version = false := by
  have self : Version.compare version version = .eq := Std.ReflCmp.compare_self
  rw [before, self]
  rfl

theorem upTo_self (version : Version) : version.upTo version = true := by
  have self := not_before_self version
  rwa [before_eq_not_upTo, Bool.not_eq_false'] at self

/-- A version that comes up to another comes before it, or is that version. -/
theorem before_of_upTo {first second : Version} (upTo : first.upTo second = true)
    (different : first ≠ second) : first.before second = true := by
  rw [upTo_iff] at upTo
  rw [before_iff]
  cases order : Version.compare first second with
  | lt => rfl
  | eq => exact absurd (eq_of_compare order) different
  | gt =>
      rw [order] at upTo
      cases upTo

/-- The numbers of a version before another. -/
theorem numbers_of_before {first second : Version} (before : first.before second = true) :
    first.major ≤ second.major ∧ (first.major = second.major → first.minor ≤ second.minor) := by
  simp only [Version.before, Version.compare, beq_iff_eq, Ordering.then_eq_lt] at before
  rw [Nat.compare_eq_lt, Nat.compare_eq_lt, Nat.compare_eq_eq, Nat.compare_eq_eq] at before
  omega

end Uplift.Version
