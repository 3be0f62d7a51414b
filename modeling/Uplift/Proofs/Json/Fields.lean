import Uplift.Json.Value
import Uplift.Proofs.Table

/-!
# Fields with distinct keys

Where no key is given twice, the fields are known from the values of their keys and the order of
the keys, be that order the same (`ext_of_keys`) or the one in which names ascend
(`Ascending.ext`).
-/

set_option autoImplicit false

namespace Uplift.Json.Fields

theorem contains_iff {fields : Fields} {key : String} :
    fields.contains key = true ↔ key ∈ fields.map Prod.fst := by
  induction fields with
  | nil => simp [contains, get?]
  | cons field rest ih =>
      obtain ⟨name, value⟩ := field
      by_cases same : name = key
      · simp [contains, get?, same]
      · simp only [contains, get?, same, if_false, List.map_cons, List.mem_cons, Ne.symm same,
          false_or]
        exact ih

theorem get?_eq_some_iff_mem {fields : Fields} (distinct : (fields.map Prod.fst).Nodup)
    {key : String} {value : Value} :
    fields.get? key = some value ↔ (key, value) ∈ fields := by
  induction fields with
  | nil => simp [get?]
  | cons field rest ih =>
      obtain ⟨name, old⟩ := field
      obtain ⟨fresh, later⟩ := List.nodup_cons.1 distinct
      rw [get?, List.mem_cons, Prod.mk.injEq]
      by_cases same : name = key
      · subst same
        have absent : (name, value) ∉ rest := fun member =>
          fresh (List.mem_map.2 ⟨_, member, rfl⟩)
        simp [absent, eq_comm]
      · simp [same, Ne.symm same, ih later]

theorem get?_perm {first second : Fields} (distinct : (second.map Prod.fst).Nodup)
    (perm : first.Perm second) (key : String) : first.get? key = second.get? key := by
  have distinct' : (first.map Prod.fst).Nodup := (perm.map Prod.fst).nodup_iff.2 distinct
  refine Option.ext fun value => ?_
  rw [get?_eq_some_iff_mem distinct, get?_eq_some_iff_mem distinct', perm.mem_iff]

theorem get?_eq_none_iff {fields : Fields} {key : String} :
    fields.get? key = none ↔ key ∉ fields.map Prod.fst := by
  rw [← contains_iff, contains, Bool.not_eq_true, Option.isSome_eq_false_iff,
    Option.isNone_iff_eq_none]

/-- Fields in the same order are known from their values. -/
theorem ext_of_keys {first second : Fields} (keys : first.map Prod.fst = second.map Prod.fst)
    (distinct : (first.map Prod.fst).Nodup)
    (same : ∀ key, first.get? key = second.get? key) : first = second := by
  induction first generalizing second with
  | nil => exact (List.map_eq_nil_iff.1 keys.symm).symm
  | cons field rest ih =>
      cases second with
      | nil => cases keys
      | cons other later =>
          obtain ⟨name, value⟩ := field
          obtain ⟨name', value'⟩ := other
          obtain ⟨rfl, tails⟩ := List.cons.inj keys
          obtain ⟨fresh, distinct⟩ := List.nodup_cons.1 distinct
          have here := same name
          simp only [get?, if_pos] at here
          obtain rfl := Option.some.inj here
          refine congrArg _ (ih tails distinct fun key => ?_)
          by_cases gone : name = key
          · subst gone
            rw [get?_eq_none_iff.2 fresh, get?_eq_none_iff.2 (tails ▸ fresh)]
          · simpa [get?, gone] using same key

/-- The key that was removed is gone, and the others are as before. -/
theorem get?_erase (fields : Fields) (key other : String) :
    (fields.erase key).get? other = if other = key then none else fields.get? other := by
  induction fields with
  | nil => simp [erase, get?]
  | cons field rest ih =>
      obtain ⟨name, value⟩ := field
      rw [erase] at ih ⊢
      by_cases gone : name = key
      · subst gone
        rw [List.filter_cons_of_neg (by simp), ih, get?]
        by_cases same : name = other
        · simp [same]
        · simp [same]
      · rw [List.filter_cons_of_pos (by simpa using gone), get?, get?, ih]
        by_cases same : name = other
        · subst same
          simp [gone]
        · simp [same]

theorem nodup_erase {fields : Fields} (distinct : (fields.map Prod.fst).Nodup) (key : String) :
    ((fields.erase key).map Prod.fst).Nodup :=
  distinct.sublist (List.filter_sublist.map Prod.fst)

/-- The names of fields ascend. -/
def Ascending (fields : Fields) : Prop :=
  fields.Pairwise fun first second => first.1 < second.1

/-- Fields whose names ascend are known from their values. -/
theorem Ascending.ext {first second : Fields} (ascending : first.Ascending)
    (ascending' : second.Ascending) (same : ∀ key, first.get? key = second.get? key) :
    first = second := by
  have tables : (⟨first, ascending⟩ : Table Value) = ⟨second, ascending'⟩ := by
    refine Table.ext_get? fun key => Option.ext fun value => ?_
    rw [Table.get?_eq_some_iff, Table.get?_eq_some_iff]
    rw [← get?_eq_some_iff_mem, ← get?_eq_some_iff_mem, same]
    · exact ascending'.map _ fun _ _ before => String.ne_of_lt before
    · exact ascending.map _ fun _ _ before => String.ne_of_lt before
  exact congrArg Table.entries tables

end Uplift.Json.Fields
