import Mathlib.Data.List.Sort
import Mathlib.Data.String.Basic
import Uplift.Table

/-!
# Looking up tables

The names of a table ascend strictly, so a name has one entry and looking it up finds that entry
(`get?_eq_some_iff`), and a table is known from the values of the names (`ext_get?`).  In a table
made from a list the last entry of a name wins (`get?_ofList`), so where the list has one value for
each name that value is found (`get?_ofList_eq_some_iff`).

A loop that updates a table at the names of some items gives each name the value that the items of
that name make, in order (`get?_foldl_update`); one that only fills in absent names leaves each name
with the value of its first item (`get?_foldl_fill`).
-/

set_option autoImplicit false

namespace Uplift

namespace Table

variable {α : Type}

/-- **Looking up a name finds its entry.** -/
theorem get?_eq_some_iff {table : Table α} {name : String} {value : α} :
    table.get? name = some value ↔ (name, value) ∈ table.entries := by
  obtain ⟨entries, ascending⟩ := table
  change (entries.find? fun entry => entry.1 = name).map Prod.snd = some value ↔
    (name, value) ∈ entries
  induction entries with
  | nil => simp
  | cons entry rest ih =>
      obtain ⟨first, later⟩ := List.pairwise_cons.1 ascending
      by_cases same : entry.1 = name
      · rw [List.find?_cons_of_pos (by simpa using same), Option.map_some, Option.some.injEq,
          List.mem_cons]
        constructor
        · rintro rfl
          exact .inl (by rw [← same])
        · rintro (equal | member)
          · rw [← equal]
          · have := first _ member
            rw [same] at this
            exact absurd this (String.lt_irrefl name)
      · rw [List.find?_cons_of_neg (by simpa using same), ih later, List.mem_cons]
        refine ⟨.inr, fun either => either.resolve_left fun equal => same ?_⟩
        rw [← equal]

theorem find?_insertEntry (name other : String) (value : α) (entries : List (String × α)) :
    (insertEntry name value entries).find? (fun entry => entry.1 = other) =
      if name = other then some (name, value)
      else entries.find? fun entry => entry.1 = other := by
  induction entries with
  | nil => by_cases same : name = other <;> simp [insertEntry, same]
  | cons entry rest ih =>
      rw [insertEntry]
      by_cases same : name = other
      · subst same
        split
        · simp
        · split
          · simp
          · have different : entry.1 ≠ name := fun equal => by simp_all
            rw [List.find?_cons_of_neg (by simpa using different), ih, if_pos rfl, if_pos rfl]
      · split
        · simp [same]
        · split
          next equal =>
            have different : entry.1 ≠ other := fun equal' => same (equal.trans equal')
            simp [same, different]
          next =>
            rw [if_neg same] at ih
            by_cases here : entry.1 = other
            · subst here
              simp
            · simp [here, ih]

/-- The value that was set is found, and the others are as before. -/
theorem get?_insert (table : Table α) (name other : String) (value : α) :
    (table.insert name value).get? other =
      if name = other then some value else table.get? other := by
  rw [get?, insert, find?_insertEntry]
  by_cases same : name = other
  · rw [if_pos same, if_pos same, Option.map_some]
  · rw [if_neg same, if_neg same, get?]

theorem get?_foldl_insert (entries : List (String × α)) (table : Table α) (name : String) :
    (entries.foldl (fun table entry => table.insert entry.1 entry.2) table).get? name =
      ((entries.reverse.find? fun entry => entry.1 = name).map Prod.snd).or (table.get? name) := by
  induction entries generalizing table with
  | nil => rfl
  | cons entry rest ih =>
      rw [List.foldl_cons, ih, get?_insert, List.reverse_cons, List.find?_append]
      cases (rest.reverse.find? fun entry => entry.1 = name) with
      | some found => rfl
      | none =>
          by_cases same : entry.1 = name
          · simp [same]
          · simp [same]

/-- **The last entry of a name wins.** -/
theorem get?_ofList (entries : List (String × α)) (name : String) :
    (ofList entries).get? name =
      (entries.reverse.find? fun entry => entry.1 = name).map Prod.snd := by
  rw [ofList, get?_foldl_insert]
  cases (entries.reverse.find? fun entry => entry.1 = name) <;> rfl

/-- An entry of a table made from a list is an entry of the list. -/
theorem mem_of_get?_ofList {entries : List (String × α)} {name : String} {value : α}
    (found : (ofList entries).get? name = some value) : (name, value) ∈ entries := by
  rw [get?_ofList] at found
  obtain ⟨entry, finding, rfl⟩ := Option.map_eq_some_iff.1 found
  have same : entry.1 = name := by simpa using List.find?_some finding
  rw [← same]
  exact List.mem_reverse.1 (List.mem_of_find?_eq_some finding)

/-- In a list with one value for each name, that value is found. -/
theorem get?_ofList_eq_some_iff {entries : List (String × α)} {name : String} {value : α}
    (single : ∀ first second, (name, first) ∈ entries → (name, second) ∈ entries →
      first = second) :
    (ofList entries).get? name = some value ↔ (name, value) ∈ entries := by
  refine ⟨mem_of_get?_ofList, fun member => ?_⟩
  cases found : (ofList entries).get? name with
  | some other => rw [single other value (mem_of_get?_ofList found) member]
  | none =>
      rw [get?_ofList, Option.map_eq_none_iff, List.find?_eq_none] at found
      have := found (name, value) (List.mem_reverse.2 member)
      simp at this

/-! ## Loops over items with names -/

section Loops

variable {ι : Type}

theorem get?_update (table : Table α) (name other : String) (initial : α) (change : α → α) :
    (table.update name initial change).get? other =
      if name = other then some (change ((table.get? name).getD initial))
      else table.get? other :=
  get?_insert table name other _

/-- **The items of a name make its value**, in order and from the value it had. -/
theorem get?_foldl_update (nameOf : ι → String) (initial : α) (change : ι → α → α)
    (items : List ι) (table : Table α) (name : String) :
    (items.foldl (fun table item => table.update (nameOf item) initial (change item)) table).get?
        name =
      if items.filter (fun item => nameOf item = name) = [] then table.get? name
      else some ((items.filter fun item => nameOf item = name).foldl
        (fun value item => change item value) ((table.get? name).getD initial)) := by
  induction items generalizing table with
  | nil => rfl
  | cons item rest ih =>
      rw [List.foldl_cons, ih, get?_update]
      by_cases same : nameOf item = name
      · rw [if_pos same, List.filter_cons_of_pos (by simpa using same), same]
        split
        next none => rw [none]; rfl
        next => rfl
      · rw [if_neg same, List.filter_cons_of_neg (by simpa using same)]

/-- **The first item of a name decides its value**, if the name was absent. -/
theorem get?_foldl_fill (nameOf : ι → String) (value : ι → α) (items : List ι) (table : Table α)
    (name : String) :
    (items.foldl (fun table item =>
        if table.contains (nameOf item) then table
        else table.insert (nameOf item) (value item)) table).get? name =
      (table.get? name).or ((items.find? fun item => nameOf item = name).map value) := by
  induction items generalizing table with
  | nil => simp
  | cons item rest ih =>
      rw [List.foldl_cons, ih]
      by_cases same : nameOf item = name
      · subst same
        rw [List.find?_cons_of_pos (by simp), contains]
        cases present : table.get? (nameOf item) with
        | none => simp [get?_insert]
        | some old => simp [present]
      · rw [List.find?_cons_of_neg (by simpa using same)]
        split
        · rfl
        · rw [get?_insert, if_neg same]

end Loops

theorem get?_filter (keep : String → Bool) (table : Table α) (name : String) :
    (table.filter fun name _ => keep name).get? name =
      if keep name then table.get? name else none := by
  rw [get?, get?, filter, List.find?_filter]
  cases kept : keep name with
  | true =>
      rw [if_pos rfl]
      congr 2
      funext entry
      by_cases same : entry.1 = name
      · simp [same, kept]
      · simp [same]
  | false =>
      rw [if_neg Bool.false_ne_true, Option.map_eq_none_iff, List.find?_eq_none]
      intro entry _ both
      simp only [decide_eq_true_eq] at both
      rw [both.2, kept] at both
      exact Bool.false_ne_true both.1

/-! ## Names -/

theorem pairwise_names (table : Table α) : table.names.Pairwise (· < ·) := by
  rw [names, List.pairwise_map]
  exact table.ascending

/-- **A table is known from the values of the names.** -/
theorem ext_get? {first second : Table α} (same : ∀ name, first.get? name = second.get? name) :
    first = second := by
  obtain ⟨entries, ascending⟩ := first
  obtain ⟨others, ascending'⟩ := second
  have irrefl : Std.Irrefl fun early late : String × α => early.1 < late.1 :=
    ⟨fun entry => String.lt_irrefl entry.1⟩
  have antisymm : Std.Antisymm fun early late : String × α => early.1 < late.1 :=
    ⟨fun _ _ before after => absurd after (String.lt_asymm before)⟩
  have equal : entries = others := by
    refine ascending.eq_of_mem_iff ascending' ?_
    rintro ⟨name, value⟩
    have lookup := same name
    rw [Option.ext_iff] at lookup
    have here := lookup value
    rwa [get?_eq_some_iff, get?_eq_some_iff] at here
  subst equal
  rfl

theorem mem_names_iff {table : Table α} {name : String} :
    name ∈ table.names ↔ ∃ value, table.get? name = some value := by
  rw [names, List.mem_map]
  constructor
  · rintro ⟨⟨_, value⟩, member, rfl⟩
    exact ⟨value, get?_eq_some_iff.2 member⟩
  · rintro ⟨value, found⟩
    exact ⟨(name, value), get?_eq_some_iff.1 found, rfl⟩

theorem mem_names_insert {table : Table α} {name other : String} {value : α} :
    other ∈ (table.insert name value).names ↔ other = name ∨ other ∈ table.names := by
  rw [mem_names_iff, mem_names_iff, get?_insert]
  by_cases same : name = other
  · simp [same]
  · simp [same, Ne.symm same]

end Table

namespace NameSet

theorem mem_foldl_add {names : List String} {set : NameSet} {name : String} :
    name ∈ Table.names (names.foldl add set) ↔ name ∈ Table.names set ∨ name ∈ names := by
  induction names generalizing set with
  | nil => simp
  | cons first rest ih =>
      rw [List.foldl_cons, ih, add, Table.mem_names_insert, List.mem_cons]
      constructor
      · rintro ((here | before) | later)
        · exact .inr (.inl here)
        · exact .inl before
        · exact .inr (.inr later)
      · rintro (before | here | later)
        · exact .inl (.inr before)
        · exact .inl (.inl here)
        · exact .inr later

theorem mem_union {set other : NameSet} {name : String} :
    name ∈ Table.names (set.union other) ↔
      name ∈ Table.names set ∨ name ∈ Table.names other :=
  mem_foldl_add

end NameSet

end Uplift
