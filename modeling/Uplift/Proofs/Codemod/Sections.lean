import Mathlib.Data.List.Find
import Uplift.Proofs.Codemod.Dependencies
import Uplift.Proofs.Json.Rereading

/-!
# Dependencies that relocation moves

One relocation puts a new dependency into the entries of a section that has the old one, and may
drop the old one.  Relocations of which no two are about the same package do not get in each
other's way: what they leave of a name (`valueAfter`) does not depend on the order in which they are
carried out, and so neither do the entries (`relocateAll_perm`).  Entries that keep their names keep
their order, and all others are sorted (`entriesRelocated_relocateAll`).
-/

set_option autoImplicit false

namespace Uplift

namespace Json.Fields

/-! ## Sorted entries -/

/-- Entries with distinct names are in ascending order once they are sorted. -/
theorem ascending_sortEntries {fields : Fields} (distinct : (fields.map Prod.fst).Nodup) :
    Ascending (Manifest.sortEntries fields) := by
  have perm : (Manifest.sortEntries fields).Perm fields := List.mergeSort_perm _ _
  have sorted : (Manifest.sortEntries fields).Pairwise fun first second =>
      (!decide (second.1 < first.1)) = true := by
    refine List.pairwise_mergeSort ?_ ?_ fields
    · intro a b c
      simp only [Bool.not_eq_true', decide_eq_false_iff_not, String.not_lt]
      exact String.le_trans
    · intro a b
      simp only [Bool.or_eq_true, Bool.not_eq_true', decide_eq_false_iff_not, String.not_lt]
      exact String.le_total _ _
  have names : (Manifest.sortEntries fields).Pairwise fun first second => first.1 ≠ second.1 :=
    List.pairwise_map.1 ((perm.map Prod.fst).nodup_iff.2 distinct)
  refine (sorted.and names).imp fun {first second} both => ?_
  simp only [Bool.not_eq_true', decide_eq_false_iff_not, String.not_lt] at both
  by_contra after
  exact both.2 (String.le_antisymm both.1 (String.not_lt.1 after))

theorem get?_sortEntries {fields : Fields} (distinct : (fields.map Prod.fst).Nodup)
    (key : String) : (Manifest.sortEntries fields).get? key = fields.get? key :=
  get?_perm distinct (List.mergeSort_perm _ _) key

end Json.Fields

namespace Codemod.Imports

open Json (Fields Value)

/-! ## One relocation in one section -/

/-- The entries of a section after one relocation. -/
def relocatedEntries (keep : Bool) (relocation : PackageRelocation) (entries : Fields) : Fields :=
  (relocateEntries keep relocation entries).getD entries

section One

variable {keep : Bool} {relocation : PackageRelocation} {entries : Fields}

/-- Entries stay exactly if they lack the old dependency, or have the new one and must keep the
old. -/
theorem relocateEntries_eq_none_iff :
    relocateEntries keep relocation entries = none ↔
      (entries.contains relocation.origin = true →
        entries.contains relocation.destination = true ∧ keep = true) := by
  rw [relocateEntries]
  by_cases present : entries.contains relocation.origin = true
  · simp [present]
  · simp [present]

theorem relocatedEntries_of_none (none : relocateEntries keep relocation entries = none) :
    relocatedEntries keep relocation entries = entries := by
  rw [relocatedEntries, none, Option.getD_none]

/-- What entries are sorted from, if one relocation changes them. -/
theorem relocateEntries_eq_some {later : Fields}
    (done : relocateEntries keep relocation entries = some later) :
    entries.contains relocation.origin = true ∧ ∃ added,
      added = (if entries.contains relocation.destination then entries
        else entries.insert relocation.destination (.string relocation.version)) ∧
      later = Manifest.sortEntries (if keep then added else added.erase relocation.origin) := by
  rw [relocateEntries] at done
  split at done
  next => cases done
  next present =>
    obtain ⟨_, equal⟩ := Option.ite_none_right_eq_some.1 done
    cases equal
    refine ⟨by simpa using present, _, rfl, ?_⟩
    cases entries.contains relocation.destination <;> rfl

theorem nodup_added (distinct : (entries.map Prod.fst).Nodup) :
    ((if entries.contains relocation.destination then entries
      else entries.insert relocation.destination (.string relocation.version)).map
        Prod.fst).Nodup := by
  split
  · exact distinct
  · exact Json.nodup_insert distinct _ _

theorem get?_added (name : String) :
    (if entries.contains relocation.destination then entries
      else entries.insert relocation.destination (.string relocation.version)).get? name =
      (entries.get? name).or
        (if name = relocation.destination then some (.string relocation.version) else none) := by
  split
  next present =>
    cases found : entries.get? name with
    | some value => rfl
    | none =>
        have other : name ≠ relocation.destination := by
          rintro rfl
          rw [Fields.contains, found] at present
          cases present
        simp [other]
  next absent =>
    rw [Fields.get?_insert]
    by_cases same : relocation.destination = name
    · subst same
      have none : entries.get? relocation.destination = none := by
        simpa [Fields.contains] using absent
      simp [none]
    · simp [same, Ne.symm same]

theorem nodup_relocatedEntries (distinct : (entries.map Prod.fst).Nodup) :
    ((relocatedEntries keep relocation entries).map Prod.fst).Nodup := by
  rw [relocatedEntries]
  cases done : relocateEntries keep relocation entries with
  | none => exact distinct
  | some later =>
      obtain ⟨_, added, rfl, rfl⟩ := relocateEntries_eq_some done
      rw [Option.getD_some, Manifest.sortEntries,
        ((List.mergeSort_perm _ _).map Prod.fst).nodup_iff]
      split
      · exact nodup_added distinct
      · exact Fields.nodup_erase (nodup_added distinct) _

variable (keep relocation) in
/-- **One relocation, name by name.** -/
theorem get?_relocatedEntries (distinct : (entries.map Prod.fst).Nodup) (name : String) :
    (relocatedEntries keep relocation entries).get? name =
      if entries.contains relocation.origin then
        if name = relocation.origin ∧ keep = false then none
        else (entries.get? name).or
          (if name = relocation.destination then some (.string relocation.version) else none)
      else entries.get? name := by
  rw [relocatedEntries]
  cases done : relocateEntries keep relocation entries with
  | none =>
      rw [Option.getD_none]
      split
      next present =>
        obtain ⟨there, kept⟩ := relocateEntries_eq_none_iff.1 done present
        rw [if_neg (by simp [kept]), ← get?_added, if_pos there]
      next => rfl
  | some later =>
      obtain ⟨present, added, rfl, rfl⟩ := relocateEntries_eq_some done
      rw [Option.getD_some, if_pos present]
      cases keep with
      | true =>
          rw [Fields.get?_sortEntries (by simpa using nodup_added distinct)]
          simp only [if_true, Bool.true_eq_false, and_false, if_false]
          exact get?_added name
      | false =>
          rw [Fields.get?_sortEntries]
          · simp only [Bool.false_eq_true, if_false, and_true]
            rw [Fields.get?_erase, get?_added]
          · simpa using Fields.nodup_erase (nodup_added distinct) _

variable (keep relocation) in
theorem relocatedEntries_cases (distinct : (entries.map Prod.fst).Nodup) :
    relocateEntries keep relocation entries = none ∨
      (relocatedEntries keep relocation entries).Ascending := by
  cases done : relocateEntries keep relocation entries with
  | none => exact .inl rfl
  | some later =>
      right
      obtain ⟨_, added, rfl, equal⟩ := relocateEntries_eq_some done
      rw [relocatedEntries, done, Option.getD_some, equal]
      refine Fields.ascending_sortEntries ?_
      split
      · exact nodup_added distinct
      · exact Fields.nodup_erase (nodup_added distinct) _

end One

/-! ## All relocations in one section -/

/-- The entries of a section after relocations. -/
def relocateAll (usage : Usage) (packages : List PackageRelocation) (entries : Fields) : Fields :=
  packages.foldl (fun entries relocation =>
    relocatedEntries (usage.keeps relocation.origin) relocation entries) entries

/-- The packages that relocations are about. -/
def packageNames (packages : List PackageRelocation) : List String :=
  packages.flatMap fun relocation => [relocation.origin, relocation.destination]

/-- Whether some relocation drops a name. -/
def drops (usage : Usage) (packages : List PackageRelocation) (name : String) : Bool :=
  packages.any fun relocation => relocation.origin = name && !usage.keeps relocation.origin

/-- The relocation to a name from an old dependency that entries have. -/
def bringing? (packages : List PackageRelocation) (entries : Fields) (name : String) :
    Option PackageRelocation :=
  packages.find? fun relocation =>
    relocation.destination = name && entries.contains relocation.origin

/-- What relocations leave of a name: nothing if it is an old dependency that need not be kept,
otherwise the value it had, or the range that comes with it in place of another. -/
def valueAfter (usage : Usage) (packages : List PackageRelocation) (entries : Fields)
    (name : String) : Option Value :=
  if drops usage packages name then none
  else (entries.get? name).or
    ((bringing? packages entries name).map fun relocation => .string relocation.version)

section All

variable {usage : Usage} {packages : List PackageRelocation} {entries : Fields}

theorem drops_cons (relocation : PackageRelocation) (name : String) :
    drops usage (relocation :: packages) name =
      (decide (relocation.origin = name) && !usage.keeps relocation.origin ||
        drops usage packages name) :=
  List.any_cons

theorem drops_eq_false {name : String} (apart : ∀ other ∈ packages, other.origin ≠ name) :
    drops usage packages name = false := by
  rw [drops, List.any_eq_false]
  intro other member
  simp [apart other member]

theorem bringing?_eq_none {name : String} (apart : ∀ other ∈ packages, other.destination ≠ name) :
    bringing? packages entries name = none := by
  rw [bringing?, List.find?_eq_none]
  intro other member
  simp [apart other member]

theorem bringing?_cons (relocation : PackageRelocation) (name : String) :
    bringing? (relocation :: packages) entries name =
      if relocation.destination = name ∧ entries.contains relocation.origin = true then
        some relocation
      else bringing? packages entries name := by
  rw [bringing?, List.find?_cons, ← bringing?]
  split
  next holds => rw [if_pos (by simpa using holds)]
  next fails => rw [if_neg (by simpa using fails)]

/-- A relocation that comes with others is about packages of its own. -/
theorem apart_of_once {relocation : PackageRelocation}
    (once : (packageNames (relocation :: packages)).Nodup) :
    relocation.origin ≠ relocation.destination ∧ (packageNames packages).Nodup ∧
      ∀ other ∈ packages, ∀ name ∈ [relocation.origin, relocation.destination],
        other.origin ≠ name ∧ other.destination ≠ name := by
  rw [packageNames, List.flatMap_cons, List.nodup_append] at once
  obtain ⟨pair, later, apart⟩ := once
  refine ⟨by simpa using pair, later, fun other member name among => ?_⟩
  refine ⟨(apart name among _ (List.mem_flatMap.2 ⟨other, member, ?_⟩)).symm,
    (apart name among _ (List.mem_flatMap.2 ⟨other, member, ?_⟩)).symm⟩
  · exact List.mem_cons_self
  · exact List.mem_cons_of_mem _ List.mem_cons_self

/-- What later relocations leave of a name depends on its value and on the old dependencies that are
there, and these the first relocation does not change: it is about other packages. -/
theorem valueAfter_relocatedEntries {relocation : PackageRelocation}
    (distinct : (entries.map Prod.fst).Nodup)
    (once : (packageNames (relocation :: packages)).Nodup) (name : String) :
    valueAfter usage packages
        (relocatedEntries (usage.keeps relocation.origin) relocation entries) name =
      valueAfter usage (relocation :: packages) entries name := by
  obtain ⟨different, _, apart⟩ := apart_of_once once
  have step := get?_relocatedEntries (usage.keeps relocation.origin) relocation distinct
  have origins : ∀ other ∈ packages,
      (relocatedEntries (usage.keeps relocation.origin) relocation entries).contains
        other.origin = entries.contains other.origin := by
    intro other member
    have first := (apart other member relocation.origin List.mem_cons_self).1
    have second := (apart other member relocation.destination (by simp)).1
    simp [Fields.contains, step, first, second]
  have sought : bringing? packages
      (relocatedEntries (usage.keeps relocation.origin) relocation entries) name =
        bringing? packages entries name :=
    List.find?_congr fun other member => by rw [origins other member]
  have notSought : name ∈ [relocation.origin, relocation.destination] →
      bringing? packages entries name = none :=
    fun among => bringing?_eq_none fun other member => (apart other member name among).2
  rw [valueAfter, valueAfter, sought, bringing?_cons, step, drops_cons]
  by_cases old : name = relocation.origin
  · subst old
    have notDropped : drops usage packages relocation.origin = false :=
      drops_eq_false fun other member => (apart other member _ List.mem_cons_self).1
    rw [notDropped, notSought List.mem_cons_self]
    cases present : entries.get? relocation.origin with
    | none => simp [Fields.contains, present, different.symm]
    | some value =>
        cases usage.keeps relocation.origin <;> simp [Fields.contains, present, different.symm]
  · simp only [old, Ne.symm old, false_and, if_false, decide_false, Bool.false_and, Bool.false_or]
    by_cases new : name = relocation.destination
    · subst new
      rw [notSought (by simp)]
      cases entries.contains relocation.origin <;> simp
    · simp [new, Ne.symm new]

/-- **Relocations, name by name.** -/
theorem get?_relocateAll (distinct : (entries.map Prod.fst).Nodup)
    (once : (packageNames packages).Nodup) (name : String) :
    (relocateAll usage packages entries).get? name = valueAfter usage packages entries name := by
  induction packages generalizing entries with
  | nil => simp [relocateAll, valueAfter, drops, bringing?]
  | cons relocation packages ih =>
      rw [← valueAfter_relocatedEntries distinct once,
        ← ih (nodup_relocatedEntries distinct) (apart_of_once once).2.1]
      rfl

/-- Relocations that each leave entries as they are do so one after the other. -/
theorem relocateAll_of_settled
    (settled : ∀ relocation ∈ packages,
      relocateEntries (usage.keeps relocation.origin) relocation entries = none) :
    relocateAll usage packages entries = entries := by
  refine List.foldlRecOn (motive := fun later => later = entries) packages _ rfl ?_
  rintro _ rfl relocation member
  exact relocatedEntries_of_none (settled relocation member)

theorem relocateAll_cases (distinct : (entries.map Prod.fst).Nodup) :
    relocateAll usage packages entries = entries ∨
      (relocateAll usage packages entries).Ascending := by
  have both : ((relocateAll usage packages entries).map Prod.fst).Nodup ∧
      (relocateAll usage packages entries = entries ∨
        (relocateAll usage packages entries).Ascending) := by
    refine List.foldlRecOn (motive := fun later : Fields => (later.map Prod.fst).Nodup ∧
      (later = entries ∨ later.Ascending)) packages _ ⟨distinct, .inl rfl⟩ ?_
    rintro later ⟨distinct, either⟩ relocation _
    refine ⟨nodup_relocatedEntries distinct, ?_⟩
    obtain none | ascending := relocatedEntries_cases _ relocation distinct
    · rwa [relocatedEntries_of_none none]
    · exact .inr ascending
  exact both.2

section Once

variable (once : (packageNames packages).Nodup)
include once

/-- Relocations that share a package are the same. -/
theorem eq_of_shared {first second : PackageRelocation} (member : first ∈ packages)
    (member' : second ∈ packages) (name : String)
    (named : name ∈ [first.origin, first.destination])
    (named' : name ∈ [second.origin, second.destination]) : first = second := by
  by_contra different
  have symmetric : Std.Symm (Function.onFun List.Disjoint fun relocation : PackageRelocation =>
      [relocation.origin, relocation.destination]) := ⟨fun _ _ apart => apart.symm⟩
  exact (List.nodup_flatMap.1 once).2.forall member member' different named named'

theorem origin_ne_destination {first second : PackageRelocation} (member : first ∈ packages)
    (member' : second ∈ packages) : first.origin ≠ second.destination := by
  intro same
  obtain rfl := eq_of_shared once member member' _ List.mem_cons_self (by simp [same])
  have pair := (List.nodup_flatMap.1 once).1 first member
  simp [same] at pair

/-- At most one relocation leads to a name. -/
theorem bringing?_eq_some_iff {name : String} {relocation : PackageRelocation} :
    bringing? packages entries name = some relocation ↔
      relocation ∈ packages ∧ relocation.destination = name ∧
        entries.contains relocation.origin = true := by
  constructor
  · intro found
    have holds := List.find?_some found
    simp only [Bool.and_eq_true, decide_eq_true_eq] at holds
    exact ⟨List.mem_of_find?_eq_some found, holds⟩
  · rintro ⟨member, rfl, present⟩
    cases found : bringing? packages entries relocation.destination with
    | none =>
        have absent := List.find?_eq_none.1 found relocation member
        simp [present] at absent
    | some other =>
        have holds := List.find?_some found
        simp only [Bool.and_eq_true, decide_eq_true_eq] at holds
        rw [eq_of_shared once (List.mem_of_find?_eq_some found) member other.destination (by simp)
          (by simp [holds.1])]

/-- Of the relocations only the one from an old dependency bears on it. -/
theorem valueAfter_origin {relocation : PackageRelocation} (member : relocation ∈ packages) :
    valueAfter usage packages entries relocation.origin =
      if usage.keeps relocation.origin then entries.get? relocation.origin else none := by
  have notSought : bringing? packages entries relocation.origin = none :=
    bringing?_eq_none fun other among => (origin_ne_destination once member among).symm
  have dropped : drops usage packages relocation.origin = !usage.keeps relocation.origin := by
    rw [drops, Bool.eq_iff_iff, List.any_eq_true]
    constructor
    · rintro ⟨other, _, holds⟩
      simp only [Bool.and_eq_true, decide_eq_true_eq] at holds
      rw [← holds.1]
      exact holds.2
    · intro free
      exact ⟨relocation, member, by simpa using free⟩
  rw [valueAfter, notSought, dropped]
  cases usage.keeps relocation.origin <;> simp

/-- Of the relocations only the one to a new dependency bears on it. -/
theorem valueAfter_destination {relocation : PackageRelocation} (member : relocation ∈ packages) :
    valueAfter usage packages entries relocation.destination =
      (entries.get? relocation.destination).or
        (if entries.contains relocation.origin then some (.string relocation.version)
          else none) := by
  have notDropped : drops usage packages relocation.destination = false :=
    drops_eq_false fun other among => origin_ne_destination once among member
  have sought : bringing? packages entries relocation.destination =
      if entries.contains relocation.origin then some relocation else none := by
    refine Option.ext fun other => ?_
    rw [bringing?_eq_some_iff once]
    constructor
    · rintro ⟨among, same, present⟩
      obtain rfl := eq_of_shared once among member other.destination (by simp)
        (by simp [same])
      rw [if_pos present]
    · intro found
      obtain ⟨present, equal⟩ := Option.ite_none_right_eq_some.1 found
      cases equal
      exact ⟨member, rfl, present⟩
  rw [valueAfter, notDropped, sought, if_neg Bool.false_ne_true]
  cases entries.contains relocation.origin <;> rfl

variable (distinct : (entries.map Prod.fst).Nodup)
include distinct

/-- **Relocations leave entries as they are exactly if they leave their names.** -/
theorem settled_iff :
    (∀ relocation ∈ packages,
      relocateEntries (usage.keeps relocation.origin) relocation entries = none) ↔
      ∀ name, (relocateAll usage packages entries).contains name = entries.contains name := by
  constructor
  · intro settled name
    rw [relocateAll_of_settled settled]
  · intro same relocation member
    rw [relocateEntries_eq_none_iff]
    intro present
    have old := same relocation.origin
    have new := same relocation.destination
    rw [Fields.contains, get?_relocateAll distinct once, valueAfter_origin once member, present]
      at old
    rw [Fields.contains, get?_relocateAll distinct once, valueAfter_destination once member,
      if_pos present] at new
    refine ⟨by simpa using new.symm, ?_⟩
    by_contra free
    rw [if_neg free] at old
    cases old

/-- Relocations have nothing more to do where they have been carried out. -/
theorem settled_relocateAll :
    ∀ relocation ∈ packages,
      relocateEntries (usage.keeps relocation.origin) relocation
        (relocateAll usage packages entries) = none := by
  intro relocation member
  rw [relocateEntries_eq_none_iff, Fields.contains, Fields.contains,
    get?_relocateAll distinct once, get?_relocateAll distinct once,
    valueAfter_origin once member, valueAfter_destination once member]
  intro present
  cases kept : usage.keeps relocation.origin with
  | false => simp [kept] at present
  | true =>
      rw [kept, if_pos rfl] at present
      simp [Fields.contains, present]

end Once

end All

/-! ## What relocations make of a section -/

/-- A dependency may be dropped: all sources of its package could be read, and nothing that they
leave in plain text or retain refers to it. -/
def Usage.MayDrop (usage : Usage) (package : String) : Prop :=
  usage.incomplete = false ∧
    (∀ specifier ∈ Table.names usage.residual, ¬ Refers specifier package) ∧
    ∀ specifier ∈ Table.names usage.retained, ¬ Refers specifier package

theorem refersTo_eq_false_iff {specifiers : NameSet} {package : String} :
    refersTo specifiers package = false ↔
      ∀ specifier ∈ Table.names specifiers, ¬ Refers specifier package := by
  refine ⟨fun none specifier member => not_refers_of_refersTo none member, fun none => ?_⟩
  rw [refersTo, List.any_eq_false]
  intro specifier member
  simpa [Refers] using none specifier member

theorem Usage.mayDrop_iff {usage : Usage} {package : String} :
    usage.MayDrop package ↔ usage.keeps package = false := by
  rw [MayDrop, keeps, Bool.or_eq_false_iff, Bool.or_eq_false_iff, refersTo_eq_false_iff,
    refersTo_eq_false_iff, and_assoc]

/-- What relocations make of the entries of a section. -/
structure EntriesRelocated (usage : Usage) (packages : List PackageRelocation)
    (old new : Fields) : Prop where
  /-- A section without any of the old dependencies stays. -/
  untouched : (∀ relocation ∈ packages, old.contains relocation.origin = false) → new = old
  /-- The names are the old ones, without the old dependencies that may be dropped, and the new
  dependencies that come with an old one. -/
  names : ∀ name, new.contains name = true ↔
    old.contains name = true ∧
        (¬ ∃ relocation ∈ packages, relocation.origin = name ∧ usage.MayDrop name) ∨
      ∃ relocation ∈ packages, relocation.destination = name ∧
        old.contains relocation.origin = true
  kept : ∀ name value, old.get? name = some value → new.contains name = true →
    new.get? name = some value
  added : ∀ relocation ∈ packages, old.contains relocation.origin = true →
    old.contains relocation.destination = false →
      new.get? relocation.destination = some (.string relocation.version)
  /-- With the same names, everything stays in its order. -/
  unchanged : (∀ name, new.contains name = old.contains name) → new = old
  /-- With other names, the names ascend. -/
  sorted : (∃ name, new.contains name ≠ old.contains name) →
    new.Pairwise fun first second => first.1 < second.1

section Sections

variable {usage : Usage} {packages : List PackageRelocation} {entries : Fields}
  (distinct : (entries.map Prod.fst).Nodup) (once : (packageNames packages).Nodup)
include distinct once

omit distinct in
theorem valueAfter_isSome_iff (name : String) :
    (valueAfter usage packages entries name).isSome = true ↔
      entries.contains name = true ∧
          (¬ ∃ relocation ∈ packages, relocation.origin = name ∧ usage.MayDrop name) ∨
        ∃ relocation ∈ packages, relocation.destination = name ∧
          entries.contains relocation.origin = true := by
  have dropped : drops usage packages name = true ↔
      ∃ relocation ∈ packages, relocation.origin = name ∧ usage.MayDrop name := by
    rw [drops, List.any_eq_true]
    refine exists_congr fun relocation => and_congr_right fun _ => ?_
    rw [Bool.and_eq_true, decide_eq_true_eq, Bool.not_eq_true', Usage.mayDrop_iff]
    exact and_congr_right fun same => by rw [same]
  have sought : (bringing? packages entries name).isSome = true ↔
      ∃ relocation ∈ packages, relocation.destination = name ∧
        entries.contains relocation.origin = true := by
    simp only [bringing?, List.find?_isSome, Bool.and_eq_true, decide_eq_true_eq]
  rw [valueAfter, ← dropped, ← sought]
  split
  next gone =>
    have none : (bringing? packages entries name).isSome = false := by
      rw [← Bool.not_eq_true, sought]
      obtain ⟨relocation, member, rfl, _⟩ := dropped.1 gone
      rintro ⟨other, among, same, _⟩
      exact origin_ne_destination once member among same.symm
    simp [gone, none]
  next stays =>
    simp [Option.isSome_or, Fields.contains, stays]

/-- **The entries of a section after relocations.** -/
theorem entriesRelocated_relocateAll :
    EntriesRelocated usage packages entries (relocateAll usage packages entries) where
  untouched absent := by
    refine relocateAll_of_settled fun relocation member => ?_
    rw [relocateEntries_eq_none_iff, absent relocation member]
    exact fun present => absurd present Bool.false_ne_true
  names name := by
    rw [Fields.contains, get?_relocateAll distinct once]
    exact valueAfter_isSome_iff once name
  kept name value found := by
    rw [Fields.contains, get?_relocateAll distinct once, valueAfter, found]
    split
    next => exact fun present => absurd present Bool.false_ne_true
    next => exact fun _ => rfl
  added relocation member present absent := by
    rw [get?_relocateAll distinct once, valueAfter_destination once member, if_pos present]
    have none : entries.get? relocation.destination = none := by
      simpa [Fields.contains] using absent
    rw [none, Option.none_or]
  unchanged same := relocateAll_of_settled ((settled_iff once distinct).2 same)
  sorted := by
    rintro ⟨name, different⟩
    refine (relocateAll_cases distinct).resolve_left fun same => different ?_
    rw [same]

/-- The order of relocations does not matter in a section. -/
theorem relocateAll_perm {others : List PackageRelocation} (perm : others.Perm packages) :
    relocateAll usage others entries = relocateAll usage packages entries := by
  have once' : (packageNames others).Nodup := (perm.flatMap_right _).nodup_iff.2 once
  have values : ∀ name, (relocateAll usage others entries).get? name =
      (relocateAll usage packages entries).get? name := by
    intro name
    have dropped : drops usage others name = drops usage packages name := by
      rw [drops, drops, Bool.eq_iff_iff, List.any_eq_true, List.any_eq_true]
      exact exists_congr fun relocation => and_congr_left fun _ => perm.mem_iff
    have sought : bringing? others entries name = bringing? packages entries name := by
      refine Option.ext fun relocation => ?_
      rw [bringing?_eq_some_iff once, bringing?_eq_some_iff once', perm.mem_iff]
    rw [get?_relocateAll distinct once, get?_relocateAll distinct once', valueAfter, valueAfter,
      dropped, sought]
  by_cases same : ∀ name, (relocateAll usage packages entries).contains name =
      entries.contains name
  · have settled := (settled_iff once distinct).2 same
    rw [relocateAll_of_settled settled,
      relocateAll_of_settled fun relocation member => settled relocation (perm.mem_iff.1 member)]
  · have sorted : (relocateAll usage packages entries).Ascending := by
      refine (relocateAll_cases distinct).resolve_left fun equal => same fun name => ?_
      rw [equal]
    have sorted' : (relocateAll usage others entries).Ascending := by
      refine (relocateAll_cases distinct).resolve_left fun equal => same fun name => ?_
      rw [Fields.contains, ← values, equal, Fields.contains]
    exact sorted'.ext sorted values

end Sections

end Codemod.Imports

end Uplift
