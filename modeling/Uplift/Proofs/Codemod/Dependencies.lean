import Uplift.Codemod.Imports
import Uplift.Proofs.Json.Fields
import Uplift.Proofs.Source.Specifiers

/-!
# Dependencies that relocation keeps

A dependency that the sources of a package still use is kept in every section that declares it,
whatever relocations are carried out in whatever order (`declares_relocateDependencies`).  What the
sources use is collected file by file: the specifiers that any of them retains belong to the usage
of the package (`mem_retained_usageOf_iff`), and a file that cannot be read makes the usage
incomplete (`incomplete_usageOf_iff`).
-/

set_option autoImplicit false

namespace Uplift

/-! ## Fields and sections -/

namespace Json.Fields

theorem contains_insert {fields : Fields} {key : String} (present : fields.contains key = true)
    (other : String) (value : Value) : (fields.insert other value).contains key = true := by
  rw [contains, get?_insert]
  split
  · rfl
  · exact present

theorem contains_erase {fields : Fields} {key other : String}
    (present : fields.contains key = true) (different : key ≠ other) :
    (fields.erase other).contains key = true := by
  rw [contains_iff, List.mem_map] at present ⊢
  obtain ⟨field, member, rfl⟩ := present
  exact ⟨field, List.mem_filter.2 ⟨member, by simpa using different⟩, rfl⟩

theorem contains_sortEntries {fields : Fields} {key : String}
    (present : fields.contains key = true) : (Manifest.sortEntries fields).contains key = true := by
  rw [contains_iff, List.mem_map] at present ⊢
  obtain ⟨field, member, rfl⟩ := present
  exact ⟨field, List.mem_mergeSort.2 member, rfl⟩

end Json.Fields

/-- A section of a manifest declares a package. -/
def Manifest.Declares (manifest : Manifest) (part : DependencySection) (package : String) : Prop :=
  ∃ entries, manifest.section? part = some entries ∧ entries.contains package = true

instance (manifest : Manifest) (part : DependencySection) (package : String) :
    Decidable (manifest.Declares part package) :=
  decidable_of_iff (((manifest.section? part).any fun entries => entries.contains package) = true)
    (Option.any_eq_true _ _)

theorem DependencySection.key_injective : Function.Injective key := by
  intro first second same
  cases first <;> cases second <;> simp_all [key]

theorem Manifest.section?_setSection (manifest : Manifest) (part other : DependencySection)
    (entries : Json.Fields) :
    (manifest.setSection part entries).section? other =
      if part = other then some entries else manifest.section? other := by
  rw [section?, setSection, Json.Fields.get?_insert]
  by_cases same : part = other
  · rw [if_pos same, if_pos (congrArg DependencySection.key same)]
    rfl
  · rw [if_neg same, if_neg fun keys => same (DependencySection.key_injective keys)]
    rfl

namespace Codemod.Imports

/-! ## Manifests -/

/-- Entries keep a package unless it is the one that is relocated and need not be kept. -/
theorem contains_relocateEntries {keep : Bool} {relocation : PackageRelocation}
    {entries later : Json.Fields} {package : String}
    (kept : relocation.origin = package → keep = true)
    (done : relocateEntries keep relocation entries = some later)
    (present : entries.contains package = true) : later.contains package = true := by
  rw [relocateEntries] at done
  split at done
  next => cases done
  next =>
    have added : (if !entries.contains relocation.destination then
        entries.insert relocation.destination (.string relocation.version)
        else entries).contains package = true := by
      split
      · exact Json.Fields.contains_insert present _ _
      · exact present
    obtain ⟨_, equal⟩ := Option.ite_none_right_eq_some.1 done
    cases equal
    refine Json.Fields.contains_sortEntries ?_
    split
    next => exact added
    next dropped =>
      exact Json.Fields.contains_erase added fun same => dropped (kept same.symm)

/-- One relocation in one section keeps a package declared. -/
theorem declares_relocateSection {keep : Bool} {relocation : PackageRelocation}
    {state : Manifest × Bool} {part other : DependencySection} {package : String}
    (kept : relocation.origin = package → keep = true) (declared : state.1.Declares other package) :
    (relocateSection keep relocation state part).1.Declares other package := by
  rw [relocateSection]
  split
  next entries done =>
    obtain ⟨before, here, relocated⟩ := Option.bind_eq_some_iff.1 done
    obtain ⟨found, there, present⟩ := declared
    rw [Manifest.Declares, Manifest.section?_setSection]
    by_cases same : part = other
    · subst same
      cases here.symm.trans there
      exact ⟨entries, if_pos rfl, contains_relocateEntries kept relocated present⟩
    · exact ⟨found, (if_neg same).trans there, present⟩
  next => exact declared

/-- **A package that must be kept stays declared** in every section, through all relocations. -/
theorem declares_relocateDependencies {packages : List PackageRelocation} {usage : Usage}
    {manifest : Manifest} {part : DependencySection} {package : String}
    (kept : usage.keeps package = true) (declared : manifest.Declares part package) :
    (relocateDependencies packages usage manifest).1.Declares part package := by
  have keeps : ∀ relocation : PackageRelocation, relocation.origin = package →
      usage.keeps relocation.origin = true := by
    rintro relocation rfl
    exact kept
  rw [relocateDependencies]
  refine List.foldlRecOn (motive := fun state : Manifest × Bool => state.1.Declares part package)
    packages _ declared ?_
  intro state here relocation _
  refine List.foldlRecOn (motive := fun state : Manifest × Bool => state.1.Declares part package)
    DependencySection.all _ here ?_
  intro state here other _
  exact declares_relocateSection (keeps relocation) here

/-! ## Usage -/

/-- A specifier belongs to a package: it is its name, or starts with it and a slash. -/
def Refers (specifier package : String) : Prop :=
  specifier = package ∨ Text.startsWith specifier (package ++ "/") = true

instance (specifier package : String) : Decidable (Refers specifier package) :=
  inferInstanceAs (Decidable (_ ∨ _))

theorem not_refers_of_refersTo {specifiers : NameSet} {package specifier : String}
    (none : refersTo specifiers package = false) (member : specifier ∈ Table.names specifiers) :
    ¬ Refers specifier package := by
  rw [refersTo, List.any_eq_false] at none
  have := none specifier member
  simpa [Refers] using this

/-- What the usage of a package says depends on the findings of the package one by one. -/
theorem usageOf_iff (findings : List Finding) (dir : Path) (holds : Usage → Prop)
    (brings : Finding → Prop)
    (starts : ¬ holds Usage.empty)
    (step : ∀ usage finding, holds (usage.add finding) ↔ holds usage ∨ brings finding) :
    holds (usageOf findings dir) ↔
      ∃ finding ∈ findings, finding.owner.same dir = true ∧ brings finding := by
  have run : ∀ (findings : List Finding) (usage : Usage),
      holds (findings.foldl Usage.add usage) ↔
        holds usage ∨ ∃ finding ∈ findings, brings finding := by
    intro findings
    induction findings with
    | nil => simp
    | cons finding findings ih =>
        intro usage
        rw [List.foldl_cons, ih, step, List.exists_mem_cons_iff, or_assoc]
  rw [usageOf, run, or_iff_right starts]
  simp only [List.mem_filter, and_assoc]

section Usages

variable {findings : List Finding} {dir : Path} {name : String}

/-- What is collected from the sources of a package, one by one. -/
theorem mem_collected_usageOf_iff (collected : Usage → NameSet)
    (given : Source.Relocated → NameSet) (starts : collected Usage.empty = Table.empty)
    (step : ∀ (usage : Usage) finding, collected (usage.add finding) =
      match finding with
      | .source _ _ relocated => NameSet.union (collected usage) (given relocated)
      | _ => collected usage) :
    name ∈ Table.names (collected (usageOf findings dir)) ↔
      ∃ owner edit relocated, Finding.source owner edit relocated ∈ findings ∧
        owner.same dir = true ∧ name ∈ Table.names (given relocated) := by
  have spread := usageOf_iff findings dir (fun usage => name ∈ Table.names (collected usage))
    (fun finding => ∃ owner edit relocated, finding = .source owner edit relocated ∧
      name ∈ Table.names (given relocated))
    (by simp [starts, Table.names, Table.empty])
    (by
      intro usage finding
      rw [step]
      cases finding <;> simp [NameSet.mem_union])
  rw [spread]
  constructor
  · rintro ⟨_, found, owned, owner, edit, relocated, rfl, member⟩
    exact ⟨owner, edit, relocated, found, owned, member⟩
  · rintro ⟨owner, edit, relocated, found, owned, member⟩
    exact ⟨_, found, owned, owner, edit, relocated, rfl, member⟩

/-- What the sources of a package retain, one by one. -/
theorem mem_retained_usageOf_iff :
    name ∈ Table.names (usageOf findings dir).retained ↔
      ∃ owner edit relocated, Finding.source owner edit relocated ∈ findings ∧
        owner.same dir = true ∧ name ∈ Table.names relocated.retained :=
  mem_collected_usageOf_iff Usage.retained _ rfl fun _ finding => by cases finding <;> rfl

/-- What the sources of a package leave in plain text, one by one. -/
theorem mem_residual_usageOf_iff :
    name ∈ Table.names (usageOf findings dir).residual ↔
      ∃ owner edit relocated, Finding.source owner edit relocated ∈ findings ∧
        owner.same dir = true ∧ name ∈ Table.names relocated.residual :=
  mem_collected_usageOf_iff Usage.residual _ rfl fun _ finding => by cases finding <;> rfl

/-- The usage of a package is incomplete exactly if one of its sources could not be read. -/
theorem incomplete_usageOf_iff :
    (usageOf findings dir).incomplete = true ↔
      ∃ owner relative message, Finding.broken owner relative message ∈ findings ∧
        owner.same dir = true := by
  have spread := usageOf_iff findings dir (fun usage => usage.incomplete = true)
    (fun finding => ∃ owner relative message, finding = .broken owner relative message)
    (by simp [Usage.empty])
    (by
      intro usage finding
      cases finding <;> simp [Usage.add])
  rw [spread]
  constructor
  · rintro ⟨_, found, owned, owner, relative, message, rfl⟩
    exact ⟨owner, relative, message, found, owned⟩
  · rintro ⟨owner, relative, message, found, owned⟩
    exact ⟨_, found, owned, owner, relative, message, rfl⟩

end Usages

end Codemod.Imports

end Uplift
