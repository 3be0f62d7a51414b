import Uplift.Proofs.Codemod.Sections
import Uplift.Proofs.Workspace.Bumping

/-!
# Manifests whose dependencies are relocated

Relocation changes the entries of sections and nothing else of a manifest
(`sameFrame_relocateDependencies`), each section by itself (`section?_relocateDependencies`).  If no
package occurs twice in the relocations, their order does not matter, a change is reported exactly
if there is one, and carrying them out again changes nothing (`relocateDependencies_relocates`).
-/

set_option autoImplicit false

namespace Uplift

/-! ## Manifests that differ in sections only -/

/-- A manifest with the same keys in the same order, and the same values but for the entries of
sections. -/
structure Manifest.SameFrame (old new : Manifest) : Prop where
  keys : new.fields.map Prod.fst = old.fields.map Prod.fst
  others : ∀ key, (∀ part entries, key = DependencySection.key part →
    old.section? part ≠ some entries) → new.fields.get? key = old.fields.get? key
  sections : ∀ part, (new.section? part).isSome = (old.section? part).isSome

namespace Manifest.SameFrame

theorem refl (manifest : Manifest) : manifest.SameFrame manifest :=
  ⟨rfl, fun _ _ => rfl, fun _ => rfl⟩

theorem trans {first second third : Manifest} (same : first.SameFrame second)
    (later : second.SameFrame third) : first.SameFrame third where
  keys := later.keys.trans same.keys
  others key plain := by
    refine (later.others key fun part entries named found => ?_).trans (same.others key plain)
    have present := same.sections part
    rw [found] at present
    obtain ⟨before, there⟩ := Option.isSome_iff_exists.1 present.symm
    exact plain part before named there
  sections part := (later.sections part).trans (same.sections part)

/-- Replacing the entries of a section that is there keeps the frame. -/
theorem setSection {manifest : Manifest} {part : DependencySection} {old : Json.Fields}
    (present : manifest.section? part = some old) (new : Json.Fields) :
    manifest.SameFrame (manifest.setSection part new) where
  keys := by
    have found := section?_eq_some_iff.1 present
    have member : part.key ∈ manifest.fields.map Prod.fst :=
      Json.Fields.contains_iff.1 (by rw [Json.Fields.contains, found]; rfl)
    rw [Manifest.setSection, Json.names_insert, if_pos member]
  others key plain := by
    have other : part.key ≠ key := fun same => plain part old same.symm present
    rw [Manifest.setSection, Json.Fields.get?_insert, if_neg other]
  sections other := by
    rw [section?_setSection]
    split
    next same => rw [← same, present]; rfl
    next => rfl

/-- A manifest is known from its frame and the entries of its sections. -/
theorem eq_of_section? {manifest first second : Manifest}
    (distinct : (manifest.fields.map Prod.fst).Nodup) (same : manifest.SameFrame first)
    (same' : manifest.SameFrame second)
    (sections : ∀ part, first.section? part = second.section? part) : first = second := by
  have values : ∀ key, first.fields.get? key = second.fields.get? key := by
    intro key
    by_cases plain : ∀ part entries, key = DependencySection.key part →
        manifest.section? part ≠ some entries
    · rw [same.others key plain, same'.others key plain]
    · simp only [not_forall, not_not] at plain
      obtain ⟨part, entries, rfl, found⟩ := plain
      obtain ⟨later, there⟩ := Option.isSome_iff_exists.1
        ((same.sections part).trans (by rw [found]; rfl))
      rw [section?_eq_some_iff.1 there, section?_eq_some_iff.1 ((sections part).symm.trans there)]
  rw [← same.keys] at distinct
  have fields : first.fields = second.fields :=
    Json.Fields.ext_of_keys (same.keys.trans same'.keys.symm) distinct values
  cases first
  exact congrArg Manifest.mk fields

end Manifest.SameFrame

namespace Codemod.Imports

open Json (Fields Value)

/-! ## All sections of a manifest -/

/-- The relocations with the sections in which they are carried out, in order. -/
def sectionSteps (packages : List PackageRelocation) :
    List (PackageRelocation × DependencySection) :=
  packages.flatMap fun relocation => DependencySection.all.map fun part => (relocation, part)

/-- One relocation is carried out in one section. -/
def relocateStep (usage : Usage) (state : Manifest × Bool)
    (step : PackageRelocation × DependencySection) : Manifest × Bool :=
  relocateSection (usage.keeps step.1.origin) step.1 state step.2

theorem relocateDependencies_eq_foldl (packages : List PackageRelocation) (usage : Usage)
    (manifest : Manifest) :
    relocateDependencies packages usage manifest =
      (sectionSteps packages).foldl (relocateStep usage) (manifest, false) := by
  simp only [relocateDependencies, sectionSteps, List.foldl_flatMap, List.foldl_map, relocateStep]

/-- The relocations of one section are all relocations. -/
theorem filter_sectionSteps (packages : List PackageRelocation) (part : DependencySection) :
    ((sectionSteps packages).filter fun step => step.2 = part).map Prod.fst = packages := by
  induction packages with
  | nil => rfl
  | cons relocation packages ih =>
      have here : ((DependencySection.all.map fun other => (relocation, other)).filter
          fun step => step.2 = part) = [(relocation, part)] := by
        cases part <;> rfl
      rw [sectionSteps, List.flatMap_cons, List.filter_append, here, List.map_append]
      exact congrArg (relocation :: ·) ih

/-- What one step finds to be changed. -/
def stepResult? (usage : Usage) (manifest : Manifest)
    (step : PackageRelocation × DependencySection) : Option Fields :=
  (manifest.section? step.2).bind (relocateEntries (usage.keeps step.1.origin) step.1)

section Steps

variable {usage : Usage}

theorem relocateStep_of_none {state : Manifest × Bool}
    {step : PackageRelocation × DependencySection}
    (none : stepResult? usage state.1 step = none) : relocateStep usage state step = state := by
  rw [relocateStep, relocateSection, ← stepResult?, none]

theorem relocateStep_of_some {state : Manifest × Bool}
    {step : PackageRelocation × DependencySection} {later : Fields}
    (some : stepResult? usage state.1 step = some later) :
    relocateStep usage state step = (state.1.setSection step.2 later, true) := by
  rw [relocateStep, relocateSection, ← stepResult?, some]

theorem sameFrame_relocateStep (state : Manifest × Bool)
    (step : PackageRelocation × DependencySection) :
    state.1.SameFrame (relocateStep usage state step).1 := by
  cases result : stepResult? usage state.1 step with
  | none =>
      rw [relocateStep_of_none result]
      exact .refl _
  | some later =>
      obtain ⟨entries, present, _⟩ := Option.bind_eq_some_iff.1 result
      rw [relocateStep_of_some result]
      exact .setSection present later

/-- One step in its section, and in the others. -/
theorem section?_relocateStep (state : Manifest × Bool)
    (step : PackageRelocation × DependencySection) (part : DependencySection) :
    (relocateStep usage state step).1.section? part =
      (state.1.section? part).map fun entries =>
        if step.2 = part then relocatedEntries (usage.keeps step.1.origin) step.1 entries
        else entries := by
  cases result : stepResult? usage state.1 step with
  | none =>
      rw [relocateStep_of_none result]
      cases present : state.1.section? part with
      | none => rfl
      | some entries =>
          by_cases here : step.2 = part
          · rw [stepResult?, here, present] at result
            simp [here, relocatedEntries_of_none result]
          · simp [here]
  | some later =>
      obtain ⟨entries, present, relocated⟩ := Option.bind_eq_some_iff.1 result
      rw [relocateStep_of_some result, Manifest.section?_setSection]
      by_cases here : step.2 = part
      · subst here
        simp [present, relocatedEntries, relocated]
      · simp [here]

end Steps

section Runs

variable {usage : Usage} {packages : List PackageRelocation} {manifest : Manifest}

theorem sameFrame_relocateDependencies :
    manifest.SameFrame (relocateDependencies packages usage manifest).1 := by
  rw [relocateDependencies_eq_foldl]
  refine List.foldlRecOn (motive := fun state : Manifest × Bool => manifest.SameFrame state.1)
    _ _ (.refl manifest) ?_
  intro state same step _
  exact same.trans (sameFrame_relocateStep state step)

variable (packages usage manifest) in
/-- **Each section is relocated by itself.** -/
theorem section?_relocateDependencies (part : DependencySection) :
    (relocateDependencies packages usage manifest).1.section? part =
      (manifest.section? part).map (relocateAll usage packages) := by
  have run : ∀ (steps : List (PackageRelocation × DependencySection)) (state : Manifest × Bool),
      (steps.foldl (relocateStep usage) state).1.section? part =
        (state.1.section? part).map
          (relocateAll usage ((steps.filter fun step => step.2 = part).map Prod.fst)) := by
    intro steps
    induction steps with
    | nil => exact fun state => Option.map_id'.symm
    | cons step steps ih =>
        intro state
        rw [List.foldl_cons, ih, section?_relocateStep, Option.map_map]
        congr 1
        funext entries
        by_cases here : step.2 = part
        · simp [here, relocateAll]
        · simp [here]
  rw [relocateDependencies_eq_foldl, run, filter_sectionSteps]

/-- Where every relocation leaves every section, nothing changes. -/
theorem relocateDependencies_of_settled
    (settled : ∀ part entries, manifest.section? part = some entries → ∀ relocation ∈ packages,
      relocateEntries (usage.keeps relocation.origin) relocation entries = none) :
    relocateDependencies packages usage manifest = (manifest, false) := by
  rw [relocateDependencies_eq_foldl]
  refine List.foldlRecOn (motive := fun state => state = (manifest, false)) _ _ rfl ?_
  rintro _ rfl ⟨relocation, part⟩ member
  refine relocateStep_of_none (Option.bind_eq_none_iff.2 fun entries present => ?_)
  refine settled part entries present relocation ?_
  rw [← filter_sectionSteps packages part]
  exact List.mem_map.2 ⟨_, List.mem_filter.2 ⟨member, by simp⟩, rfl⟩

/-- Nothing is reported to have changed exactly if every relocation leaves every section. -/
theorem snd_relocateDependencies_eq_false_iff :
    (relocateDependencies packages usage manifest).2 = false ↔
      ∀ part entries, manifest.section? part = some entries → ∀ relocation ∈ packages,
        relocateEntries (usage.keeps relocation.origin) relocation entries = none := by
  refine ⟨?_, fun settled => by rw [relocateDependencies_of_settled settled]⟩
  have stays : ∀ (steps : List (PackageRelocation × DependencySection)) (state : Manifest × Bool),
      state.2 = true → (steps.foldl (relocateStep usage) state).2 = true := by
    intro steps state changed
    refine List.foldlRecOn (motive := fun state : Manifest × Bool => state.2 = true) steps _
      changed ?_
    intro state changed step _
    cases result : stepResult? usage state.1 step with
    | none => rwa [relocateStep_of_none result]
    | some later => rw [relocateStep_of_some result]
  have run : ∀ (steps : List (PackageRelocation × DependencySection)) (state : Manifest × Bool),
      (steps.foldl (relocateStep usage) state).2 = false →
        ∀ step ∈ steps, stepResult? usage state.1 step = none := by
    intro steps
    induction steps with
    | nil => exact fun state _ step member => absurd member List.not_mem_nil
    | cons step steps ih =>
        intro state unchanged
        rw [List.foldl_cons] at unchanged
        cases result : stepResult? usage state.1 step with
        | none =>
            rw [relocateStep_of_none result] at unchanged
            exact List.forall_mem_cons.2 ⟨result, ih state unchanged⟩
        | some later =>
            rw [relocateStep_of_some result, stays] at unchanged
            · cases unchanged
            · rfl
  rw [relocateDependencies_eq_foldl]
  intro unchanged part entries present relocation member
  have step : (relocation, part) ∈ sectionSteps packages :=
    List.mem_flatMap.2 ⟨relocation, member, List.mem_map.2 ⟨part, by cases part <;> decide, rfl⟩⟩
  exact Option.bind_eq_none_iff.1 (run _ _ unchanged _ step) entries present

/-- If every dependency must be kept, all keep their values. -/
theorem get?_relocateDependencies_of_keeps (keeps : ∀ package, usage.keeps package = true)
    (distinct : manifest.HasDistinctKeys) {part : DependencySection} {entries : Fields}
    (present : manifest.section? part = some entries) {name : String} {value : Value}
    (found : entries.get? name = some value) :
    ∃ later, (relocateDependencies packages usage manifest).1.section? part = some later ∧
      later.get? name = some value := by
  refine ⟨relocateAll usage packages entries, ?_, ?_⟩
  · rw [section?_relocateDependencies, present, Option.map_some]
  · have both := List.foldlRecOn
      (motive := fun entries : Fields => (entries.map Prod.fst).Nodup ∧
        entries.get? name = some value)
      packages (fun entries relocation =>
        relocatedEntries (usage.keeps relocation.origin) relocation entries)
      ⟨distinct.entries part entries present, found⟩
      (by
        rintro later ⟨distinct, found⟩ relocation _
        refine ⟨nodup_relocatedEntries distinct, ?_⟩
        rw [get?_relocatedEntries _ _ distinct, found, keeps]
        simp)
    exact both.2

end Runs

/-! ## What relocations make of a manifest -/

section Main

variable {packages : List PackageRelocation} {usage : Usage} {manifest : Manifest}
  (once : (packageNames packages).Nodup) (distinct : manifest.HasDistinctKeys)
include once distinct

/-- A change is reported exactly if there is one. -/
theorem snd_relocateDependencies_iff :
    (relocateDependencies packages usage manifest).2 = true ↔
      (relocateDependencies packages usage manifest).1 ≠ manifest := by
  constructor
  · intro changed equal
    have unchanged : (relocateDependencies packages usage manifest).2 = false := by
      refine snd_relocateDependencies_eq_false_iff.2 fun part entries present => ?_
      have after := section?_relocateDependencies usage packages manifest part
      rw [equal, present, Option.map_some, Option.some.injEq] at after
      refine (settled_iff once (distinct.entries part entries present)).2 fun name => ?_
      rw [← after]
    rw [unchanged] at changed
    cases changed
  · intro different
    rw [← Bool.not_eq_false, snd_relocateDependencies_eq_false_iff]
    intro settled
    rw [relocateDependencies_of_settled settled] at different
    exact different rfl

/-- The order of relocations does not matter. -/
theorem relocateDependencies_perm {others : List PackageRelocation}
    (perm : others.Perm packages) :
    relocateDependencies others usage manifest = relocateDependencies packages usage manifest := by
  refine Prod.ext ?_ ?_
  · refine sameFrame_relocateDependencies.eq_of_section? distinct.keys
      sameFrame_relocateDependencies fun part => ?_
    rw [section?_relocateDependencies, section?_relocateDependencies]
    cases present : manifest.section? part with
    | none => rfl
    | some entries =>
        rw [Option.map_some, Option.map_some,
          relocateAll_perm (distinct.entries part entries present) once perm]
  · rw [Bool.eq_iff_iff, ← not_iff_not, Bool.not_eq_true, Bool.not_eq_true,
      snd_relocateDependencies_eq_false_iff, snd_relocateDependencies_eq_false_iff]
    simp only [perm.mem_iff]

/-- Relocations have nothing more to do in a manifest where they have been carried out. -/
theorem relocateDependencies_twice :
    relocateDependencies packages usage (relocateDependencies packages usage manifest).1 =
      ((relocateDependencies packages usage manifest).1, false) := by
  refine relocateDependencies_of_settled fun part later present => ?_
  rw [section?_relocateDependencies] at present
  obtain ⟨entries, before, rfl⟩ := Option.map_eq_some_iff.1 present
  exact settled_relocateAll once (distinct.entries part entries before)

/-- **Relocation of the dependencies in a manifest**: only the entries of sections change, each
section as relocations make it of its entries; a change is reported exactly if there is one, in
whatever order the relocations are; and carrying them out again changes nothing. -/
theorem relocateDependencies_relocates :
    manifest.SameFrame (relocateDependencies packages usage manifest).1 ∧
      (∀ part old, manifest.section? part = some old →
        ∃ new, (relocateDependencies packages usage manifest).1.section? part = some new ∧
          EntriesRelocated usage packages old new) ∧
      ((relocateDependencies packages usage manifest).2 = true ↔
        (relocateDependencies packages usage manifest).1 ≠ manifest) ∧
      (∀ others, others.Perm packages →
        relocateDependencies others usage manifest =
          relocateDependencies packages usage manifest) ∧
      relocateDependencies packages usage (relocateDependencies packages usage manifest).1 =
        ((relocateDependencies packages usage manifest).1, false) := by
  refine ⟨sameFrame_relocateDependencies, fun part old present => ?_,
    snd_relocateDependencies_iff once distinct,
    fun others perm => relocateDependencies_perm once distinct perm,
    relocateDependencies_twice once distinct⟩
  refine ⟨relocateAll usage packages old, ?_,
    entriesRelocated_relocateAll (distinct.entries part old present) once⟩
  rw [section?_relocateDependencies, present, Option.map_some]

end Main

/-- Relocations of two packages. -/
def twoRelocations : List PackageRelocation :=
  [⟨"old", "new", "^2.0.0"⟩, ⟨"lib", "core", "^1.0.0"⟩]

/-- A manifest with sections that have both old dependencies, a new one besides, and none. -/
def threeSections : Manifest :=
  ⟨[("name", .string "app"),
    ("dependencies", .object [("zod", .string "3"), ("old", .string "1"), ("lib", .string "1")]),
    ("devDependencies", .object [("new", .string "*"), ("lib", .string "0")]),
    ("peerDependencies", .object [("react", .string "18"), ("qs", .string "6")])]⟩

/-- The usage of a package whose sources retain a part of one old dependency. -/
def retainsLib : Usage :=
  ⟨Table.empty, Table.ofList [("lib/part", ())], false⟩

theorem relocateDependencies_relocates_threeSections :
    (packageNames twoRelocations).Nodup ∧ threeSections.HasDistinctKeys ∧
      let result := relocateDependencies twoRelocations retainsLib threeSections
      threeSections.SameFrame result.1 ∧
        (∀ part old, threeSections.section? part = some old →
          ∃ new, result.1.section? part = some new ∧
            EntriesRelocated retainsLib twoRelocations old new) ∧
        (result.2 = true ↔ result.1 ≠ threeSections) ∧
        (∀ others, others.Perm twoRelocations →
          relocateDependencies others retainsLib threeSections = result) ∧
        relocateDependencies twoRelocations retainsLib result.1 = (result.1, false) := by
  have once : (packageNames twoRelocations).Nodup := by decide
  have distinct : threeSections.HasDistinctKeys := by
    refine ⟨by decide, fun part entries present => ?_⟩
    cases part <;> cases present <;> decide
  exact ⟨once, distinct, relocateDependencies_relocates once distinct⟩

/-- Where a package occurs twice, the order of relocations matters. -/
example :
    (relocateDependencies [⟨"a", "b", "1"⟩, ⟨"b", "c", "1"⟩] Usage.empty
        ⟨[("dependencies", .object [("a", .string "0")])]⟩).1.Declares .runtime "c" ∧
      ¬ (relocateDependencies [⟨"b", "c", "1"⟩, ⟨"a", "b", "1"⟩] Usage.empty
        ⟨[("dependencies", .object [("a", .string "0")])]⟩).1.Declares .runtime "c" := by
  decide +kernel

end Codemod.Imports

end Uplift
