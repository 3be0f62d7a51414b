import Uplift.Proofs.Workspace.Bumping

/-!
# The log of an upgraded manifest

Putting approved versions into a manifest replaces the version of every range that is understood and
whose package is approved, and leaves all else in place, the order of the keys included.  The
changes that are returned are an exact account of that: one for each place whose text is another
afterwards, with the old and the new text, by section and then by name (`bumped_of_bumpRanges`).

An entry is not looked at again once its version was put in, so the changes of a section can be read
off its entries as they were before the first replacement (`bumpEntries_snd`).
-/

set_option autoImplicit false

namespace Uplift

open Json (Fields Value)

/-! ## Places -/

/-- The place of a section in the order in which sections are visited. -/
def DependencySection.place (part : DependencySection) : Nat :=
  DependencySection.all.idxOf part

/-- The value that a section of a manifest has for a package. -/
def Manifest.valueAt? (manifest : Manifest) (part : DependencySection) (name : String) :
    Option Value :=
  (manifest.section? part).bind fun entries => entries.get? name

/-- The text that a section of a manifest has for a package. -/
def Manifest.rangeAt? (manifest : Manifest) (part : DependencySection) (name : String) :
    Option String :=
  (manifest.valueAt? part name).bind Value.text?

namespace Workspace

/-- A change comes before another by its section, then by the name of its package. -/
def DependencyChange.Before (first second : DependencyChange) : Prop :=
  ∃ here there : DependencySection, first.part = here.key ∧ second.part = there.key ∧
    (here.place < there.place ∨ here = there ∧ first.name < second.name)

/-- The place holds a range that is understood, with this lead, and the version is approved for its
package. -/
def Replaces (approved : Table String) (manifest : Manifest) (part : DependencySection)
    (name : String) (range : Range) (target : String) : Prop :=
  approved.get? name = some target ∧
    ∃ raw, manifest.valueAt? part name = some (.string raw) ∧ Range.parse? raw = some range

/-- The manifest `after` is the manifest `before` with approved versions, and `changes` is an exact
account of the difference. -/
structure Bumped (relative : String) (approved : Table String) (before after : Manifest)
    (changes : List DependencyChange) : Prop where
  /-- A range that is understood keeps its lead and gets the version of its package. -/
  replaced : ∀ part name range target, Replaces approved before part name range target →
    after.valueAt? part name = some (.string (range.lead ++ target))
  /-- Every other entry of a section is as before. -/
  kept : ∀ part name, (∀ range target, ¬Replaces approved before part name range target) →
    after.valueAt? part name = before.valueAt? part name
  /-- The entries of a section are in the order they had. -/
  entryOrder : ∀ part, (after.section? part).map Fields.keys = (before.section? part).map Fields.keys
  /-- A value that is no section, under whatever key, is as before. -/
  elsewhere : ∀ key, (∀ part : DependencySection, part.key = key → before.section? part = none) →
    after.fields.get? key = before.fields.get? key
  /-- The fields are in the order they had. -/
  fieldOrder : after.fields.keys = before.fields.keys
  /-- There is a change for every place whose text is another, with both texts, and no other. -/
  logged : ∀ change, change ∈ changes ↔
    ∃ part : DependencySection, change.manifest = relative ∧ change.part = part.key ∧
      before.rangeAt? part change.name = some change.origin ∧
      after.rangeAt? part change.name = some change.destination ∧
      change.origin ≠ change.destination
  /-- The changes are in the order of their places, so no place has two of them. -/
  ordered : changes.Pairwise DependencyChange.Before
  /-- There are no changes exactly if the manifest is as before. -/
  unchanged : changes = [] ↔ after = before

/-! ## The changes of a section -/

/-- The change that an approved version makes to entries. -/
def change? (relative : String) (part : DependencySection) (entries : Fields)
    (target : String × String) : Option DependencyChange :=
  (bumped? entries target.1 target.2).map fun texts =>
    ⟨relative, part.key, target.1, texts.1, texts.2⟩

/-- What becomes of one entry does not depend on the others. -/
theorem bumped?_insert {name other : String} (different : name ≠ other) (entries : Fields)
    (value : Value) (target : String) :
    bumped? (entries.insert name value) other target = bumped? entries other target := by
  rw [bumped?, bumped?, Fields.get?_insert, if_neg different]

/-- **The changes of a section are those that each version makes to the entries as they were.** -/
theorem bumpEntries_snd (relative : String) (part : DependencySection)
    {targets : List (String × String)} (names : (targets.map Prod.fst).Nodup) (entries : Fields) :
    (bumpEntries relative part targets entries).2 =
      targets.filterMap (change? relative part entries) := by
  induction targets generalizing entries with
  | nil => rfl
  | cons first targets ih =>
      obtain ⟨name, target⟩ := first
      obtain ⟨fresh, names⟩ := List.nodup_cons.1 names
      rw [bumpEntries]
      split
      next stays =>
        have absent : change? relative part entries (name, target) = none := by
          rw [change?, stays]
          rfl
        rw [ih names, List.filterMap_cons_none absent]
      next current next bumped =>
        have present : change? relative part entries (name, target) =
            some ⟨relative, part.key, name, current, next⟩ := by
          rw [change?, bumped]
          rfl
        have later : targets.filterMap (change? relative part (entries.insert name (.string next))) =
            targets.filterMap (change? relative part entries) := by
          refine List.filterMap_congr fun other member => ?_
          have different : name ≠ other.1 := by
            rintro rfl
            exact fresh (List.mem_map.2 ⟨other, member, rfl⟩)
          rw [change?, change?, bumped?_insert different]
        rw [List.filterMap_cons_some present, ← later, ← ih names]

theorem change?_eq_some_iff {relative : String} {part : DependencySection} {entries : Fields}
    {target : String × String} {change : DependencyChange} :
    change? relative part entries target = some change ↔
      change.manifest = relative ∧ change.part = part.key ∧ change.name = target.1 ∧
        bumped? entries target.1 target.2 = some (change.origin, change.destination) := by
  obtain ⟨manifest, key, name, origin, destination⟩ := change
  simp only [change?, Option.map_eq_some_iff, DependencyChange.mk.injEq, Prod.exists]
  constructor
  · rintro ⟨_, _, bumped, rfl, rfl, rfl, rfl, rfl⟩
    exact ⟨rfl, rfl, rfl, bumped⟩
  · rintro ⟨rfl, rfl, rfl, bumped⟩
    exact ⟨_, _, bumped, rfl, rfl, rfl, rfl, rfl⟩

/-! ## The changes of a manifest -/

/-- The changes that approved versions make to a section of a manifest. -/
def sectionChanges (relative : String) (approved : Table String) (manifest : Manifest)
    (part : DependencySection) : List DependencyChange :=
  match manifest.section? part with
  | none => []
  | some entries => approved.entries.filterMap (change? relative part entries)

/-- The changes of a manifest are those of its sections as they were. -/
theorem bumpSections_snd (relative : String) (approved : Table String)
    {parts : List DependencySection} (once : parts.Nodup) (manifest : Manifest) :
    (bumpSections relative approved parts manifest).2 =
      parts.flatMap (sectionChanges relative approved manifest) := by
  induction parts generalizing manifest with
  | nil => rfl
  | cons part parts ih =>
      obtain ⟨fresh, once⟩ := List.nodup_cons.1 once
      rw [bumpSections, List.flatMap_cons, sectionChanges]
      cases manifest.section? part with
      | none => exact ih once manifest
      | some entries =>
        have later : ∀ replaced, parts.flatMap
            (sectionChanges relative approved (manifest.setSection part replaced)) =
              parts.flatMap (sectionChanges relative approved manifest) := by
          intro replaced
          refine List.flatMap_congr fun other member => ?_
          have different : part ≠ other := by
            rintro rfl
            exact fresh member
          rw [sectionChanges, sectionChanges, Manifest.section?_setSection, if_neg different]
        have names : (approved.entries.map Prod.fst).Nodup :=
          approved.pairwise_names.imp String.ne_of_lt
        simp only [bumpEntries_snd relative part names, ih once, later]

theorem mem_sectionChanges_iff {relative : String} {approved : Table String} {manifest : Manifest}
    {part : DependencySection} {change : DependencyChange} :
    change ∈ sectionChanges relative approved manifest part ↔
      change.manifest = relative ∧ change.part = part.key ∧
        manifest.rangeAt? part change.name = some change.origin ∧
        change.destination = bumpedText (approved.get? change.name) change.origin ∧
        change.origin ≠ change.destination := by
  rw [sectionChanges, Manifest.rangeAt?, Manifest.valueAt?]
  cases manifest.section? part with
  | none => simp
  | some entries =>
      rw [List.mem_filterMap, Option.bind_some]
      constructor
      · rintro ⟨⟨name, target⟩, member, made⟩
        obtain ⟨here, key, rfl, bumped⟩ := change?_eq_some_iff.1 made
        obtain ⟨found, range, parsed, moved, different⟩ := bumped?_eq_some_iff.1 bumped
        refine ⟨here, key, found, ?_, different.symm⟩
        rw [Table.get?_eq_some_iff.2 member, bumpedText, parsed, moved]
        rfl
      · rintro ⟨here, key, found, moved, different⟩
        cases given : approved.get? change.name with
        | none =>
            rw [given, bumpedText_none] at moved
            exact absurd moved.symm different
        | some target =>
            cases parsed : Range.parse? change.origin with
            | none =>
                rw [given, bumpedText, parsed] at moved
                exact absurd moved.symm different
            | some range =>
                rw [given, bumpedText, parsed] at moved
                exact ⟨(change.name, target), Table.get?_eq_some_iff.1 given,
                  change?_eq_some_iff.2 ⟨here, key, rfl, bumped?_eq_some_iff.2
                    ⟨found, range, parsed, moved, different.symm⟩⟩⟩

theorem pairwise_sectionChanges (relative : String) (approved : Table String) (manifest : Manifest)
    (part : DependencySection) :
    (sectionChanges relative approved manifest part).Pairwise fun first second =>
      first.name < second.name := by
  rw [sectionChanges]
  split
  next => exact List.Pairwise.nil
  next entries _ =>
    refine approved.ascending.filterMap _ fun first second before change made other made' => ?_
    obtain ⟨_, _, name, _⟩ := change?_eq_some_iff.1 made
    obtain ⟨_, _, name', _⟩ := change?_eq_some_iff.1 made'
    rw [name, name']
    exact before

theorem pairwise_place : DependencySection.all.Pairwise fun first second =>
    first.place < second.place := by
  decide

/-- **The changes are in the order of their places.** -/
theorem pairwise_bumpRanges (relative : String) (approved : Table String) (manifest : Manifest) :
    (bumpRanges relative approved manifest).2.Pairwise DependencyChange.Before := by
  rw [bumpRanges, bumpSections_snd relative approved (by decide), List.pairwise_flatMap]
  refine ⟨fun part _ => ?_, pairwise_place.imp fun earlier first member second member' => ?_⟩
  · refine (pairwise_sectionChanges relative approved manifest part).imp_of_mem
      fun member member' before => ?_
    exact ⟨part, part, (mem_sectionChanges_iff.1 member).2.1,
      (mem_sectionChanges_iff.1 member').2.1, .inr ⟨rfl, before⟩⟩
  · exact ⟨_, _, (mem_sectionChanges_iff.1 member).2.1, (mem_sectionChanges_iff.1 member').2.1,
      .inl earlier⟩

/-! ## The manifest afterwards -/

section After

variable {approved : Table String} {manifest : Manifest}

theorem valueAt?_bumpedManifest (approved : Table String) (manifest : Manifest)
    (part : DependencySection) (name : String) :
    (bumpedManifest approved manifest).valueAt? part name =
      (manifest.valueAt? part name).map (bumpedValue (approved.get? name)) := by
  rw [Manifest.valueAt?, Manifest.valueAt?, section?_bumpedManifest]
  cases manifest.section? part with
  | none => rfl
  | some entries => exact Fields.get?_mapKeyed entries name

theorem rangeAt?_bumpedManifest (approved : Table String) (manifest : Manifest)
    (part : DependencySection) (name : String) :
    (bumpedManifest approved manifest).rangeAt? part name =
      (manifest.rangeAt? part name).map (bumpedText (approved.get? name)) := by
  rw [Manifest.rangeAt?, Manifest.rangeAt?, valueAt?_bumpedManifest]
  cases manifest.valueAt? part name with
  | none => rfl
  | some value => exact text?_bumpedValue _ value

/-- A range that is replaced keeps its lead. -/
theorem valueAt?_bumpedManifest_of_replaces {part : DependencySection} {name target : String}
    {range : Range} (replaces : Replaces approved manifest part name range target) :
    (bumpedManifest approved manifest).valueAt? part name =
      some (.string (range.lead ++ target)) := by
  obtain ⟨given, raw, found, parsed⟩ := replaces
  rw [valueAt?_bumpedManifest, found, given, Option.map_some, bumpedValue, bumpedText, parsed]
  rfl

/-- An entry that is not replaced stays. -/
theorem valueAt?_bumpedManifest_of_kept {part : DependencySection} {name : String}
    (kept : ∀ range target, ¬Replaces approved manifest part name range target) :
    (bumpedManifest approved manifest).valueAt? part name = manifest.valueAt? part name := by
  rw [valueAt?_bumpedManifest]
  cases given : approved.get? name with
  | none =>
      have same : bumpedValue none = id := funext bumpedValue_none
      rw [same, Option.map_id, id]
  | some target =>
      cases found : manifest.valueAt? part name with
      | none => rfl
      | some value =>
          cases value with
          | string raw =>
              cases parsed : Range.parse? raw with
              | none => rw [Option.map_some, bumpedValue, bumpedText, parsed]; rfl
              | some range => exact absurd ⟨given, raw, found, parsed⟩ (kept range target)
          | _ => rfl

/-- A value that is no section stays. -/
theorem get?_bumpedManifest_of_no_section {key : String}
    (none : ∀ part : DependencySection, part.key = key → manifest.section? part = none) :
    (bumpedManifest approved manifest).fields.get? key = manifest.fields.get? key := by
  rw [bumpedManifest, Fields.get?_mapKeyed]
  cases found : manifest.fields.get? key with
  | none => rfl
  | some value =>
      rw [Option.map_some, bumpedField]
      split
      next isSection =>
        obtain ⟨part, _, rfl⟩ := List.mem_map.1 isSection
        cases value with
        | object entries =>
            have present := none part rfl
            rw [Manifest.section?_eq_some_iff.2 found] at present
            cases present
        | _ => rfl
      next => rfl

/-- **There is a change for every text that is another afterwards, and no other.** -/
theorem mem_bumpRanges_iff {relative : String} {change : DependencyChange} :
    change ∈ (bumpRanges relative approved manifest).2 ↔
      ∃ part : DependencySection, change.manifest = relative ∧ change.part = part.key ∧
        manifest.rangeAt? part change.name = some change.origin ∧
        (bumpedManifest approved manifest).rangeAt? part change.name = some change.destination ∧
        change.origin ≠ change.destination := by
  have every : ∀ part, part ∈ DependencySection.all := by
    intro part
    cases part <;> decide
  rw [bumpRanges, bumpSections_snd relative approved (by decide), List.mem_flatMap]
  refine exists_congr fun part => ?_
  rw [mem_sectionChanges_iff, rangeAt?_bumpedManifest, and_iff_right (every part)]
  refine and_congr_right fun _ => and_congr_right fun _ => and_congr_right fun found => ?_
  rw [found, Option.map_some, Option.some.injEq, eq_comm]

/-- Without changes the manifest is as before, and a manifest that is as before has no changes. -/
theorem bumpRanges_snd_eq_nil_iff (relative : String) (distinct : manifest.HasDistinctKeys) :
    (bumpRanges relative approved manifest).2 = [] ↔ bumpedManifest approved manifest = manifest := by
  refine ⟨bumpedManifest_of_no_changes distinct, fun same => ?_⟩
  refine List.eq_nil_iff_forall_not_mem.2 fun change member => ?_
  obtain ⟨part, _, _, before, after, different⟩ := mem_bumpRanges_iff.1 member
  rw [same, before, Option.some.injEq] at after
  exact different after

/-- **Putting approved versions into a manifest** changes the understood ranges of approved packages
and nothing else, and the changes that it returns are an exact account.  Keys are distinct in every
manifest that is read (`Manifest.hasDistinctKeys`). -/
theorem bumped_of_bumpRanges (relative : String) (approved : Table String) (manifest : Manifest)
    (distinct : manifest.HasDistinctKeys) :
    Bumped relative approved manifest (bumpRanges relative approved manifest).1
      (bumpRanges relative approved manifest).2 := by
  rw [bumpRanges_fst relative approved distinct]
  exact {
    replaced := fun _ _ _ _ => valueAt?_bumpedManifest_of_replaces
    kept := fun _ _ => valueAt?_bumpedManifest_of_kept
    entryOrder := fun part => by
      rw [section?_bumpedManifest, Option.map_map]
      exact Option.map_congr fun entries _ => Fields.names_mapKeyed _ entries
    elsewhere := fun _ => get?_bumpedManifest_of_no_section
    fieldOrder := Fields.names_mapKeyed _ manifest.fields
    logged := fun _ => mem_bumpRanges_iff
    ordered := pairwise_bumpRanges relative approved manifest
    unchanged := bumpRanges_snd_eq_nil_iff relative distinct }

end After

/-- A manifest with a package in two sections, a tag, a number where a range should be, and a
section that is none. -/
def mixedManifest : Manifest :=
  ⟨[("name", .string "app"),
    ("devDependencies", .object [("b", .string "workspace:~1.0.0"), ("a", .string ">=1.0.0")]),
    ("dependencies", .object [("c", .string "latest"), ("a", .string "^1.0.0"),
      ("b", .number (.integer 1))]),
    ("peerDependencies", .array [])]⟩

/-- Versions approved for its packages. -/
def mixedApproval : Table String :=
  .ofList [("c", "3.0.0"), ("a", "2.0.0"), ("b", "1.5.0")]

/-- The ranges of the manifest are replaced in both sections; the changes are by section, and by
name within a section. -/
theorem bumped_of_bumpRanges_mixedManifest :
    mixedManifest.HasDistinctKeys ∧
      Bumped "package.json" mixedApproval mixedManifest
        (bumpRanges "package.json" mixedApproval mixedManifest).1
        (bumpRanges "package.json" mixedApproval mixedManifest).2 ∧
      (bumpRanges "package.json" mixedApproval mixedManifest).2 =
        [⟨"package.json", "dependencies", "a", "^1.0.0", "^2.0.0"⟩,
          ⟨"package.json", "devDependencies", "a", ">=1.0.0", ">=2.0.0"⟩,
          ⟨"package.json", "devDependencies", "b", "workspace:~1.0.0", "workspace:~1.5.0"⟩] := by
  have distinct : mixedManifest.HasDistinctKeys := by
    refine ⟨by decide, fun part entries present => ?_⟩
    cases part <;> cases present <;> decide
  exact ⟨distinct, bumped_of_bumpRanges _ _ _ distinct, by decide⟩

end Workspace

end Uplift
