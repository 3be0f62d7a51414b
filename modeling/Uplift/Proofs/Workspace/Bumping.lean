import Uplift.Proofs.Codemod.Dependencies
import Uplift.Proofs.Json.Rereading
import Uplift.Proofs.Range
import Uplift.Proofs.Table
import Uplift.Proofs.Workspace.Ranges

/-!
# Manifests with approved versions

Putting approved versions into a manifest changes the ranges in its sections one by one, each by a
rule that depends on the name of its package alone (`bumpRanges_fst`).  What is written is read as
the same manifest, apart from numbers (`parse_render_bumped`), and putting the same versions into
that makes no further change (`bumpRanges_reread_bumped`): a range that was replaced is read with
the same lead and version, or is not understood any more.
-/

set_option autoImplicit false

namespace Uplift

/-! ## Fields changed by their keys -/

namespace Json.Fields

/-- Fields with their values changed by a rule for each key. -/
def mapKeyed (change : String → Value → Value) (fields : Fields) : Fields :=
  fields.map fun field => (field.1, change field.1 field.2)

/-- The rule that changes the value of one key. -/
def only (key : String) (change : Value → Value) (other : String) (value : Value) : Value :=
  if other = key then change value else value

variable {change later : String → Value → Value}

@[simp] theorem names_mapKeyed (change : String → Value → Value) (fields : Fields) :
    (mapKeyed change fields).map Prod.fst = fields.map Prod.fst := by
  simp [mapKeyed]

theorem mapKeyed_congr {fields : Fields}
    (same : ∀ field ∈ fields, change field.1 field.2 = later field.1 field.2) :
    mapKeyed change fields = mapKeyed later fields :=
  List.map_congr_left fun field member => by rw [same field member]

theorem mapKeyed_mapKeyed (fields : Fields) :
    mapKeyed later (mapKeyed change fields) =
      mapKeyed (fun key value => later key (change key value)) fields := by
  simp [mapKeyed]

theorem mapKeyed_eq_self {fields : Fields}
    (same : ∀ field ∈ fields, change field.1 field.2 = field.2) :
    mapKeyed change fields = fields := by
  have kept : mapKeyed change fields = mapKeyed (fun _ value => value) fields :=
    mapKeyed_congr same
  rw [kept]
  exact List.map_id fields

theorem get?_mapKeyed (fields : Fields) (key : String) :
    get? (mapKeyed change fields) key = (get? fields key).map (change key) := by
  induction fields with
  | nil => rfl
  | cons field fields ih =>
      obtain ⟨name, value⟩ := field
      rw [mapKeyed, List.map_cons, ← mapKeyed, get?, get?, ih]
      split
      next same => rw [same]; rfl
      next => rfl

theorem insert_self {fields : Fields} {key : String} {value : Value}
    (found : get? fields key = some value) : insert fields key value = fields := by
  induction fields with
  | nil => cases found
  | cons field fields ih =>
      obtain ⟨name, old⟩ := field
      rw [get?] at found
      rw [insert]
      split at found
      next same =>
        cases found
        rw [if_pos same]
      next different => rw [if_neg different, ih found]

/-- Changing the value of one key is setting the key, where keys are distinct. -/
theorem mapKeyed_only {fields : Fields} (distinct : (fields.map Prod.fst).Nodup) {key : String}
    {value : Value} (found : get? fields key = some value) (change : Value → Value) :
    mapKeyed (only key change) fields = insert fields key (change value) := by
  induction fields with
  | nil => cases found
  | cons field fields ih =>
      obtain ⟨name, old⟩ := field
      obtain ⟨fresh, rest⟩ := List.nodup_cons.1 distinct
      rw [get?] at found
      rw [mapKeyed, List.map_cons, ← mapKeyed, insert, only]
      split at found
      next same =>
        cases found
        subst same
        have others : mapKeyed (only name change) fields = fields :=
          mapKeyed_eq_self fun field member =>
            if_neg fun same : field.1 = name =>
              fresh (List.mem_map.2 ⟨field, member, same⟩)
        rw [if_pos rfl, if_pos rfl, others]
      next different => rw [if_neg different, if_neg different, ih rest found]

theorem mapKeyed_only_of_absent {fields : Fields} {key : String}
    (absent : get? fields key = none) (change : Value → Value) :
    mapKeyed (only key change) fields = fields := by
  refine mapKeyed_eq_self fun field member => if_neg fun same => ?_
  have present := contains_iff.2 (List.mem_map_of_mem (f := Prod.fst) member)
  rw [same, contains, absent] at present
  cases present

end Json.Fields

theorem Json.Legible.mapKeyed {depth : Nat} {fields : Fields} {change : String → Value → Value}
    (legible : Legible depth (.object fields))
    (keeps : ∀ depth key value, Legible depth value → Legible depth (change key value)) :
    Legible depth (.object (Fields.mapKeyed change fields)) := by
  cases legible with
  | object legible distinct =>
      refine .object (fun field member => ?_) (by rwa [Fields.names_mapKeyed])
      obtain ⟨before, among, rfl⟩ := List.mem_map.1 member
      exact keeps _ _ _ (legible before among)

namespace Workspace

open Json (Fields Value)

/-! ## Ranges -/

/-- The text of a range when a version is approved for its package, or none. -/
def bumpedText (target? : Option String) (raw : String) : String :=
  match target? with
  | none => raw
  | some target => ((Range.parse? raw).map fun range => range.retarget target).getD raw

/-- An entry of a section when a version is approved for its package, or none. -/
def bumpedValue (target? : Option String) : Value → Value
  | .string raw => .string (bumpedText target? raw)
  | value => value

@[simp] theorem bumpedText_none (raw : String) : bumpedText none raw = raw := rfl

@[simp] theorem bumpedValue_none (value : Value) : bumpedValue none value = value := by
  cases value <;> rfl

@[simp] theorem text?_bumpedValue (target? : Option String) (value : Value) :
    (bumpedValue target? value).text? = value.text?.map (bumpedText target?) := by
  cases value <;> rfl

theorem eq_string_of_text? {value : Value} {text : String} (isText : value.text? = some text) :
    value = .string text := by
  cases value with
  | string raw =>
      cases isText
      rfl
  | _ => cases isText

theorem legible_bumpedValue (target? : Option String) {depth : Nat} {value : Value}
    (legible : Json.Legible depth value) : Json.Legible depth (bumpedValue target? value) := by
  cases legible with
  | string depth text => exact .string depth _
  | null => exact .null _
  | bool => exact .bool _ _
  | number _ sound => exact .number _ sound
  | array items => exact .array items
  | object fields distinct => exact .object fields distinct

/-- **A version that is accepted is put into a range once.**  Afterwards the range is read with the
same lead and this version, or is not understood. -/
theorem bumpedText_bumpedText {target : String}
    (accepted : (Version.parseLoose? target).isSome = true) (raw : String) :
    bumpedText (some target) (bumpedText (some target) raw) = bumpedText (some target) raw := by
  obtain ⟨version, reads⟩ := Option.isSome_iff_exists.1 accepted
  have starts := Range.startsVersion_of_parseLoose? reads
  cases parsed : Range.parse? raw with
  | none =>
      have same : bumpedText (some target) raw = raw := by rw [bumpedText, parsed]; rfl
      rw [same, same]
  | some range =>
      have moved : bumpedText (some target) raw = range.retarget target := by
        rw [bumpedText, parsed]
        rfl
      rw [moved, bumpedText, Range.parse?_retarget range starts]
      split
      · rfl
      · rfl

/-! ## Entries -/

/-- The entries of a section with approved versions. -/
def bumpedEntries (target? : String → Option String) : Fields → Fields :=
  Fields.mapKeyed fun name => bumpedValue (target? name)

/-- A range is not changed exactly if the entry is what it is with the version. -/
theorem bumped?_eq_none_iff {entries : Fields} {name target : String} :
    bumped? entries name target = none ↔
      ∀ value, entries.get? name = some value → bumpedValue (some target) value = value := by
  rw [Option.eq_none_iff_forall_ne_some]
  constructor
  · intro none value found
    by_contra changed
    cases value with
    | string raw =>
        cases parsed : Range.parse? raw with
        | none => exact changed (by rw [bumpedValue, bumpedText, parsed]; rfl)
        | some range =>
            have moved : bumpedValue (some target) (.string raw) =
                .string (range.retarget target) := by
              rw [bumpedValue, bumpedText, parsed]
              rfl
            refine none (raw, range.retarget target) (bumped?_eq_some_iff.2 ⟨?_, range, parsed,
              rfl, fun same => changed (by rw [moved, same])⟩)
            rw [found]
            rfl
    | _ => exact changed rfl
  · rintro same ⟨current, next⟩ bumped
    obtain ⟨found, range, parsed, rfl, different⟩ := bumped?_eq_some_iff.1 bumped
    obtain ⟨value, there, isText⟩ := Option.bind_eq_some_iff.1 found
    cases eq_string_of_text? isText
    have unchanged := same _ there
    rw [bumpedValue, bumpedText, parsed] at unchanged
    exact different (Value.string.inj unchanged)

/-- What replaces a range is what the entry is with the version. -/
theorem bumpedValue_of_bumped? {entries : Fields} {name target current next : String}
    (bumped : bumped? entries name target = some (current, next)) :
    entries.get? name = some (.string current) ∧
      bumpedValue (some target) (.string current) = .string next := by
  obtain ⟨found, range, parsed, rfl, _⟩ := bumped?_eq_some_iff.1 bumped
  obtain ⟨value, there, isText⟩ := Option.bind_eq_some_iff.1 found
  cases eq_string_of_text? isText
  refine ⟨there, ?_⟩
  rw [bumpedValue, bumpedText, parsed]
  rfl

/-- The version that a list has for a name. -/
def targetIn? (targets : List (String × String)) (name : String) : Option String :=
  (targets.find? fun target => target.1 = name).map Prod.snd

theorem targetIn?_cons (name target : String) (targets : List (String × String)) (other : String) :
    targetIn? ((name, target) :: targets) other =
      if name = other then some target else targetIn? targets other := by
  rw [targetIn?, List.find?_cons]
  by_cases same : name = other
  · simp [same]
  · simp [same, targetIn?]

theorem targetIn?_eq_none {targets : List (String × String)} {name : String}
    (absent : name ∉ targets.map Prod.fst) : targetIn? targets name = none := by
  rw [targetIn?, Option.map_eq_none_iff, List.find?_eq_none]
  intro target member same
  exact absent (of_decide_eq_true same ▸ List.mem_map_of_mem member)

/-- One version after others is put into the entries with those. -/
theorem bumpedEntries_cons {name target : String} {targets : List (String × String)}
    (fresh : name ∉ targets.map Prod.fst) (entries : Fields) :
    bumpedEntries (targetIn? ((name, target) :: targets)) entries =
      bumpedEntries (targetIn? targets)
        (Fields.mapKeyed (Fields.only name (bumpedValue (some target))) entries) := by
  rw [bumpedEntries, bumpedEntries, Fields.mapKeyed_mapKeyed]
  refine Fields.mapKeyed_congr fun entry _ => ?_
  rw [targetIn?_cons, Fields.only]
  by_cases same : entry.1 = name
  · rw [if_pos same.symm, if_pos same, same, targetIn?_eq_none fresh, bumpedValue_none]
  · rw [if_neg (Ne.symm same), if_neg same]

/-- **Putting versions into entries changes each entry by its name alone.** -/
theorem bumpEntries_fst (relative : String) (part : DependencySection)
    {targets : List (String × String)} (names : (targets.map Prod.fst).Nodup) {entries : Fields}
    (keys : (entries.map Prod.fst).Nodup) :
    (bumpEntries relative part targets entries).1 = bumpedEntries (targetIn? targets) entries := by
  induction targets generalizing entries with
  | nil => exact (Fields.mapKeyed_eq_self fun _ _ => bumpedValue_none _).symm
  | cons first targets ih =>
      obtain ⟨name, target⟩ := first
      obtain ⟨fresh, names⟩ := List.nodup_cons.1 names
      rw [bumpedEntries_cons fresh, bumpEntries]
      split
      next none =>
        have same : Fields.mapKeyed (Fields.only name (bumpedValue (some target))) entries =
            entries := by
          cases found : entries.get? name with
          | none => exact Fields.mapKeyed_only_of_absent found _
          | some value =>
              rw [Fields.mapKeyed_only keys found, bumped?_eq_none_iff.1 none value found,
                Fields.insert_self found]
        rw [ih names keys, same]
      next current next bumped =>
        obtain ⟨found, moved⟩ := bumpedValue_of_bumped? bumped
        rw [Fields.mapKeyed_only keys found, moved]
        exact ih names (Json.nodup_insert keys _ _)

/-- There are no changes exactly if no range is changed. -/
theorem bumpEntries_snd_eq_nil_iff (relative : String) (part : DependencySection)
    {targets : List (String × String)} {entries : Fields} :
    (bumpEntries relative part targets entries).2 = [] ↔
      ∀ target ∈ targets, bumped? entries target.1 target.2 = none := by
  induction targets with
  | nil => simp [bumpEntries]
  | cons first targets ih =>
      obtain ⟨name, target⟩ := first
      rw [bumpEntries, List.forall_mem_cons]
      split
      next none => rw [ih]; exact (and_iff_right none).symm
      next current next bumped => simp [bumped]

theorem bumpEntries_of_no_changes {relative : String} {part : DependencySection}
    {targets : List (String × String)} {entries : Fields}
    (none : ∀ target ∈ targets, bumped? entries target.1 target.2 = none) :
    bumpEntries relative part targets entries = (entries, []) := by
  induction targets with
  | nil => rfl
  | cons first targets ih =>
      obtain ⟨name, target⟩ := first
      obtain ⟨here, later⟩ := List.forall_mem_cons.1 none
      rw [bumpEntries, here]
      exact ih later

/-! ## Sections -/

/-- The value of a section with approved versions. -/
def bumpedSection (target? : String → Option String) : Value → Value
  | .object entries => .object (bumpedEntries target? entries)
  | value => value

theorem fields?_bumpedSection (target? : String → Option String) (value : Value) :
    (bumpedSection target? value).fields? = value.fields?.map (bumpedEntries target?) := by
  cases value <;> rfl

theorem legible_bumpedSection (target? : String → Option String) {depth : Nat} {value : Value}
    (legible : Json.Legible depth value) : Json.Legible depth (bumpedSection target? value) := by
  cases value with
  | object entries => exact legible.mapKeyed fun _ _ _ => legible_bumpedValue _
  | _ => exact legible

/-- The value of a key of a manifest, with approved versions in some sections. -/
def bumpedField (target? : String → Option String) (parts : List DependencySection)
    (key : String) (value : Value) : Value :=
  if key ∈ parts.map DependencySection.key then bumpedSection target? value else value

/-- A manifest with approved versions. -/
def bumpedManifest (approved : Table String) (manifest : Manifest) : Manifest :=
  ⟨Fields.mapKeyed (bumpedField approved.get? DependencySection.all) manifest.fields⟩

end Workspace

/-- No key is given twice, neither in a manifest nor in one of its sections. -/
structure Manifest.HasDistinctKeys (manifest : Manifest) : Prop where
  keys : (manifest.fields.map Prod.fst).Nodup
  entries : ∀ part entries, manifest.section? part = some entries → (entries.map Prod.fst).Nodup

theorem Manifest.section?_eq_some_iff {manifest : Manifest} {part : DependencySection}
    {entries : Json.Fields} :
    manifest.section? part = some entries ↔
      manifest.fields.get? part.key = some (.object entries) := by
  rw [section?, Option.bind_eq_some_iff]
  constructor
  · rintro ⟨value, found, isObject⟩
    cases value with
    | object fields =>
        cases isObject
        exact found
    | _ => cases isObject
  · intro found
    exact ⟨_, found, rfl⟩

theorem Manifest.HasDistinctKeys.setSection {manifest : Manifest}
    (distinct : manifest.HasDistinctKeys) (part : DependencySection) {entries : Json.Fields}
    (keys : (entries.map Prod.fst).Nodup) : (manifest.setSection part entries).HasDistinctKeys where
  keys := Json.nodup_insert distinct.keys _ _
  entries other given found := by
    rw [section?_setSection] at found
    split at found
    · cases found
      exact keys
    · exact distinct.entries other given found

namespace Workspace

open Json (Fields Value)

/-- Sections after the first are changed after it. -/
theorem mapKeyed_bumpedField_cons {target? : String → Option String} {part : DependencySection}
    {parts : List DependencySection} (fresh : part ∉ parts) (fields : Fields) :
    Fields.mapKeyed (bumpedField target? (part :: parts)) fields =
      Fields.mapKeyed (bumpedField target? parts)
        (Fields.mapKeyed (Fields.only part.key (bumpedSection target?)) fields) := by
  rw [Fields.mapKeyed_mapKeyed]
  refine Fields.mapKeyed_congr fun field _ => ?_
  have other : part.key ∉ parts.map DependencySection.key := by
    rwa [List.mem_map_of_injective DependencySection.key_injective]
  rw [bumpedField, bumpedField, Fields.only, List.map_cons]
  by_cases same : field.1 = part.key
  · rw [if_pos (by rw [same]; exact List.mem_cons_self), if_pos same, if_neg (same ▸ other)]
  · simp only [List.mem_cons, same, false_or, if_false]

theorem bumpSections_fst (relative : String) (approved : Table String)
    {parts : List DependencySection} (once : parts.Nodup) {manifest : Manifest}
    (distinct : manifest.HasDistinctKeys) :
    (bumpSections relative approved parts manifest).1.fields =
      Fields.mapKeyed (bumpedField approved.get? parts) manifest.fields := by
  have names : (approved.entries.map Prod.fst).Nodup :=
    List.Pairwise.map _ (fun first second before => String.ne_of_lt before) approved.ascending
  induction parts generalizing manifest with
  | nil => exact (Fields.mapKeyed_eq_self fun _ _ => rfl).symm
  | cons part parts ih =>
      obtain ⟨fresh, once⟩ := List.nodup_cons.1 once
      rw [mapKeyed_bumpedField_cons fresh, bumpSections]
      split
      next absent =>
        have same : Fields.mapKeyed (Fields.only part.key (bumpedSection approved.get?))
            manifest.fields = manifest.fields := by
          cases found : manifest.fields.get? part.key with
          | none => exact Fields.mapKeyed_only_of_absent found _
          | some value =>
              have stays : bumpedSection approved.get? value = value := by
                cases value with
                | object entries =>
                    rw [Manifest.section?_eq_some_iff.2 found] at absent
                    cases absent
                | _ => rfl
              rw [Fields.mapKeyed_only distinct.keys found, stays, Fields.insert_self found]
        rw [ih once distinct, same]
      next entries present =>
        have keys := distinct.entries part entries present
        have bumped := bumpEntries_fst relative part names keys
        have found := Manifest.section?_eq_some_iff.1 present
        rw [Fields.mapKeyed_only distinct.keys found]
        simp only [bumped]
        refine ih once (distinct.setSection part ?_)
        rwa [bumpedEntries, Fields.names_mapKeyed]

/-- **Putting approved versions into a manifest changes each range by the name of its package
alone.** -/
theorem bumpRanges_fst (relative : String) (approved : Table String) {manifest : Manifest}
    (distinct : manifest.HasDistinctKeys) :
    (bumpRanges relative approved manifest).1 = bumpedManifest approved manifest := by
  have fields : (bumpSections relative approved DependencySection.all manifest).1.fields = _ :=
    bumpSections_fst relative approved (by decide) distinct
  rw [bumpRanges, bumpedManifest, ← fields]

/-- Where no range of a section is changed, nothing is. -/
theorem bumpSections_of_no_changes {relative : String} {approved : Table String}
    {parts : List DependencySection} {manifest : Manifest}
    (none : ∀ part ∈ parts, ∀ entries, manifest.section? part = some entries →
      ∀ target ∈ approved.entries, bumped? entries target.1 target.2 = none) :
    bumpSections relative approved parts manifest = (manifest, []) := by
  induction parts with
  | nil => rfl
  | cons part parts ih =>
      obtain ⟨here, later⟩ := List.forall_mem_cons.1 none
      rw [bumpSections]
      split
      next => exact ih later
      next entries present =>
        have same : manifest.setSection part entries = manifest := by
          rw [Manifest.setSection, Fields.insert_self (Manifest.section?_eq_some_iff.1 present)]
        rw [bumpEntries_of_no_changes (here entries present)]
        simp only [same, ih later]
        rfl

/-- Without changes, every range of every section stays. -/
theorem bumpSections_snd_eq_nil {relative : String} {approved : Table String}
    {parts : List DependencySection} {manifest : Manifest}
    (unchanged : (bumpSections relative approved parts manifest).2 = []) :
    ∀ part ∈ parts, ∀ entries, manifest.section? part = some entries →
      ∀ target ∈ approved.entries, bumped? entries target.1 target.2 = none := by
  induction parts generalizing manifest with
  | nil => simp
  | cons part parts ih =>
      rw [bumpSections] at unchanged
      split at unchanged
      next absent =>
        refine List.forall_mem_cons.2 ⟨fun entries present => ?_, ih unchanged⟩
        rw [absent] at present
        cases present
      next entries present =>
        obtain ⟨here, later⟩ := List.append_eq_nil_iff.1 unchanged
        have stays := (bumpEntries_snd_eq_nil_iff relative part).1 here
        have same : manifest.setSection part entries = manifest := by
          rw [Manifest.setSection, Fields.insert_self (Manifest.section?_eq_some_iff.1 present)]
        rw [bumpEntries_of_no_changes stays] at later
        simp only [same] at later
        refine List.forall_mem_cons.2 ⟨fun given found => ?_, ih later⟩
        cases present.symm.trans found
        exact stays

/-- Whether there are changes does not depend on the name in messages. -/
theorem bumpRanges_of_no_changes {relative : String} {approved : Table String}
    {manifest : Manifest} (none : (bumpRanges relative approved manifest).2 = [])
    (other : String) : bumpRanges other approved manifest = (manifest, []) :=
  bumpSections_of_no_changes (bumpSections_snd_eq_nil none)

end Workspace

/-! ## Reading what was written -/

namespace Manifest

open Json (Fields Value)

/-- The manifest that the text of a manifest is read as. -/
def reread (manifest : Manifest) : Manifest :=
  ⟨Json.mapValues Value.reread manifest.fields⟩

/-- A manifest that is read is legible and has no bad section. -/
theorem of_parse {display content : String} {manifest : Manifest}
    (parsed : parse display content = .ok manifest) :
    Json.Legible Json.depthLimit manifest.toValue ∧ badSection? manifest.fields = none := by
  rw [parse] at parsed
  split at parsed
  next => cases parsed
  next document read =>
    cases document with
    | object fields =>
        rw [ofValue] at parsed
        split at parsed
        next => cases parsed
        next good =>
          cases parsed
          exact ⟨Json.legible_of_parse read, good⟩
    | _ => cases parsed

/-- Legible manifests have distinct keys. -/
theorem hasDistinctKeys {depth : Nat} {manifest : Manifest}
    (legible : Json.Legible depth manifest.toValue) : manifest.HasDistinctKeys := by
  rw [toValue] at legible
  cases legible with
  | object legible distinct =>
      refine ⟨distinct, fun part entries present => ?_⟩
      have member := (Fields.get?_eq_some_iff_mem distinct).1 (section?_eq_some_iff.1 present)
      cases legible _ member with
      | object _ distinct => exact distinct

/-- There is no bad section exactly if every section that is present is an object. -/
theorem badSection?_eq_none_iff {fields : Fields} :
    badSection? fields = none ↔
      ∀ part value, Fields.get? fields (DependencySection.key part) = some value →
        ∃ entries, value = .object entries := by
  rw [badSection?, List.find?_eq_none]
  have every : ∀ part, part ∈ DependencySection.all := by
    intro part
    cases part <;> decide
  constructor
  · intro good part value found
    have here := good part (every part)
    rw [found] at here
    cases value with
    | object entries => exact ⟨entries, rfl⟩
    | _ => exact absurd rfl here
  · intro good part _ bad
    cases found : Fields.get? fields (DependencySection.key part) with
    | none =>
        rw [found] at bad
        cases bad
    | some value =>
        obtain ⟨entries, rfl⟩ := good part value found
        rw [found] at bad
        cases bad

theorem section?_reread (manifest : Manifest) (part : DependencySection) :
    manifest.reread.section? part =
      (manifest.section? part).map (Json.mapValues Value.reread) := by
  rw [section?, section?, reread, Json.get?_mapValues]
  cases manifest.fields.get? part.key with
  | none => rfl
  | some value => exact Json.fields?_reread value

theorem dependencies_reread (manifest : Manifest) :
    manifest.reread.dependencies = manifest.dependencies := by
  refine List.flatMap_congr fun part _ => ?_
  rw [sectionDependencies, sectionDependencies, section?_reread]
  cases manifest.section? part with
  | none => rfl
  | some entries =>
      simp only [Option.map_some, Option.getD_some, Json.mapValues, List.filterMap_map]
      refine congrArg _ (List.filterMap_congr fun entry _ => ?_)
      simp only [Function.comp, Json.text?_reread]

theorem workspacePatterns?_reread (manifest : Manifest) :
    manifest.reread.workspacePatterns? = manifest.workspacePatterns? := by
  have texts : ∀ items : List Value,
      (items.map Value.reread).filterMap Value.text? = items.filterMap Value.text? := by
    intro items
    rw [List.filterMap_map]
    exact List.filterMap_congr fun item _ => Json.text?_reread item
  rw [workspacePatterns?, workspacePatterns?, reread, Json.get?_mapValues]
  cases manifest.fields.get? "workspaces" with
  | none => rfl
  | some value =>
      cases value with
      | array items =>
          rw [Option.map_some, Value.reread, Json.rereadItems_eq]
          exact congrArg some (texts items)
      | object fields =>
          rw [Option.map_some, Value.reread, Json.rereadFields_eq]
          simp only [Option.bind_eq_bind, Option.bind_some, Json.get?_mapValues]
          cases Fields.get? fields "packages" with
          | none => rfl
          | some value =>
              simp only [Option.map_some, Option.bind_some, Json.items?_reread]
              cases value.items? with
              | none => rfl
              | some items => exact congrArg some (texts items)
      | _ => rfl

/-- A legible manifest without a bad section is read from its text. -/
theorem parse_render {manifest : Manifest}
    (legible : Json.Legible Json.depthLimit manifest.toValue)
    (good : badSection? manifest.fields = none) (display : String) :
    parse display manifest.render = .ok manifest.reread := by
  have again : manifest.toValue.reread = .object (Json.mapValues Value.reread manifest.fields) := by
    rw [toValue, Value.reread, Json.rereadFields_eq]
  have stays : badSection? (Json.mapValues Value.reread manifest.fields) = none := by
    refine badSection?_eq_none_iff.2 fun part value found => ?_
    rw [Json.get?_mapValues, Option.map_eq_some_iff] at found
    obtain ⟨value, found, rfl⟩ := found
    obtain ⟨entries, rfl⟩ := badSection?_eq_none_iff.1 good part value found
    exact ⟨_, by rw [Value.reread]⟩
  rw [parse, render, Json.parse_render_reread legible, again]
  simp only [ofValue, stays]
  rfl

end Manifest

namespace Workspace

open Json (Fields Value)

section Bumped

variable {approved : Table String} {manifest : Manifest}

theorem section?_bumpedManifest (approved : Table String) (manifest : Manifest)
    (part : DependencySection) :
    (bumpedManifest approved manifest).section? part =
      (manifest.section? part).map (bumpedEntries approved.get?) := by
  have isSection : part.key ∈ DependencySection.all.map DependencySection.key := by
    cases part <;> decide
  rw [Manifest.section?, Manifest.section?, bumpedManifest, Fields.get?_mapKeyed]
  cases manifest.fields.get? part.key with
  | none => rfl
  | some value =>
      rw [Option.map_some, bumpedField, if_pos isSection, Option.bind_some, Option.bind_some,
        fields?_bumpedSection]

theorem workspacePatterns?_bumpedManifest (approved : Table String) (manifest : Manifest) :
    (bumpedManifest approved manifest).workspacePatterns? = manifest.workspacePatterns? := by
  have stays : bumpedField approved.get? DependencySection.all "workspaces" = id :=
    funext fun value => if_neg (by decide)
  rw [Manifest.workspacePatterns?, Manifest.workspacePatterns?, bumpedManifest,
    Fields.get?_mapKeyed, stays, Option.map_id, id]

/-- **A manifest with approved versions is read from its text**, apart from numbers. -/
theorem parse_render_bumped {display content : String}
    (parsed : Manifest.parse display content = .ok manifest) (relative other : String) :
    Manifest.parse other (bumpRanges relative approved manifest).1.render =
      .ok (bumpedManifest approved manifest).reread := by
  obtain ⟨legible, good⟩ := Manifest.of_parse parsed
  rw [bumpRanges_fst relative approved (Manifest.hasDistinctKeys legible)]
  refine Manifest.parse_render (legible.mapKeyed fun depth key value legible => ?_) ?_ other
  · rw [bumpedField]
    split
    · exact legible_bumpedSection _ legible
    · exact legible
  · refine Manifest.badSection?_eq_none_iff.2 fun part value found => ?_
    change Fields.get? (Fields.mapKeyed _ manifest.fields) part.key = some value at found
    rw [Fields.get?_mapKeyed, Option.map_eq_some_iff] at found
    obtain ⟨value, found, rfl⟩ := found
    obtain ⟨entries, rfl⟩ := Manifest.badSection?_eq_none_iff.1 good part value found
    rw [bumpedField]
    split
    · exact ⟨_, rfl⟩
    · exact ⟨_, rfl⟩

/-- **Putting accepted versions into a manifest again changes nothing**, also after it was written
and read. -/
theorem bumpRanges_reread_bumped
    (accepted : ∀ name target, approved.get? name = some target →
      (Version.parseLoose? target).isSome = true) (relative : String) (manifest : Manifest) :
    bumpRanges relative approved (bumpedManifest approved manifest).reread =
      ((bumpedManifest approved manifest).reread, []) := by
  refine bumpSections_of_no_changes fun part _ entries present target member => ?_
  have given : approved.get? target.1 = some target.2 := Table.get?_eq_some_iff.2 member
  rw [Manifest.section?_reread, section?_bumpedManifest, Option.map_map,
    Option.map_eq_some_iff] at present
  obtain ⟨before, _, rfl⟩ := present
  refine bumped?_eq_none_iff.2 fun value found => ?_
  rw [Function.comp, Json.get?_mapValues, bumpedEntries, Fields.get?_mapKeyed, Option.map_map,
    Option.map_eq_some_iff] at found
  obtain ⟨old, _, rfl⟩ := found
  rw [Function.comp, given]
  cases old with
  | string raw =>
      change Value.string _ = Value.string _
      rw [bumpedText_bumpedText (accepted _ _ given)]
  | _ => rfl

/-- Each range of a manifest with approved versions is that of the manifest with the version of its
package. -/
theorem dependencies_bumpedManifest (approved : Table String) (manifest : Manifest) :
    (bumpedManifest approved manifest).dependencies =
      manifest.dependencies.map fun (part, name, raw) =>
        (part, name, bumpedText (approved.get? name) raw) := by
  have ofSection : ∀ part,
      (bumpedManifest approved manifest).sectionDependencies part =
        (manifest.sectionDependencies part).map fun dependency =>
          (dependency.1, bumpedText (approved.get? dependency.1) dependency.2) := by
    intro part
    rw [Manifest.sectionDependencies, Manifest.sectionDependencies, section?_bumpedManifest]
    cases manifest.section? part with
    | none => rfl
    | some entries =>
        simp only [Option.map_some, Option.getD_some, bumpedEntries, Fields.mapKeyed,
          List.filterMap_map, List.map_filterMap]
        refine List.filterMap_congr fun entry _ => ?_
        simp only [Function.comp, text?_bumpedValue, Option.map_map]
        rfl
  rw [Manifest.dependencies, Manifest.dependencies, List.map_flatMap]
  refine List.flatMap_congr fun part _ => ?_
  rw [ofSection, List.map_map, List.map_map]
  rfl

/-- A manifest that approved versions do not change is the one with these versions. -/
theorem bumpedManifest_of_no_changes {relative : String} (distinct : manifest.HasDistinctKeys)
    (unchanged : (bumpRanges relative approved manifest).2 = []) :
    bumpedManifest approved manifest = manifest := by
  rw [← bumpRanges_fst relative approved distinct, bumpRanges_of_no_changes unchanged]

end Bumped

end Workspace

end Uplift
