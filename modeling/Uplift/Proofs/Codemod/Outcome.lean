import Uplift.Codemod.Outcome
import Uplift.Proofs.Json.Fields
import Uplift.Proofs.Results

/-!
# Reports as documents

A document is a report exactly if it is an object with the three fields of reports, in any order,
each a list of texts; the report then has the texts of each list in their order, and its own
document is the one it was read from, apart from the order of the fields (`ofJson_exact`).  An object
does not give a key twice, so its fields are known, up to their order, from the values of the three
keys (`perm_fieldsOf_iff`).
-/

set_option autoImplicit false

namespace Uplift.Codemod.Outcome

open Json (Fields Value)

/-! ## The format -/

/-- The fields of the document of a report. -/
def fieldsOf (outcome : Outcome) : Fields :=
  [("changedFiles", .ofStrings outcome.changedFiles),
    ("skippedFiles", .ofStrings outcome.skippedFiles), ("errors", .ofStrings outcome.errors)]

/-- An object with exactly the fields of reports, each an array that contains only strings. -/
def HasFormat (value : Value) : Prop :=
  ∃ fields : Fields, value = .object fields ∧
    fields.keys.Perm ["changedFiles", "skippedFiles", "errors"] ∧
    ∀ field ∈ fields, ∃ items, field.2 = .array items ∧
      ∀ item ∈ items, ∃ text, item = .string text

/-- Two objects with the same fields, whose order may differ. -/
def SameUpToOrder (first second : Value) : Prop :=
  ∃ fields fields' : Fields, first = .object fields ∧ second = .object fields' ∧ fields.Perm fields'

/-- No key is given twice, if the value is an object. -/
def HasDistinctKeys (value : Value) : Prop :=
  ∀ fields : Fields, value = .object fields → fields.keys.Nodup

/-! ## Lists of texts -/

theorem textOf_eq_ok_iff {name text : String} {value : Value} :
    textOf name value = .ok text ↔ value = .string text := by
  rw [textOf.eq_def]
  split
  next => rw [Except.ok.injEq, Value.string.injEq]
  next other => exact ⟨nofun, fun same => absurd same (other text)⟩

theorem mapM_textOf_eq_ok_iff {name : String} {items : List Value} {texts : List String} :
    items.mapM (textOf name) = .ok texts ↔ items = texts.map .string := by
  rw [Results.mapM_eq_ok_iff]
  constructor
  · intro each
    induction each with
    | nil => rfl
    | cons isText _ ih => rw [textOf_eq_ok_iff.1 isText, ih, List.map_cons]
  · rintro rfl
    induction texts with
    | nil => exact .nil
    | cons text texts ih => exact .cons rfl ih

theorem exists_texts_iff {items : List Value} :
    (∃ texts : List String, items = texts.map .string) ↔
      ∀ item ∈ items, ∃ text, item = .string text := by
  constructor
  · rintro ⟨texts, rfl⟩ item member
    obtain ⟨text, _, rfl⟩ := List.mem_map.1 member
    exact ⟨text, rfl⟩
  · intro all
    have read : ∀ item ∈ items, ∃ text, textOf "" item = .ok text := fun item member =>
      (all item member).imp fun text same => textOf_eq_ok_iff.2 same
    obtain ⟨texts, each⟩ := Results.exists_each_iff.2 read
    exact ⟨texts, mapM_textOf_eq_ok_iff.1 (Results.mapM_eq_ok_iff.2 each)⟩

/-- The texts of a field are read exactly if the field is the list of these texts. -/
theorem textsOf_eq_ok_iff {fields : Fields} {name : String} {texts : List String} :
    textsOf fields name = .ok texts ↔ fields.get? name = some (.ofStrings texts) := by
  rw [textsOf]
  split
  next absent => rw [absent]; exact ⟨nofun, nofun⟩
  next items found =>
    rw [found, mapM_textOf_eq_ok_iff, Option.some.injEq, Value.ofStrings, Value.array.injEq]
  next value other found =>
    rw [found, Option.some.injEq]
    exact ⟨nofun, fun same => absurd same (other _)⟩

/-! ## Reading -/

/-- **A report is read from an object** whose fields are all known and hold its texts. -/
theorem ofJson_object_eq_ok_iff {fields : Fields} {outcome : Outcome} :
    ofJson (.object fields) = .ok outcome ↔
      (∀ name ∈ fields.keys, name ∈ fieldNames) ∧
        fields.get? "changedFiles" = some (.ofStrings outcome.changedFiles) ∧
        fields.get? "skippedFiles" = some (.ofStrings outcome.skippedFiles) ∧
        fields.get? "errors" = some (.ofStrings outcome.errors) := by
  obtain ⟨changedFiles, skippedFiles, errors⟩ := outcome
  rw [ofJson]
  split
  next name unknown =>
    have foreign := List.find?_some unknown
    refine ⟨nofun, fun known => ?_⟩
    have member := known.1 name (List.mem_of_find?_eq_some unknown)
    simp [member] at foreign
  next known =>
    rw [List.find?_eq_none] at known
    have known : ∀ name ∈ fields.keys, name ∈ fieldNames := fun name member => by
      simpa using known name member
    simp only [Results.bind_eq_ok_iff, textsOf_eq_ok_iff, Except.ok.injEq, mk.injEq]
    constructor
    · rintro ⟨_, changed, _, skipped, _, failed, rfl, rfl, rfl⟩
      exact ⟨known, changed, skipped, failed⟩
    · rintro ⟨_, changed, skipped, failed⟩
      exact ⟨_, changed, _, skipped, _, failed, rfl, rfl, rfl⟩

/-- **A report is read back from its document.** -/
theorem ofJson_toJson (outcome : Outcome) : ofJson outcome.toJson = .ok outcome :=
  ofJson_object_eq_ok_iff.2 ⟨fun _ member => member, rfl, rfl, rfl⟩

/-- Fields whose keys are distinct are those of a report, in some order, exactly if no key is
foreign and each of the three has the list of its texts. -/
theorem perm_fieldsOf_iff {fields : Fields} (distinct : fields.keys.Nodup) {outcome : Outcome} :
    fields.Perm outcome.fieldsOf ↔
      (∀ name ∈ fields.keys, name ∈ fieldNames) ∧
        fields.get? "changedFiles" = some (.ofStrings outcome.changedFiles) ∧
        fields.get? "skippedFiles" = some (.ofStrings outcome.skippedFiles) ∧
        fields.get? "errors" = some (.ofStrings outcome.errors) := by
  have once : (outcome.fieldsOf.map Prod.fst).Nodup := by
    change fieldNames.Nodup
    decide
  constructor
  · intro perm
    have values := Fields.get?_perm once perm
    refine ⟨fun name member => (perm.map Prod.fst).mem_iff.1 member, ?_, ?_, ?_⟩
    all_goals rw [values]; rfl
  · rintro ⟨known, changed, skipped, failed⟩
    refine (List.perm_ext_iff_of_nodup (.of_map _ distinct) (.of_map _ once)).2 fun field => ?_
    obtain ⟨name, value⟩ := field
    rw [← Fields.get?_eq_some_iff_mem distinct, ← Fields.get?_eq_some_iff_mem once]
    by_cases among : name ∈ fieldNames
    · simp only [fieldNames, List.mem_cons, List.not_mem_nil, or_false] at among
      rcases among with rfl | rfl | rfl
      · rw [changed]; rfl
      · rw [skipped]; rfl
      · rw [failed]; rfl
    · have here : fields.get? name = none :=
        Fields.get?_eq_none_iff.2 fun member => among (known name member)
      have there : outcome.fieldsOf.get? name = none := Fields.get?_eq_none_iff.2 among
      rw [here, there]

/-- **Reading accepts a report up to the order of its fields**, and nothing else. -/
theorem ofJson_eq_ok_iff {value : Value} (distinct : HasDistinctKeys value) {outcome : Outcome} :
    ofJson value = .ok outcome ↔ SameUpToOrder value outcome.toJson := by
  constructor
  · intro read
    cases value with
    | object fields =>
        refine ⟨fields, outcome.fieldsOf, rfl, rfl, ?_⟩
        exact (perm_fieldsOf_iff (distinct fields rfl)).2 (ofJson_object_eq_ok_iff.1 read)
    | _ => cases read
  · rintro ⟨fields, _, rfl, same, perm⟩
    cases same
    exact ofJson_object_eq_ok_iff.2 ((perm_fieldsOf_iff (distinct fields rfl)).1 perm)

/-- A document has the format of reports exactly if it is that of a report, up to the order of its
fields. -/
theorem hasFormat_iff {value : Value} :
    HasFormat value ↔ ∃ outcome : Outcome, SameUpToOrder value outcome.toJson := by
  constructor
  · rintro ⟨fields, rfl, keys, lists⟩
    have distinct : fields.keys.Nodup := keys.nodup_iff.2 (by decide)
    have texts : ∀ name ∈ fieldNames, ∃ texts, fields.get? name = some (.ofStrings texts) := by
      intro name among
      obtain ⟨⟨_, value⟩, member, rfl⟩ := List.mem_map.1 (keys.mem_iff.2 among)
      obtain ⟨items, rfl, strings⟩ := lists _ member
      obtain ⟨texts, rfl⟩ := exists_texts_iff.2 strings
      exact ⟨texts, (Fields.get?_eq_some_iff_mem distinct).2 member⟩
    obtain ⟨changedFiles, changed⟩ := texts "changedFiles" (by decide)
    obtain ⟨skippedFiles, skipped⟩ := texts "skippedFiles" (by decide)
    obtain ⟨errors, failed⟩ := texts "errors" (by decide)
    exact ⟨⟨changedFiles, skippedFiles, errors⟩, fields, _, rfl, rfl, (perm_fieldsOf_iff distinct).2
      ⟨fun name member => keys.mem_iff.1 member, changed, skipped, failed⟩⟩
  · rintro ⟨outcome, fields, _, rfl, same, perm⟩
    cases same
    refine ⟨fields, rfl, perm.map Prod.fst, fun field member => ?_⟩
    have among := perm.mem_iff.1 member
    simp only [List.mem_cons, List.not_mem_nil, or_false] at among
    rcases among with rfl | rfl | rfl
    all_goals exact ⟨_, rfl, exists_texts_iff.1 ⟨_, rfl⟩⟩

/-- **Reading accepts exactly the format of reports.**  What is read is written as the document it
was read from, up to the order of the fields, and every report is read back from its document. -/
theorem ofJson_exact (value : Value) (distinct : HasDistinctKeys value) :
    ((∃ outcome, ofJson value = .ok outcome) ↔ HasFormat value) ∧
      (∀ outcome, ofJson value = .ok outcome ↔ SameUpToOrder value outcome.toJson) ∧
      ∀ outcome : Outcome, ofJson outcome.toJson = .ok outcome := by
  refine ⟨?_, fun outcome => ofJson_eq_ok_iff distinct, ofJson_toJson⟩
  rw [hasFormat_iff]
  exact exists_congr fun outcome => ofJson_eq_ok_iff distinct

/-- The fields may be in another order; the texts of each list keep theirs. -/
theorem ofJson_exact_reordered :
    HasDistinctKeys (.object [("errors", .ofStrings ["e"]), ("changedFiles", .ofStrings ["b", "a"]),
        ("skippedFiles", .array [])]) ∧
      SameUpToOrder (.object [("errors", .ofStrings ["e"]),
        ("changedFiles", .ofStrings ["b", "a"]), ("skippedFiles", .array [])])
        (toJson ⟨["b", "a"], [], ["e"]⟩) := by
  have distinct : HasDistinctKeys (.object [("errors", .ofStrings ["e"]),
      ("changedFiles", .ofStrings ["b", "a"]), ("skippedFiles", .array [])]) := by
    rintro _ ⟨⟩
    decide
  exact ⟨distinct, ((ofJson_exact _ distinct).2.1 _).1 rfl⟩

end Uplift.Codemod.Outcome
