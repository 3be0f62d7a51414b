import Uplift.Json.Value

/-!
# What a codemod reports

A codemod reports three lists of texts: the files it changed, the files it skipped and its errors.
As a document this is an object with exactly three fields, and reading a document accepts exactly
such objects, in any order of the fields.  A document that is refused is refused for its first
fault: a foreign field, then field by field what is missing or of the wrong kind.
-/

set_option autoImplicit false

namespace Uplift.Codemod

/-- What a codemod reports. -/
structure Outcome where
  changedFiles : List String
  skippedFiles : List String
  errors : List String
  deriving DecidableEq, Repr, Inhabited

namespace Outcome

/-- The fields of a report, in the order in which they are checked. -/
def fieldNames : List String :=
  ["changedFiles", "skippedFiles", "errors"]

/-- A report as a document. -/
def toJson (outcome : Outcome) : Json.Value :=
  .object [("changedFiles", .ofStrings outcome.changedFiles),
    ("skippedFiles", .ofStrings outcome.skippedFiles), ("errors", .ofStrings outcome.errors)]

/-- Why a document is no report. -/
inductive Fault where
  | notObject (kind : String)
  | unexpectedField (name : String)
  | missingField (name : String)
  | notList (name kind : String)
  | notText (name kind : String)
  deriving DecidableEq, Repr

/-- The wording of a fault. -/
def Fault.message : Fault → String
  | .notObject kind => s!"expected an object, got {kind}"
  | .unexpectedField name => s!"unexpected field `{name}`"
  | .missingField name => s!"missing field `{name}`"
  | .notList name kind => s!"`{name}` must be a list of strings, got {kind}"
  | .notText name kind => s!"`{name}` must contain only strings, found {kind}"

/-- The text that a value is. -/
def textOf (name : String) : Json.Value → Except Fault String
  | .string text => .ok text
  | value => .error (.notText name value.kind)

/-- The texts of a field. -/
def textsOf (fields : Json.Fields) (name : String) : Except Fault (List String) :=
  match fields.get? name with
  | none => .error (.missingField name)
  | some (.array items) => items.mapM (textOf name)
  | some value => .error (.notList name value.kind)

/-- The report that a document holds. -/
def ofJson : Json.Value → Except Fault Outcome
  | .object fields =>
    match (Json.Fields.keys fields).find? fun name => !fieldNames.contains name with
    | some name => .error (.unexpectedField name)
    | none => do
      let changedFiles ← textsOf fields "changedFiles"
      let skippedFiles ← textsOf fields "skippedFiles"
      let errors ← textsOf fields "errors"
      .ok { changedFiles, skippedFiles, errors }
  | value => .error (.notObject value.kind)

end Outcome

/-! ## Summaries -/

/-- The reports of several codemods together, in the order in which they ran. -/
structure Summary where
  /-- The codemods that ran, whether they failed or not. -/
  ran : List String
  changedFiles : List String
  skippedFiles : List String
  errors : List String
  deriving DecidableEq, Repr, Inhabited

namespace Summary

/-- The summary of no codemods. -/
def empty : Summary :=
  ⟨[], [], [], []⟩

/-- One summary after another. -/
def append (first second : Summary) : Summary :=
  { ran := first.ran ++ second.ran
    changedFiles := first.changedFiles ++ second.changedFiles
    skippedFiles := first.skippedFiles ++ second.skippedFiles
    errors := first.errors ++ second.errors }

instance : Append Summary := ⟨append⟩

/-- The summary of one codemod that reported. -/
def ofOutcome (name : String) (outcome : Outcome) : Summary :=
  ⟨[name], outcome.changedFiles, outcome.skippedFiles, outcome.errors⟩

/-- The summary of one codemod that failed. -/
def ofFailure (name message : String) : Summary :=
  ⟨[name], [], [], [s!"{name}: {message}"]⟩

/-- A summary as a document. -/
def toJson (summary : Summary) : Json.Value :=
  .object [("ran", .ofStrings summary.ran), ("changedFiles", .ofStrings summary.changedFiles),
    ("skippedFiles", .ofStrings summary.skippedFiles), ("errors", .ofStrings summary.errors)]

/-- A line for each entry of a summary. -/
def render (summary : Summary) : String :=
  String.join (summary.ran.map fun path => s!"ran codemod {path}\n") ++
    String.join (summary.changedFiles.map fun file => s!"  changed {file}\n") ++
    String.join (summary.skippedFiles.map fun file => s!"  skipped {file}\n") ++
    String.join (summary.errors.map fun error => s!"  error: {error}\n")

end Summary

end Uplift.Codemod
