import Uplift.Json.Value

/-!
# Failures

Everything that can go wrong, with one wording per cause.  A failure also has a category and, for
some causes, details; both are recorded in reports.
-/

set_option autoImplicit false

namespace Uplift

/-- Why an operation failed. -/
inductive Failure where
  | arguments (message : String)
  | configuration (message : String)
  | lookup (package message : String)
  | manifest (path message : String)
  | install (command status stderr : String)
  | codemodLoad (path message : String)
  | codemodShape (path message : String)
  | reportWrite (path message : String)
  | version (message : String)
  | toml (message : String)
  | json (message : String)
  | glob (message : String)
  | network (message : String)
  | url (message : String)
  | logger (message : String)
  | other (message : String)
  deriving DecidableEq, Repr, Inhabited

namespace Failure

/-- The wording of a failure. -/
def message : Failure → String
  | .arguments message => s!"Invalid arguments: {message}"
  | .configuration message => s!"Invalid configuration: {message}"
  | .lookup package message => s!"Failed to resolve latest version of {package}: {message}"
  | .manifest path message => s!"Invalid manifest {path}: {message}"
  | .install command status _ => s!"Install command `{command}` failed with status {status}"
  | .codemodLoad path message => s!"Failed to load codemod {path}: {message}"
  | .codemodShape path message => s!"Codemod {path} returned an invalid result: {message}"
  | .reportWrite path message => s!"Failed to write report {path}: {message}"
  | .version message => s!"Invalid version format: {message}"
  | .toml message => s!"TOML parse error: {message}"
  | .json message => s!"JSON parse error: {message}"
  | .glob message => s!"Invalid glob pattern: {message}"
  | .network message => s!"Network request failed: {message}"
  | .url message => s!"URL parse error: {message}"
  | .logger message => s!"Logger initialization error: {message}"
  | .other message => message

/-- What a failure is about, for reports. -/
inductive Category where
  | lookup
  | manifest
  | install
  | codemod
  | config
  | report
  | internal
  deriving DecidableEq, Repr

/-- How a category is written. -/
def Category.text : Category → String
  | .lookup => "lookup"
  | .manifest => "manifest"
  | .install => "install"
  | .codemod => "codemod"
  | .config => "config"
  | .report => "report"
  | .internal => "internal"

/-- The category of a failure. -/
def category : Failure → Category
  | .lookup .. | .network _ => .lookup
  | .manifest .. | .json _ => .manifest
  | .install .. => .install
  | .codemodLoad .. | .codemodShape .. => .codemod
  | .arguments _ | .configuration _ | .toml _ | .glob _ | .url _ => .config
  | .reportWrite .. => .report
  | .version _ | .logger _ | .other _ => .internal

/-- The details of a failure that reports carry. -/
def details : Failure → Json.Value
  | .lookup package _ => .object [("package", .string package)]
  | .manifest path _ => .object [("manifest", .string path)]
  | .install command status stderr =>
    .object [("command", .string command), ("status", .string status), ("stderr", .string stderr)]
  | .codemodLoad path _ | .codemodShape path _ => .object [("codemod", .string path)]
  | .reportWrite path _ => .object [("report", .string path)]
  | _ => .null

/-- A failure as reports record it. -/
def toJson (failure : Failure) : Json.Value :=
  .object [("category", .string failure.category.text), ("message", .string failure.message),
    ("context", failure.details)]

end Failure

end Uplift
