import Uplift.Failure
import Uplift.FileTree.Access
import Uplift.Toml.Reader

/-!
# Configuration

A configuration file sets some of the settings and leaves the others at their defaults.  Settings
it does not know are ignored; a setting of the wrong kind is refused.
-/

set_option autoImplicit false

namespace Uplift

/-- The settings of a run. -/
structure Config where
  /-- What the names of tracked packages start with; empty tracks all. -/
  scopes : List String := []
  /-- Where migration documents are, relative to the project or a directory above it. -/
  migrationsPath : String := ".migrasaurus/migrations"
  /-- Where codemods are, relative to the migration documents. -/
  codemodsDir : String := "codemods"
  /-- The address of the registry. -/
  registry : String := "https://registry.npmjs.org"
  /-- How long to wait for the registry. -/
  registryTimeoutSecs : Nat := 10
  /-- The command that installs packages. -/
  installCommand : List String := ["npm", "install"]
  /-- The interpreter of script modules. -/
  scriptRunner : String := "node"
  /-- Where the report goes, relative to the root. -/
  reportPath : String := ".migrasaurus/upgrade-report.json"
  deriving DecidableEq, Repr, Inhabited

namespace Config

/-- The name of configuration files. -/
def fileName : String := "migrasaurus.toml"

/-- The largest waiting time. -/
def maxTimeout : Nat := 0xFFFFFFFFFFFFFFFF

/-- A text of a configuration. -/
def textOf : Toml.Value → Option String
  | .text content => some content
  | _ => none

/-- A list of texts of a configuration. -/
def textsOf : Toml.Value → Option (List String)
  | .list items => items.mapM textOf
  | _ => none

/-- A waiting time of a configuration. -/
def timeoutOf : Toml.Value → Option Nat
  | .integer n => if 0 ≤ n ∧ n ≤ maxTimeout then some n.toNat else none
  | _ => none

/-- A setting of a file, or its default if the file has none; none if it is of the wrong kind. -/
def setting {α : Type} (entries : Toml.Entries) (key : String) (read : Toml.Value → Option α)
    (default : α) : Option α :=
  match entries.value? key with
  | none => some default
  | some none => none
  | some (some value) => read value

/-- The settings in the entries of a file. -/
def ofEntries? (entries : Toml.Entries) : Option Config := do
  let default : Config := {}
  some {
    scopes := ← setting entries "scopes" textsOf default.scopes
    migrationsPath := ← setting entries "migrations_path" textOf default.migrationsPath
    codemodsDir := ← setting entries "codemods_dir" textOf default.codemodsDir
    registry := ← setting entries "registry" textOf default.registry
    registryTimeoutSecs :=
      ← setting entries "registry_timeout_secs" timeoutOf default.registryTimeoutSecs
    installCommand := ← setting entries "install_command" textsOf default.installCommand
    scriptRunner := ← setting entries "script_runner" textOf default.scriptRunner
    reportPath := ← setting entries "report_path" textOf default.reportPath }

/-- The settings that a text spells. -/
def parse? (text : String) : Option Config := do
  ofEntries? (← Toml.parse? text)

/-- The settings in a file, or the defaults if there is no such file. -/
def load (tree : FileTree) (path : Path) : Except Failure Config :=
  if !tree.hasFile path then .ok {}
  else
    match tree.readText path with
    | .error error => .error (.other error.message)
    | .ok text =>
      match parse? text with
      | some config => .ok config
      | none => .error (.toml s!"{path.text} is no configuration")

end Config

end Uplift
