import Uplift.Config
import Uplift.Json.Value

/-!
# The schema of configurations

The schema lists the settings of a configuration with their kinds, their meaning and their
defaults, which are those of the configuration itself.
-/

set_option autoImplicit false

namespace Uplift.Config

/-- The schema of a setting: its meaning, what describes its kind, and its default. -/
def settingSchema (description : String) (kind : Json.Fields) (default : Json.Value) : Json.Value :=
  .object (("description", .string description) :: kind ++ [("default", default)])

/-- The kind of texts. -/
def textKind : Json.Fields :=
  [("type", .string "string")]

/-- The kind of lists of texts. -/
def textsKind : Json.Fields :=
  [("type", .string "array"), ("items", .object textKind)]

/-- The kind of waiting times. -/
def timeoutKind : Json.Fields :=
  [("type", .string "integer"), ("format", .string "uint64"), ("minimum", .ofNat 0)]

/-- The schemas of the settings. -/
def settingSchemas : Json.Fields :=
  let config : Config := {}
  [("scopes", settingSchema
      "Dependency name prefixes to track, e.g. `[\"@acme/\"]`. Empty tracks\nevery dependency."
      textsKind (.ofStrings config.scopes)),
    ("migrations_path", settingSchema
      "Migration documents directory, relative to the project or any of its\nparents."
      textKind (.string config.migrationsPath)),
    ("codemods_dir", settingSchema "Codemod root, relative to the migrations directory."
      textKind (.string config.codemodsDir)),
    ("registry", settingSchema "Registry base URL." textKind (.string config.registry)),
    ("registry_timeout_secs", settingSchema "Seconds before a registry lookup is abandoned."
      timeoutKind (.ofNat config.registryTimeoutSecs)),
    ("install_command", settingSchema
      "Command and arguments run once after manifests are updated."
      textsKind (.ofStrings config.installCommand)),
    ("script_runner", settingSchema "Interpreter for `.js`, `.mjs` and `.cjs` codemods."
      textKind (.string config.scriptRunner)),
    ("report_path", settingSchema "Upgrade report location, relative to the workspace root."
      textKind (.string config.reportPath))]

/-- The schema of configurations. -/
def schema : Json.Value :=
  .object [("$schema", .string "https://json-schema.org/draft/2020-12/schema"),
    ("title", .string "Config"),
    ("description", .string "Root configuration structure for `migrasaurus.toml`."),
    ("type", .string "object"), ("properties", .object settingSchemas)]

end Uplift.Config
