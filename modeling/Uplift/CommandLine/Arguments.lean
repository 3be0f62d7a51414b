import Uplift.CommandLine.Usage
import Uplift.Config
import Uplift.Report

/-!
# The arguments of the program

There is one command, with options of its own, and options that any command takes.  These may stand
before the command or after it; what stands after it replaces what stands before.
-/

set_option autoImplicit false

namespace Uplift.CommandLine

/-- What the program is asked to do. -/
inductive Command where
  | scan
  | guide
  | apply (breaking dryRun noCodemods : Bool)
  | codemod (package low high : String) (dryRun : Bool)
  | diff (before after : String)
  | convert (member : String)
  deriving DecidableEq, Repr

/-- The name of a command. -/
def Command.name : Command → String
  | .scan => "scan"
  | .guide => "guide"
  | .apply .. => "apply"
  | .codemod .. => "codemod"
  | .diff .. => "diff"
  | .convert .. => "convert"

/-- The arguments of the program. -/
structure Arguments where
  debug : Bool
  json : Bool
  /-- The root of the workspace. -/
  directory : String
  /-- The configuration file. -/
  config : Option String
  registry : Option String
  scopes : List String
  command : Command
  deriving DecidableEq, Repr

/-! ## Levels -/

/-- The options that any command takes. -/
def sharedOptions : List OptionSpec :=
  [.switch "debug", .switch "json", .value ⟨"cwd", true, false⟩ false,
    .value ⟨"config", true, false⟩ false, .value ⟨"registry", false, false⟩ false,
    .value ⟨"scope", false, true⟩ false, .help]

/-- The level before the command. -/
def topLevel : Level :=
  { options := sharedOptions ++ [.version]
    positionals := []
    commands := ["scan", "guide", "apply", "codemod", "diff", "convert", helpCommand] }

/-- The level of a command, by its name. -/
def commandLevel (name : String) : Level :=
  let level (options : List OptionSpec) (positionals : List Slot) : Level :=
    ⟨options ++ sharedOptions, positionals, []⟩
  match name with
  | "apply" => level [.switch "breaking", .switch "dry-run", .switch "no-codemods"] []
  | "codemod" =>
    level [.value ⟨"from", false, false⟩ true, .value ⟨"to", false, false⟩ true, .switch "dry-run"]
      [⟨"package", false, false⟩]
  | "diff" => level [] [⟨"before", true, false⟩, ⟨"after", true, false⟩]
  | "convert" => level [] [⟨"member", false, false⟩]
  | _ => level [] []

/-! ## Reading -/

/-- The only value under a name. -/
def Given.value? (given : Given) (name : String) : Option String :=
  (given.values name).head?

/-- The value under the name of something that must be given. -/
def Given.text (given : Given) (name : String) : String :=
  (given.value? name).getD ""

/-- The command of a name, with what was given for it. -/
def Command.ofGiven (name : String) (given : Given) : Command :=
  match name with
  | "guide" => .guide
  | "apply" => .apply (given.has "breaking") (given.has "dry-run") (given.has "no-codemods")
  | "codemod" =>
    .codemod (given.text "package") (given.text "from") (given.text "to") (given.has "dry-run")
  | "diff" => .diff (given.text "before") (given.text "after")
  | "convert" => .convert (given.text "member")
  | _ => .scan

/-- The arguments made of what stands before the command and what stands after it. -/
def Arguments.ofGiven (before : Given) (name : String) (after : Given) : Arguments :=
  let values (option : String) : List String :=
    if after.has option then after.values option else before.values option
  { debug := before.has "debug" || after.has "debug"
    json := before.has "json" || after.has "json"
    directory := (values "cwd").head?.getD "."
    config := (values "config").head?
    registry := (values "registry").head?
    scopes := values "scope"
    command := .ofGiven name after }

/-- Reads the arguments after the name of the program. -/
def Arguments.parse (arguments : List String) : Except UsageError Arguments := do
  match ← topLevel.read {} arguments with
  | (progress, some (name, rest)) =>
    let after ← (commandLevel name).readAll rest
    .ok (.ofGiven (← progress.settle).given name after)
  | (progress, none) =>
    let before := (← progress.settle).given
    .error (if before.isEmpty then .nothingGiven else .missingCommand)

/-! ## What follows from the arguments -/

namespace Arguments

/-- The options of the run. -/
def flags (arguments : Arguments) : RunFlags :=
  let flags : RunFlags :=
    { command := arguments.command.name, codemods := true, json := arguments.json }
  match arguments.command with
  | .apply breaking dryRun noCodemods =>
    { flags with allowBreaking := breaking, dryRun, codemods := !noCodemods }
  | .codemod _ _ _ dryRun => { flags with dryRun }
  | .scan | .guide | .diff .. | .convert _ => { flags with codemods := false }

/-- Where the configuration is. -/
def configPath (arguments : Arguments) : Path :=
  match arguments.config with
  | some path => Path.ofText path
  | none => (Path.ofText arguments.directory).joinText Config.fileName

/-- The configuration with what the arguments replace. -/
def override (arguments : Arguments) (config : Config) : Config :=
  { config with
    registry := arguments.registry.getD config.registry
    scopes := if arguments.scopes.isEmpty then config.scopes else arguments.scopes }

/-- The configuration of the run. -/
def loadConfig (arguments : Arguments) (files : FileTree) : Except Failure Config :=
  (Config.load files arguments.configPath).map arguments.override

end Arguments

end Uplift.CommandLine
