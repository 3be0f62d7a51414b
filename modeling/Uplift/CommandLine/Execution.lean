import Uplift.CommandLine.Arguments
import Uplift.Registry.Address
import Uplift.Session
import Uplift.Workspace.Convert
import Uplift.Workspace.Install

/-!
# Carrying out a command

A command works on the files, prints a text and may fail.  The commands that run a session print a
summary if the run succeeds; asked for a document, they print the report instead, also if the run
fails.
-/

set_option autoImplicit false

namespace Uplift.CommandLine

/-- What commands find outside the files. -/
structure Surroundings where
  machine : Process.Machine
  read : Source.Reading
  /-- The registry at an address. -/
  connect : Url → Registry.Client
  times : Session.Times
  /-- Where to look for migration documents last. -/
  fallback : Option Path
  /-- What makes the name of a staging directory one of its own. -/
  token : String

/-- How a command ended. -/
structure Execution where
  output : String := ""
  result : Except Failure Unit
  files : FileTree

/-- A command that failed before it printed anything. -/
def Execution.failed (files : FileTree) (failure : Failure) : Execution :=
  ⟨"", .error failure, files⟩

/-- The plain path of the root of the workspace. -/
def Arguments.root (arguments : Arguments) (files : FileTree) : Except Failure Path :=
  (files.canonicalize (Path.ofText arguments.directory)).mapError fun error => .other error.message

/-- The session that the arguments ask for. -/
def Arguments.session (arguments : Arguments) (around : Surroundings) (files : FileTree) :
    Except Failure Session := do
  let root ← arguments.root files
  let config ← arguments.loadConfig files
  let address ← Registry.baseAddress config.registry
  Session.ofParts around.machine around.read
    { root := some root
      config := some config
      registry := some (around.connect address)
      installer := some (Workspace.commandInstaller around.machine config.installCommand)
      fallback := around.fallback }

/-- Ends a command that ran a session. -/
def Arguments.finish {α : Type} (arguments : Arguments) (files : FileTree) (run : Session.Run α)
    (summary : α → String) : Execution :=
  let result := run.result.map fun _ => ()
  if arguments.json then ⟨run.report.render, result, files⟩
  else
    match run.result with
    | .ok value => ⟨summary value, result, files⟩
    | .error _ => ⟨"", result, files⟩

/-- Compares two files. -/
def executeDiff (files : FileTree) (before after : String) : Execution :=
  match files.readText (Path.ofText before) with
  | .error error => .failed files (.other error.message)
  | .ok old =>
    match files.readText (Path.ofText after) with
    | .error error => .failed files (.other error.message)
    | .ok new => ⟨Patch.unified after old new, .ok (), files⟩

/-- The lines that tell what a conversion did. -/
def renderConversion (member : String) (conversion : Workspace.Conversion) : String :=
  String.join (conversion.moved.map fun name => s!"moved {name} → {member}/{name}\n") ++
    s!"wrote workspace manifest for {conversion.member.text}\n"

/-- Converts the package at the root into a workspace. -/
def executeConvert (arguments : Arguments) (token : String) (files : FileTree)
    (member : String) : Execution :=
  match arguments.root files with
  | .error failure => .failed files failure
  | .ok root =>
    match Workspace.convert { tree := files } root member token with
    | (.error failure, disk) => .failed disk.tree failure
    | (.ok conversion, disk) =>
      let output := if arguments.json then conversion.rootManifest.render
        else renderConversion member conversion
      ⟨output, .ok (), disk.tree⟩

/-- The lines that tell what the codemods of a package did. -/
def renderCodemods (package low high : String) (summary : Codemod.Summary) : String :=
  if summary.ran.isEmpty then s!"No codemods for {package} {low} → {high}\n" else summary.render

/-- Carries out a command. -/
def execute (around : Surroundings) (arguments : Arguments) (files : FileTree) : Execution :=
  match arguments.command with
  | .diff before after => executeDiff files before after
  | .convert member => executeConvert arguments around.token files member
  | command =>
    match arguments.session around files with
    | .error failure => .failed files failure
    | .ok session =>
      let flags := arguments.flags
      match command with
      | .guide =>
        let (run, files) := session.guide around.times flags files
        arguments.finish files run id
      | .apply .. =>
        let (run, world) := session.apply around.times flags (.ofFlags flags) ⟨files, []⟩
        arguments.finish world.files run fun application => application.render flags.dryRun
      | .codemod package low high _ =>
        let (run, files) := session.codemod around.times flags files package low high
        arguments.finish files run (renderCodemods package low high)
      | _ =>
        let (run, files) := session.scan around.times flags files
        arguments.finish files run Plan.render

end Uplift.CommandLine
