import Uplift.Codemod.Descriptor
import Uplift.Codemod.Discovery
import Uplift.Codemod.External

/-!
# Running codemods

What a codemod is follows from its extension: a descriptor of a built-in transform, a script
module, or a program.  Codemods run one after another, and one that fails is recorded and does not
stop those after it.
-/

set_option autoImplicit false

namespace Uplift.Codemod

/-- What codemods need to run. -/
structure Setting where
  machine : Process.Machine
  read : Source.Reading
  /-- The interpreter of script modules. -/
  scriptRunner : String

/-- The name of the built-in transform that relocates imports. -/
def relocateImports : String :=
  "rewrite-imports"

/-- The specification in the text of a descriptor. -/
def specOf (text : String) : Except String Imports.Spec :=
  match Descriptor.parse text with
  | .error error => .error error.message
  | .ok descriptor =>
    match descriptor.transform with
    | some name =>
      if name = relocateImports then Imports.Spec.ofFields descriptor.rest
      else .error s!"{noEntryPoint}: {name}"
    | none => .error noEntryPoint

/-- Runs the transform that a descriptor names. -/
def runDescriptor (setting : Setting) (tree : FileTree) (path : Path) (options : Options) :
    Except Failure Outcome × FileTree :=
  let spec := match tree.readText path with
    | .ok text => specOf text
    | .error error => .error error.message
  match spec with
  | .error message => (.error (.codemodLoad path.text message), tree)
  | .ok spec =>
    let (outcome, tree) := Imports.run setting.read tree options.target spec options.dryRun
    (.ok outcome, tree)

/-- Runs an external codemod and checks its report. -/
def runExternal (setting : Setting) (tree : FileTree) (launch : Launch) (path : Path)
    (options : Options) : Except Failure Outcome × FileTree :=
  match launch.run setting.machine tree path options with
  | (.error failure, tree) => (.error failure, tree)
  | (.ok document, tree) =>
    match Outcome.ofJson document with
    | .ok outcome => (.ok outcome, tree)
    | .error fault => (.error (.codemodShape path.text fault.message), tree)

/-- Runs one codemod. -/
def run (setting : Setting) (tree : FileTree) (path : Path) (options : Options) :
    Except Failure Outcome × FileTree :=
  if !tree.hasFile path then (.error (.codemodLoad path.text "file does not exist"), tree)
  else
    let extension := path.extension?.getD ""
    if extension = "json" then runDescriptor setting tree path options
    else if moduleExtensions.contains extension then
      runExternal setting tree (.module setting.scriptRunner) path options
    else runExternal setting tree .program path options

/-- The summary of one run. -/
def Reference.summarize (reference : Reference) : Except Failure Outcome → Summary
  | .ok outcome => .ofOutcome reference.relative outcome
  | .error failure => .ofFailure reference.relative failure.message

/-- Runs codemods one after another. -/
def runAll (setting : Setting) (options : Options) (tree : FileTree) :
    List Reference → Summary × FileTree
  | [] => (.empty, tree)
  | reference :: rest =>
    let (result, tree) := run setting tree reference.path options
    let (later, tree) := runAll setting options tree rest
    (reference.summarize result ++ later, tree)

end Uplift.Codemod
