import Uplift.Codemod.Outcome
import Uplift.Failure
import Uplift.Json.Printer
import Uplift.Json.Reader
import Uplift.Process.Basic
import Uplift.Text.Blank

/-!
# External codemods

A codemod may be a program of its own, which gets its options on its input, or a script module,
which a small loader imports through an interpreter and which gets its options in a variable.
Either prints its report as a JSON document.
-/

set_option autoImplicit false

namespace Uplift.Codemod

/-- What every codemod is told. -/
structure Options where
  target : Path
  dryRun : Bool

/-- Options as one line of JSON. -/
def Options.text (options : Options) : String :=
  (Json.Value.object [("targetDir", .string options.target.text),
    ("dryRun", .bool options.dryRun)]).renderCompact

/-- How a codemod is started. -/
inductive Launch where
  /-- As a module, through an interpreter. -/
  | module (interpreter : String)
  /-- As a program. -/
  | program
  deriving DecidableEq, Repr

/-- Extensions of script modules. -/
def moduleExtensions : List String :=
  ["js", "mjs", "cjs"]

/-- The variable that names the module. -/
def moduleVariable : String :=
  "MIGRASAURUS_CODEMOD"

/-- The variable that holds the options. -/
def optionsVariable : String :=
  "MIGRASAURUS_CODEMOD_OPTIONS"

/-- The status with which the loader says that a module has nothing to call. -/
def noEntryStatus : Nat :=
  64

/-- The loader: it imports the module, calls its entry point and prints the result.  What the
module itself prints goes to the other output. -/
def moduleLoader : String :=
  String.join [
    "\n",
    "import \x7b pathToFileURL \x7d from \"node:url\";\n",
    "console.log = (...args) => console.error(...args);\n",
    "const mod = await import(pathToFileURL(process.env.MIGRASAURUS_CODEMOD).href);\n",
    "const transform = mod.transform ?? mod.default?.transform ?? mod.default;\n",
    "if (typeof transform !== \"function\") \x7b\n",
    "  process.exit(64);\n",
    "\x7d\n",
    "const options = JSON.parse(process.env.MIGRASAURUS_CODEMOD_OPTIONS);\n",
    "const result = await transform(options);\n",
    "process.stdout.write(JSON.stringify(result === undefined ? null : result));\n"]

/-- How to start the codemod at a path. -/
def Launch.invocation (launch : Launch) (path : Path) (options : Options) : Process.Invocation :=
  match launch with
  | .module interpreter =>
    { program := interpreter
      arguments := ["--input-type=module", "-e", moduleLoader]
      environment := [(moduleVariable, path.text), (optionsVariable, options.text)]
      dir := options.target
      input := .empty }
  | .program =>
    { program := path.text
      arguments := []
      environment := []
      dir := options.target
      input := Text.encode options.text }

/-- Whether a status says that a module has nothing to call. -/
def Launch.lacksEntry (launch : Launch) (status : Process.Status) : Bool :=
  match launch with
  | .module _ => status = .exited noEntryStatus
  | .program => false

/-- What the wording of a missing entry point starts with. -/
def noEntryPoint : String :=
  "no recognized transform entry point"

/-- The document that a program printed, if it ended well. -/
def documentOf (launch : Launch) (display : String) (completion : Process.Completion) :
    Except Failure Json.Value :=
  let status := completion.status
  if launch.lacksEntry status then .error (.codemodLoad display noEntryPoint)
  else if !status.isSuccess then
    let errors := Text.trimmed (Text.decodeLossy completion.errors)
    .error (.codemodLoad display s!"exited with {status.message}: {errors}")
  else
    match Json.parseBytes completion.output with
    | .ok document => .ok document
    | .error error =>
      .error (.codemodShape display s!"stdout is not a JSON document: {error.message}")

/-- Runs an external codemod. -/
def Launch.run (launch : Launch) (machine : Process.Machine) (tree : FileTree) (path : Path)
    (options : Options) : Except Failure Json.Value × FileTree :=
  let display := path.text
  match machine (launch.invocation path options) tree with
  | (.error error, tree) => (.error (.codemodLoad display error.message), tree)
  | (.ok completion, tree) => (documentOf launch display completion, tree)

end Uplift.Codemod
