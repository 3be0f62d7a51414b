import Uplift.FileTree.Access

/-!
# Processes

External programs are started with arguments, variables, an input and a directory to work in.  A
machine says what a program does: it either cannot be started, or it ends with a status, with what
it wrote to its two outputs, and with the files as it left them.
-/

set_option autoImplicit false

namespace Uplift.Process

/-- How to start a program. -/
structure Invocation where
  /-- A path, if it holds a slash, and otherwise a name. -/
  program : String
  arguments : List String
  environment : List (String × String)
  /-- The directory to work in. -/
  dir : Path
  input : ByteArray

/-- How a program ended. -/
inductive Status where
  | exited (code : Nat)
  | killed (signal : Nat)
  deriving DecidableEq, Repr

namespace Status

/-- Whether a program ended well. -/
def isSuccess : Status → Bool
  | .exited code => code = 0
  | .killed _ => false

/-- The name of a signal. -/
def signalName? (signal : Nat) : Option String :=
  ["SIGHUP", "SIGINT", "SIGQUIT", "SIGILL", "SIGTRAP", "SIGABRT", "SIGBUS", "SIGFPE", "SIGKILL",
    "SIGUSR1", "SIGSEGV", "SIGUSR2", "SIGPIPE", "SIGALRM", "SIGTERM"][signal - 1]?

/-- The wording of a status. -/
def message : Status → String
  | .exited code => s!"exit status: {code}"
  | .killed signal =>
    match signalName? signal with
    | some name => s!"signal: {signal} ({name})"
    | none => s!"signal: {signal}"

end Status

/-- A program that has ended. -/
structure Completion where
  status : Status
  output : ByteArray
  errors : ByteArray

/-- What programs do. -/
abbrev Machine := Invocation → FileTree → Except FileError Completion × FileTree

end Uplift.Process
