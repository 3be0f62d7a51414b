import Uplift.Process.Basic
import Uplift.Shell.Script
import Uplift.Text.Lines

/-!
# Sessions of a shell

A session holds the files, the variables and what was written so far.  Words are expanded and
streams are redirected in a session; a word may hold a script, so both take what runs one.
-/

set_option autoImplicit false

namespace Uplift.Shell

/-- A running script. -/
structure Session where
  files : FileTree
  dir : Path
  environment : List (String × String)
  /-- The name of the script and its arguments. -/
  arguments : List String
  input : ByteArray
  output : ByteArray
  errors : ByteArray
  /-- The status of the last command. -/
  status : Nat
  /-- The status of the last script whose output became part of a word. -/
  substituted : Nat := 0
  /-- The line of the current command. -/
  line : Nat := 1
  /-- Whether the script ends when a command fails. -/
  stopsOnFailure : Bool := false
  /-- How the script ended, once it has. -/
  ended : Option Process.Status

/-- Runs a script in a session. -/
abbrev Runner := List Char → Session → Session

namespace Session

/-- How a script names its own process. -/
def ownProcess : String := "$$"

/-- The value of a variable. -/
def valueOf (session : Session) (name : String) : String :=
  if name = "$" then ownProcess
  else if name = "?" then toString session.status
  else if name = "#" then toString (session.arguments.length - 1)
  else if name = "@" ∨ name = "*" then " ".intercalate (session.arguments.drop 1)
  else
    match name.toNat? with
    | some index => session.arguments.getD index ""
    | none => (session.environment.lookup name).getD ""

/-- Sets a variable. -/
def assign (session : Session) (name value : String) : Session :=
  { session with environment := (name, value) :: session.environment }

/-- Ends a script. -/
def finish (session : Session) (status : Process.Status) : Session :=
  { session with ended := some status }

/-- The path that a script means. -/
def path (session : Session) (text : String) : Path :=
  session.dir.joinText text

/-- A message of the shell itself: it names the script and the line. -/
def note (session : Session) (message : String) : String :=
  let script := session.arguments.headD "sh"
  let line := session.line
  s!"{script}: {line}: {message}"

/-- The status with which a session leaves. -/
def exitCode (session : Session) : Nat :=
  match session.ended with
  | some (.exited code) => code
  | some (.killed signal) => 128 + signal
  | none => session.status

/-- Goes on after a script that ran apart: the files and the streams are as it left them, and its
variables are gone.  A signal to the process ends both. -/
def resume (session inner : Session) : Session :=
  { session with
    files := inner.files
    input := inner.input
    output := inner.output
    errors := inner.errors
    status := inner.exitCode
    ended := match inner.ended with
      | some (.killed signal) => some (.killed signal)
      | _ => none }

end Session

/-! ## Words -/

/-- A character after expansion, with whether it was quoted; `none` marks a quoted piece. -/
abbrev Expanded := List (Option Char × Bool)

/-- Text as the result of an expansion. -/
def expandText (text : List Char) (isQuoted : Bool) : Expanded :=
  (if isQuoted then [(none, true)] else []) ++ text.map fun c => (some c, isQuoted)

/-- Drops the line feeds at the end of a text. -/
def trimNewlines (text : List Char) : List Char :=
  (text.reverse.dropWhile (· = '\n')).reverse

/-- Expands a piece of a word. -/
def expandPiece (run : Runner) (session : Session) : Piece → Expanded × Session
  | .text content isQuoted => (expandText content isQuoted, session)
  | .variable name isQuoted => (expandText (session.valueOf name).toList isQuoted, session)
  | .output script isQuoted =>
    let inner := run script { session with output := .empty }
    let text := trimNewlines (Text.decodeLossy inner.output).toList
    (expandText text isQuoted,
      { session.resume inner with
        output := session.output
        status := session.status
        substituted := inner.exitCode })

/-- Expands a word. -/
def expandWord (run : Runner) (session : Session) : Word → Expanded × Session
  | [] => ([], session)
  | piece :: rest =>
    let (first, session) := expandPiece run session piece
    let (others, session) := expandWord run session rest
    (first ++ others, session)

/-- Splits an expansion at unquoted blanks.  `current` is the field being read, if there is one. -/
def fields : Option (List Char) → Expanded → List String
  | current, [] => (current.map fun chars => String.ofList chars.reverse).toList
  | current, (none, _) :: rest => fields (some (current.getD [])) rest
  | current, (some c, isQuoted) :: rest =>
    if !isQuoted && (c = ' ' || c = '\t' || c = '\n') then
      (current.map fun chars => String.ofList chars.reverse).toList ++ fields none rest
    else fields (some (c :: current.getD [])) rest

/-- The characters of an expansion that is not split. -/
def joined (expanded : Expanded) : String :=
  String.ofList (expanded.filterMap Prod.fst)

/-- Expands the words of a command. -/
def expandWords (run : Runner) (session : Session) : List Word → List String × Session
  | [] => ([], session)
  | [.variable "@" true, .text [] true] :: rest =>
    let (others, session) := expandWords run session rest
    (session.arguments.drop 1 ++ others, session)
  | word :: rest =>
    let (first, session) := expandWord run session word
    let (others, session) := expandWords run session rest
    (fields none first ++ others, session)

/-- The name and value of a word that assigns a variable. -/
def assignment? (name : List Char) : Word → Option (String × Word)
  | .text [c] false :: rest =>
    if c = '=' then
      if name.isEmpty then none else some (String.ofList name.reverse, rest)
    else if isNameChar c && !(name.isEmpty && c.isDigit) then assignment? (c :: name) rest
    else none
  | _ => none

/-- Carries out the assignments that a command starts with, and gives the words after them. -/
def assignAll (run : Runner) (session : Session) : List Word → Session × List Word
  | [] => (session, [])
  | word :: rest =>
    match assignment? [] word with
    | some (name, value) =>
      let (expanded, session) := expandWord run session value
      assignAll run (session.assign name (joined expanded)) rest
    | none => (session, word :: rest)

/-! ## Streams -/

/-- Where a stream goes. -/
inductive Target where
  | output
  | errors
  | file (path : Path)
  | nowhere
  deriving DecidableEq, Repr

/-- The streams of a command. -/
structure Streams where
  output : Target
  errors : Target
  /-- The input, unless it is the script's own. -/
  input : Option ByteArray

/-- The streams of a script. -/
def Streams.inherited : Streams :=
  ⟨.output, .errors, none⟩

/-- Sends one of the outputs elsewhere. -/
def Streams.send (streams : Streams) (stream : Nat) (target : Target) : Streams :=
  if stream = 2 then { streams with errors := target } else { streams with output := target }

/-- What a stream number stands for. -/
def Streams.target (streams : Streams) (name : String) : Target :=
  if name = "1" then streams.output else if name = "2" then streams.errors else .nowhere

/-- Opens a file for writing. -/
def openFile (session : Session) (append : Bool) (path : Path) : Except FileError FileTree :=
  if append && session.files.hasFile path then .ok session.files
  else session.files.writeBytes path .empty

/-- The file that holds nothing and keeps nothing. -/
def sink : String := "/dev/null"

/-- Carries out one redirection. -/
def redirect (session : Session) (streams : Streams) (redirection : Redirection) (name : String) :
    Except String (Session × Streams) :=
  let path := session.path name
  match redirection.operator with
  | "<<" => .ok (session, { streams with input := some (Text.encode name) })
  | "<" =>
    if name = sink then .ok (session, { streams with input := some .empty })
    else
      match session.files.readBytes path with
      | .ok content => .ok (session, { streams with input := some content })
      | .error _ => .error s!"cannot open {name}: No such file"
  | "<&" => .ok (session, { streams with input := some .empty })
  | ">&" => .ok (session, streams.send redirection.stream (streams.target name))
  | operator =>
    if name = sink then .ok (session, streams.send redirection.stream .nowhere)
    else
      match openFile session (operator = ">>") path with
      | .ok files => .ok ({ session with files }, streams.send redirection.stream (.file path))
      | .error .isDirectory => .error s!"cannot create {name}: Is a directory"
      | .error _ => .error s!"cannot create {name}: Directory nonexistent"

/-- Carries out the redirections of a command. -/
def redirectAll (run : Runner) (session : Session) (streams : Streams) :
    List Redirection → Except String (Session × Streams)
  | [] => .ok (session, streams)
  | redirection :: rest => do
    let (name, session) := expandWord run session redirection.target
    let (session, streams) ← redirect session streams redirection (joined name)
    redirectAll run session streams rest

/-- Writes to a stream. -/
def deliver (session : Session) (target : Target) (bytes : ByteArray) : Session :=
  match target with
  | .output => { session with output := session.output ++ bytes }
  | .errors => { session with errors := session.errors ++ bytes }
  | .nowhere => session
  | .file path =>
    match session.files.readBytes path with
    | .ok content =>
      match session.files.writeBytes path (content ++ bytes) with
      | .ok files => { session with files }
      | .error _ => session
    | .error _ => session

/-- Does something with streams of its own. -/
def within (session : Session) (streams : Streams) (action : Session → Session) : Session :=
  let inner := action
    { session with
      input := streams.input.getD session.input
      output := .empty
      errors := .empty }
  let outer :=
    { inner with
      input := if streams.input.isSome then session.input else inner.input
      output := session.output
      errors := session.errors }
  deliver (deliver outer streams.output inner.output) streams.errors inner.errors

/-- Does something with streams that are redirected.  If they cannot be, it is not done. -/
def redirected (run : Runner) (session : Session) (redirections : List Redirection)
    (action : Session → Session) : Session :=
  match redirectAll run session Streams.inherited redirections with
  | .ok (session, streams) => within session streams action
  | .error message =>
    { session with
      errors := session.errors ++ Text.encode (session.note message ++ "\n")
      status := 2 }

end Uplift.Shell
