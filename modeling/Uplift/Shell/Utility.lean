import Uplift.Shell.Session
import Uplift.Text.Blank
import Uplift.Text.Pattern

/-!
# Utilities for shell scripts

What the commands that scripts use do: write text, read and change files, filter lines.  A utility
gets its arguments and its input; it has an effect on the session, and it says what it writes and
with which status it ends.
-/

set_option autoImplicit false

namespace Uplift.Shell

/-- What a utility did. -/
structure Effect where
  output : ByteArray := .empty
  errors : ByteArray := .empty
  status : Nat := 0
  session : Session

/-- Writes text and succeeds. -/
def say (session : Session) (text : String) : Effect :=
  { output := Text.encode text, session }

/-- Complains and fails. -/
def complain (session : Session) (status : Nat) (message : String) : Effect :=
  { errors := Text.encode (message ++ "\n"), status, session }

/-- Whether an argument is an option. -/
def isOption (argument : String) : Bool :=
  Text.startsWith argument "-" && argument != "-"

/-- The arguments that are no options. -/
def operands (arguments : List String) : List String :=
  arguments.filter fun argument => !isOption argument

/-- Whether an option with this letter is given. -/
def hasOption (letter : Char) (arguments : List String) : Bool :=
  arguments.any fun argument => isOption argument && argument.toList.contains letter

/-- The wording of a cause in the messages of utilities. -/
def causeText (error : FileError) : String :=
  (error.message.splitOn " (os").headD ""

/-! ## Writing text -/

/-- Whether a character is an octal digit. -/
def isOctal (c : Char) : Bool :=
  '0' ≤ c && c ≤ '7'

/-- The value of octal digits. -/
def octalValue (digits : List Char) : Nat :=
  digits.foldl (fun value d => value * 8 + (d.toNat - 48)) 0

/-- A character as bytes. -/
def charBytes (c : Char) : ByteArray :=
  Text.encode (String.singleton c)

/-- What an escape stands for, with what follows it. -/
def escape (text : List Char) : ByteArray × List Char :=
  match text with
  | 'n' :: rest => (charBytes '\n', rest)
  | 't' :: rest => (charBytes '\t', rest)
  | 'r' :: rest => (charBytes '\r', rest)
  | '\\' :: rest => (charBytes '\\', rest)
  | 'a' :: rest => (charBytes (Char.ofNat 7), rest)
  | 'b' :: rest => (charBytes (Char.ofNat 8), rest)
  | 'f' :: rest => (charBytes (Char.ofNat 12), rest)
  | 'v' :: rest => (charBytes (Char.ofNat 11), rest)
  | '"' :: rest => (charBytes '"', rest)
  | text =>
    let digits := (text.take 3).takeWhile isOctal
    if digits.isEmpty then (charBytes '\\', text)
    else (ByteArray.mk #[(octalValue digits).toUInt8], text.drop digits.length)

/-- Writes a format once.  The flag says whether an argument was used. -/
def formatOnce : Nat → List Char → List String → Bool → ByteArray × List String × Bool
  | 0, _, arguments, used => (.empty, arguments, used)
  | _ + 1, [], arguments, used => (.empty, arguments, used)
  | fuel + 1, '\\' :: rest, arguments, used =>
    let (bytes, rest) := escape rest
    let (others, arguments, used) := formatOnce fuel rest arguments used
    (bytes ++ others, arguments, used)
  | fuel + 1, '%' :: '%' :: rest, arguments, used =>
    let (others, arguments, used) := formatOnce fuel rest arguments used
    (charBytes '%' ++ others, arguments, used)
  | fuel + 1, '%' :: 'd' :: rest, arguments, _ =>
    let (others, later, used) := formatOnce fuel rest (arguments.drop 1) true
    let number := (arguments.headD "").toInt?.getD 0
    (Text.encode (toString number) ++ others, later, used)
  | fuel + 1, '%' :: _ :: rest, arguments, _ =>
    let (others, later, used) := formatOnce fuel rest (arguments.drop 1) true
    (Text.encode (arguments.headD "") ++ others, later, used)
  | fuel + 1, c :: rest, arguments, used =>
    let (others, arguments, used) := formatOnce fuel rest arguments used
    (charBytes c ++ others, arguments, used)

/-- Writes a format as often as there are arguments for it. -/
def formatAll (format : List Char) : Nat → List String → ByteArray
  | 0, _ => .empty
  | fuel + 1, arguments =>
    let (bytes, rest, used) := formatOnce (format.length + 1) format arguments false
    if used && !rest.isEmpty then bytes ++ formatAll format fuel rest else bytes

/-- Writes text with its escapes. -/
def unescape : Nat → List Char → ByteArray
  | 0, _ => .empty
  | _ + 1, [] => .empty
  | fuel + 1, '\\' :: rest =>
    let (bytes, rest) := escape rest
    bytes ++ unescape fuel rest
  | fuel + 1, c :: rest => charBytes c ++ unescape fuel rest

/-- Writes words with blanks between them. -/
def echo (session : Session) (arguments : List String) : Effect :=
  let (newline, words) := match arguments with
    | "-n" :: rest => ("", rest)
    | words => ("\n", words)
  let text := (" ".intercalate words ++ newline).toList
  { output := unescape (text.length + 1) text, session }

/-! ## Files -/

/-- Writes the contents of files, or the input. -/
def contents (utility : String) (session : Session) (input : ByteArray) : List String → Effect
  | [] => { output := input, session := { session with input := .empty } }
  | names =>
    names.foldl (fun effect name =>
      if name = "-" then { effect with output := effect.output ++ input }
      else
        match session.files.readBytes (session.path name) with
        | .ok content => { effect with output := effect.output ++ content }
        | .error error =>
          let cause := causeText error
          { effect with
            errors := effect.errors ++ Text.encode s!"{utility}: {name}: {cause}\n"
            status := 1 })
      { session }

/-- Changes the files by one change for each name, and complains where that fails. -/
def changeFiles (session : Session) (change : FileTree → Path → Except FileError FileTree)
    (complaint : String → FileError → Option String) (names : List String) : Effect :=
  names.foldl (fun effect name =>
    match change effect.session.files (session.path name) with
    | .ok files => { effect with session := { effect.session with files } }
    | .error error =>
      match complaint name error with
      | some message =>
        { effect with
          errors := effect.errors ++ Text.encode (message ++ "\n")
          status := 1 }
      | none => effect) { session }

/-- Creates a file that is missing. -/
def touchFile (files : FileTree) (path : Path) : Except FileError FileTree :=
  if files.has path then .ok files else files.writeBytes path .empty

/-- Removes a file. -/
def removeOnly (files : FileTree) (path : Path) : Except FileError FileTree :=
  if files.hasDirectory path then .error .isDirectory else files.removeFile path

/-- The complaint of a utility about a file. -/
def complaintAbout (action : String) (name : String) (error : FileError) : Option String :=
  let cause := causeText error
  some s!"{action} '{name}': {cause}"

/-- Removes what is named. -/
def remove (session : Session) (arguments : List String) : Effect :=
  let isForced := hasOption 'f' arguments
  let complaint := fun name error =>
    if isForced && error = .notFound then none
    else complaintAbout "rm: cannot remove" name error
  if hasOption 'r' arguments || hasOption 'R' arguments then
    changeFiles session FileTree.removeAll complaint (operands arguments)
  else changeFiles session removeOnly complaint (operands arguments)

/-- Where something goes that is put at a path: into a directory, or onto the path itself. -/
def destination (files : FileTree) (source target : Path) : Path :=
  if files.hasDirectory target then target.joinText (source.fileName?.getD "") else target

/-- Copies a file, or a directory with everything in it. -/
def copyTree (isDeep : Bool) (files : FileTree) (source target : Path) :
    Except FileError FileTree := do
  match ← files.find source with
  | .file content isExecutable =>
    let isNew := !files.has target
    let files ← files.writeBytes target content
    if isNew then files.setExecutable target isExecutable else .ok files
  | .directory entries =>
    if isDeep then .ok (files.set (← files.locateNew target) (.directory entries))
    else .error .isDirectory

/-- Puts files elsewhere: the last name says where. -/
def transfer (session : Session) (utility : String)
    (change : FileTree → Path → Path → Except FileError FileTree) (names : List String) : Effect :=
  match names.reverse with
  | target :: sources =>
    let path := session.path target
    changeFiles session
      (fun files source => change files source (destination files source path))
      (fun name error => complaintAbout s!"{utility}: cannot stat" name error) sources.reverse
  | [] => complain session 1 s!"{utility}: missing file operand"

/-- Lists the names in a directory, or the file itself. -/
def listNames (session : Session) (arguments : List String) : Effect :=
  let name := (operands arguments).headD "."
  let path := session.path name
  if session.files.hasFile path then say session (name ++ "\n")
  else
    match session.files.list path with
    | .ok names =>
      let shown := names.filter fun name =>
        hasOption 'A' arguments || !Text.startsWith name "."
      let sorted := shown.mergeSort fun a b => a ≤ b
      say session (String.join (sorted.map (· ++ "\n")))
    | .error error =>
      let cause := causeText error
      complain session 2 s!"ls: cannot access '{name}': {cause}"

/-- Makes files executable, or not. -/
def changeMode (session : Session) : List String → Effect
  | mode :: names =>
    let isExecutable := mode.toList.contains '7' || Text.endsWith mode "+x"
    changeFiles session (fun files path => files.setExecutable path isExecutable)
      (complaintAbout "chmod: cannot access") names
  | [] => complain session 1 "chmod: missing operand"

/-! ## Tests -/

/-- Compares two numbers. -/
def compareNumbers (compare : Int → Int → Bool) (a b : String) : Bool :=
  match a.toInt?, b.toInt? with
  | some a, some b => compare a b
  | _, _ => false

/-- Whether a file is not empty. -/
def hasContent (session : Session) (name : String) : Bool :=
  match session.files.readBytes (session.path name) with
  | .ok content => content.size ≠ 0
  | .error _ => session.files.hasDirectory (session.path name)

/-- Whether a file may be executed. -/
def mayExecute (session : Session) (name : String) : Bool :=
  match session.files.find (session.path name) with
  | .ok (.file _ isExecutable) => isExecutable
  | .ok (.directory _) => true
  | .error _ => false

/-- Evaluates a test. -/
def test (session : Session) : List String → Bool
  | [] => false
  | [text] => text ≠ ""
  | ["-n", text] => text ≠ ""
  | ["-z", text] => text = ""
  | ["-f", name] => session.files.hasFile (session.path name)
  | ["-d", name] => session.files.hasDirectory (session.path name)
  | ["-e", name] => session.files.has (session.path name)
  | ["-s", name] => hasContent session name
  | ["-x", name] => mayExecute session name
  | ["!", text] => text = ""
  | [a, "=", b] => a = b
  | [a, "!=", b] => a ≠ b
  | [a, "-eq", b] => compareNumbers (fun a b => a = b) a b
  | [a, "-ne", b] => compareNumbers (fun a b => a ≠ b) a b
  | [a, "-lt", b] => compareNumbers (fun a b => a < b) a b
  | [a, "-le", b] => compareNumbers (fun a b => a ≤ b) a b
  | [a, "-gt", b] => compareNumbers (fun a b => b < a) a b
  | [a, "-ge", b] => compareNumbers (fun a b => b ≤ a) a b
  | "!" :: rest => !test session rest
  | _ => false

/-- The effect of a test. -/
def tested (session : Session) (holds : Bool) : Effect :=
  { status := if holds then 0 else 1, session }

/-! ## Filters -/

/-- Changes the text that a utility writes. -/
def Effect.mapText (effect : Effect) (change : List Char → List Char) : Effect :=
  let text := (Text.decodeLossy effect.output).toList
  { effect with output := Text.encode (String.ofList (change text)) }

/-- The lines of a text without their ends. -/
def plainLines (text : List Char) : List (List Char) :=
  let lines := Text.splitOn '\n' text
  if lines.getLast? = some [] then lines.dropLast else lines

/-- Whether the last line of a text ends. -/
def isClosed (text : List Char) : Bool :=
  text.getLast? = some '\n'

/-- Keeps the lines or the pieces that fit a pattern. -/
def grep (session : Session) (input : ByteArray) (arguments : List String) : Effect :=
  match operands arguments with
  | [] => complain session 2 "Usage: grep [OPTION]... PATTERNS [FILE]..."
  | pattern :: names =>
    match Text.Pattern.read? (hasOption 'E' arguments) pattern.toList with
    | none => complain session 2 "grep: Invalid regular expression"
    | some pattern =>
      let effect := contents "grep" session input names
      let lines := plainLines (Text.decodeLossy effect.output).toList
      let fitting := lines.filter fun line => pattern.fits line != hasOption 'v' arguments
      let pieces := (lines.flatMap (pattern.cut true)).filterMap fun (fits, piece) =>
        if fits && !piece.isEmpty then some piece else none
      let output :=
        if hasOption 'q' arguments then []
        else if hasOption 'c' arguments then (toString fitting.length ++ "\n").toList
        else if hasOption 'o' arguments then endLines pieces
        else endLines fitting
      { effect with
        output := Text.encode (String.ofList output)
        status := if effect.status ≠ 0 then 2 else if fitting.isEmpty then 1 else 0 }

/-- The pattern, the replacement and the flags of a substitution. -/
def substitution? (text : List Char) : Option (List Char × List Char × List Char) :=
  match text with
  | 's' :: mark :: rest =>
    match Text.splitOn mark rest with
    | [pattern, replacement, flags] => some (pattern, replacement, flags)
    | _ => none
  | _ => none

/-- A replacement in which `&` stands for the piece that is replaced. -/
def fillIn (piece : List Char) : List Char → List Char
  | '\\' :: 'n' :: rest => '\n' :: fillIn piece rest
  | '\\' :: c :: rest => c :: fillIn piece rest
  | '&' :: rest => piece ++ fillIn piece rest
  | c :: rest => c :: fillIn piece rest
  | [] => []

/-- Substitutes in every line of files or of the input. -/
def sed (session : Session) (input : ByteArray) (arguments : List String) : Effect :=
  let isExtended := hasOption 'E' arguments || hasOption 'r' arguments
  let rest := arguments.filter fun argument => !(["-E", "-r", "-e"].contains argument)
  match rest with
  | script :: names =>
    let parts := do
      let (pattern, replacement, flags) ← substitution? script.toList
      some (← Text.Pattern.read? isExtended pattern, replacement, flags)
    match parts with
    | some (pattern, replacement, flags) =>
      (contents "sed" session input names).mapText fun text =>
        let change := fun line =>
          Text.replacePieces (fun piece => fillIn piece replacement) (flags.contains 'g')
            (pattern.cut true line)
        let done := endLines ((plainLines text).map change)
        if isClosed text then done else done.dropLast
    | none => complain session 1 "sed: -e expression #1, char 1: unknown command"
  | [] => complain session 1 "Usage: sed [OPTION]... \x7bscript-only-if-no-other-script\x7d"

/-- The value of an option that is given as one argument or as two. -/
def optionValue? (option : String) : List String → Option String
  | [] => none
  | argument :: rest =>
    if argument = option then rest.head?
    else
      match Text.stripPrefix? option.toList argument.toList with
      | some value => some (String.ofList value)
      | none => optionValue? option rest

/-- The arguments after the options, where some options take the next argument as their value. -/
def operandsAfter (valued : List String) : List String → List String
  | [] => []
  | [argument] => if isOption argument then [] else [argument]
  | argument :: value :: rest =>
    if valued.contains argument then operandsAfter valued rest
    else if isOption argument then operandsAfter valued (value :: rest)
    else argument :: operandsAfter valued (value :: rest)

/-- Keeps one field of every line that has more than one. -/
def cut (session : Session) (input : ByteArray) (arguments : List String) : Effect :=
  let mark := ((optionValue? "-d" arguments).bind fun value => value.toList.head?).getD '\t'
  let index := ((optionValue? "-f" arguments).bind String.toNat?).getD 1
  (contents "cut" session input (operandsAfter ["-d", "-f"] arguments)).mapText fun text =>
    endLines ((plainLines text).map fun line =>
      if line.contains mark then (Text.splitOn mark line).getD (index - 1) [] else line)

/-- Keeps the first lines. -/
def head (session : Session) (input : ByteArray) (arguments : List String) : Effect :=
  let count := ((optionValue? "-n" arguments).bind String.toNat?).getD 10
  (contents "head" session input (operandsAfter ["-n"] arguments)).mapText fun text =>
    let lines := plainLines text
    let done := endLines (lines.take count)
    if isClosed text || count < lines.length then done else done.dropLast

/-- Counts lines or bytes. -/
def count (session : Session) (input : ByteArray) (arguments : List String) : Effect :=
  let names := operands arguments
  let effect := contents "wc" session input names
  let number :=
    if hasOption 'c' arguments then effect.output.size
    else lineCount (Text.decodeLossy effect.output).toList
  let label := match names with
    | [] => ""
    | name :: _ => " " ++ name
  { effect with output := Text.encode s!"{number}{label}\n" }

/-- The characters that an argument lists, singly or as ranges. -/
def listedChars (text : String) : List Char :=
  let plain := (Text.decodeLossy (unescape (text.length + 1) text.toList)).toList
  (Text.readRanges plain).flatMap fun (low, high) =>
    (List.range (high.toNat + 1 - low.toNat)).map fun offset => Char.ofNat (low.toNat + offset)

/-- Deletes characters, or puts others in their place. -/
def replaceChars (session : Session) (input : ByteArray) : List String → Effect
  | ["-d", deleted] =>
    let deleted := listedChars deleted
    (contents "tr" session input []).mapText fun text => text.filter fun c => !deleted.contains c
  | [old, new] =>
    let old := listedChars old
    let new := listedChars new
    (contents "tr" session input []).mapText fun text => text.map fun c =>
      match old.idxOf? c with
      | some index => (new[index]?).getD (new.getLast?.getD c)
      | none => c
  | _ => complain session 1 "tr: missing operand"

/-- Sorts lines. -/
def sortLines (session : Session) (input : ByteArray) (arguments : List String) : Effect :=
  (contents "sort" session input (operands arguments)).mapText fun text =>
    let sorted := ((plainLines text).map String.ofList).mergeSort fun a b => a ≤ b
    let kept := if hasOption 'u' arguments then sorted.eraseReps else sorted
    endLines (kept.map String.toList)

/-! ## The session itself -/

/-- Gives the words of a line to variables; the last one takes what is left. -/
def assignWords (session : Session) : List String → List Char → Session
  | [], _ => session
  | [name], line => session.assign name (String.ofList (Text.trim line))
  | name :: rest, line =>
    let line := Text.trimStart line
    let word := line.takeWhile fun c => !Text.isBlank c
    assignWords (session.assign name (String.ofList word)) rest (line.drop word.length)

/-- Reads a line into variables. -/
def readLine (session : Session) (input : ByteArray) (names : List String) : Effect :=
  let text := (Text.decodeLossy input).toList
  let (line, rest, status) := match Text.splitOnce? '\n' text with
    | some (line, rest) => (line, rest, 0)
    | none => (text, [], 1)
  { status
    session := { assignWords session names line with input := Text.encode (String.ofList rest) } }

/-- The number of a signal, from the option that names it. -/
def signalOf? (option : String) : Option Nat :=
  match option with
  | "-HUP" | "-SIGHUP" => some 1
  | "-INT" | "-SIGINT" => some 2
  | "-QUIT" | "-SIGQUIT" => some 3
  | "-ABRT" | "-SIGABRT" => some 6
  | "-KILL" | "-SIGKILL" => some 9
  | "-USR1" | "-SIGUSR1" => some 10
  | "-SEGV" | "-SIGSEGV" => some 11
  | "-USR2" | "-SIGUSR2" => some 12
  | "-PIPE" | "-SIGPIPE" => some 13
  | "-ALRM" | "-SIGALRM" => some 14
  | "-TERM" | "-SIGTERM" => some 15
  | option => do (String.ofList (← Text.stripPrefix? ['-'] option.toList)).toNat?

/-- The signal that an invocation sends, and to whom. -/
def signalAndTargets : List String → Nat × List String
  | "-s" :: name :: rest => ((signalOf? ("-" ++ name)).getD 15, rest)
  | option :: rest =>
    match signalOf? option with
    | some signal => (signal, rest)
    | none => (15, option :: rest)
  | [] => (15, [])

/-- Sends a signal; only one to the script itself has an effect. -/
def kill (session : Session) (arguments : List String) : Effect :=
  let (signal, targets) := signalAndTargets arguments
  if targets.contains Session.ownProcess then { session := session.finish (.killed signal) }
  else complain session 1 (session.note "kill: No such process")

/-- Ends the script. -/
def exit (session : Session) (arguments : List String) : Effect :=
  let code := match arguments with
    | code :: _ => (code.toNat?.getD 2) % 256
    | [] => session.status
  { status := code, session := session.finish (.exited code) }

/-- Goes to another directory. -/
def changeDirectory (session : Session) (name : String) : Effect :=
  let path := session.path name
  match session.files.canonicalize path with
  | .ok dir =>
    if session.files.hasDirectory path then { session := { session with dir } }
    else complain session 2 (session.note s!"cd: can't cd to {name}")
  | .error _ => complain session 2 (session.note s!"cd: can't cd to {name}")

/-- Changes the settings and the arguments of a script. -/
def set (session : Session) : List String → Session
  | [] => session
  | "--" :: rest => { session with arguments := session.arguments.headD "sh" :: rest }
  | option :: rest =>
    if isOption option && option.toList.contains 'e' then
      set { session with stopsOnFailure := true } rest
    else if option = "+e" then set { session with stopsOnFailure := false } rest
    else set session rest

/-- Sets variables that other programs see. -/
def exportAll (session : Session) (assignments : List String) : Session :=
  assignments.foldl (fun session assignment =>
    match Text.splitOnce? '=' assignment.toList with
    | some (name, value) => session.assign (String.ofList name) (String.ofList value)
    | none => session) session

/-- Runs another script to its end. -/
def runNested (run : Runner) (session : Session) (input : ByteArray) (script : String)
    (arguments : List String) : Effect :=
  let inner := run script.toList
    { session with
      arguments
      input
      output := .empty
      errors := .empty
      status := 0
      stopsOnFailure := false }
  { output := inner.output
    errors := inner.errors
    status := inner.exitCode
    session := { session with files := inner.files, input := .empty } }

/-- The programs that are found by their names. -/
def programs : List String :=
  ["sh", "true", "false", "echo", "printf", "cat", "pwd", "touch", "test", "[", "sed", "mkdir",
    "rm", "sleep", "grep", "cut", "cp", "mv", "ls", "head", "wc", "tr", "sort", "chmod", "kill",
    "basename", "dirname"]

/-- Runs a utility by its name. -/
def utility (run : Runner) (session : Session) (input : ByteArray) (name : String)
    (arguments : List String) : Effect :=
  match name with
  | "true" | ":" | "umask" | "sleep" | "trap" | "wait" => { session }
  | "false" => { status := 1, session }
  | "echo" => echo session arguments
  | "printf" =>
    match arguments with
    | format :: rest => { output := formatAll format.toList (rest.length + 1) rest, session }
    | [] => complain session 2 (session.note "printf: usage: printf format [arg ...]")
  | "cat" => contents "cat" session input arguments
  | "pwd" => say session (session.dir.text ++ "\n")
  | "touch" =>
    changeFiles session touchFile (complaintAbout "touch: cannot touch") (operands arguments)
  | "[" => tested session (test session arguments.dropLast)
  | "test" => tested session (test session arguments)
  | "sed" => sed session input arguments
  | "grep" => grep session input arguments
  | "cut" => cut session input arguments
  | "head" => head session input arguments
  | "wc" => count session input arguments
  | "tr" => replaceChars session input arguments
  | "sort" => sortLines session input arguments
  | "read" => readLine session input (operands arguments)
  | "mkdir" =>
    changeFiles session
      (if hasOption 'p' arguments then FileTree.makeDirectories else FileTree.makeDirectory)
      (complaintAbout "mkdir: cannot create directory") (operands arguments)
  | "rm" => remove session arguments
  | "cp" =>
    let isDeep := hasOption 'r' arguments || hasOption 'R' arguments || hasOption 'a' arguments
    transfer session "cp" (copyTree isDeep) (operands arguments)
  | "mv" => transfer session "mv" FileTree.rename (operands arguments)
  | "ls" => listNames session arguments
  | "chmod" => changeMode session arguments
  | "basename" => say session ((((Path.ofText (arguments.headD "")).fileName?).getD "/") ++ "\n")
  | "dirname" =>
    let parent := (Path.ofText (arguments.headD "")).parent?.getD (Path.ofText "/")
    say session ((if parent.text = "" then "." else parent.text) ++ "\n")
  | "cd" => changeDirectory session (arguments.headD "")
  | "kill" => kill session arguments
  | "exit" => exit session arguments
  | "set" => { session := set session arguments }
  | "shift" =>
    { session := { session with
        arguments := session.arguments.take 1 ++ session.arguments.drop 2 } }
  | "export" => { session := exportAll session arguments }
  | "command" =>
    match operands arguments with
    | name :: _ =>
      if programs.contains name then say session s!"/usr/bin/{name}\n"
      else { status := 127, session }
    | [] => { session }
  | "sh" =>
    match arguments with
    | "-c" :: script :: rest =>
      runNested run session input script (if rest.isEmpty then ["sh"] else rest)
    | _ => complain session 2 "sh: no script"
  | _ => complain session 127 (session.note s!"{name}: not found")

end Uplift.Shell
