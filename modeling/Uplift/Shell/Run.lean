import Uplift.Shell.Utility

/-!
# Running shell scripts

A machine whose programs are shell scripts and the few utilities that such scripts use.  Scripts
nest through substitution, so running one takes a bound on the depth; loops have a bound on their
rounds.
-/

set_option autoImplicit false

namespace Uplift.Shell

/-! ## Commands -/

/-- Runs a utility and leaves what it wrote in the session. -/
def invoke (run : Runner) (name : String) (arguments : List String) (session : Session) :
    Session :=
  let effect := utility run session session.input name arguments
  { effect.session with
    output := effect.session.output ++ effect.output
    errors := effect.session.errors ++ effect.errors
    status := effect.status }

/-- Runs a command whose words are expanded.  A program that takes the place of the script ends
it. -/
def perform (run : Runner) (session : Session) (redirections : List Redirection) :
    List String → Session
  | [] =>
    redirected run session redirections fun session =>
      { session with status := session.substituted }
  | "exec" :: [] =>
    match redirectAll run session Streams.inherited redirections with
    | .ok (session, streams) =>
      { session with input := streams.input.getD session.input, status := 0 }
    | .error message =>
      { session with errors := session.errors ++ Text.encode (session.note message ++ "\n") }.finish
        (.exited 2)
  | "exec" :: name :: arguments =>
    let session := redirected run session redirections (invoke run name arguments)
    { session with ended := some (session.ended.getD (.exited session.status)) }
  | name :: arguments => redirected run session redirections (invoke run name arguments)

/-- Runs a simple command.  Variables that it sets before a program are set for the program
only. -/
def runSimple (run : Runner) (session : Session) (line : Nat) (words : List Word)
    (redirections : List Redirection) : Session :=
  let session := { session with line, substituted := 0 }
  let (assigned, words) := assignAll run session words
  match expandWords run assigned words with
  | ([], assigned) => perform run assigned redirections []
  | (arguments, assigned) =>
    let after := perform run assigned redirections arguments
    if assigned.environment.length = session.environment.length then after
    else { after with environment := session.environment }

/-- Ends a script that stops on failure, unless the failure answers a test. -/
def Session.check (isTested : Bool) (session : Session) : Session :=
  if session.stopsOnFailure && !isTested && session.status ≠ 0 && session.ended.isNone then
    session.finish (.exited session.status)
  else session

/-- How often a loop may run. -/
def maxRounds : Nat := 10000

/-- Goes on with a session unless its script has ended. -/
def Session.continue (session : Session) (next : Session → Session) : Session :=
  if session.ended.isSome then session else next session

/-- Repeats an action as long as a test succeeds. -/
def repeatWhile (test action : Session → Session) : Nat → Session → Session
  | 0, session => session
  | rounds + 1, session =>
    (test session).continue fun tested =>
      if tested.status = 0 then (action tested).continue (repeatWhile test action rounds)
      else { tested with status := 0 }

/-- Runs a script.  `isTested` says whether its status answers a test. -/
def Script.run (run : Runner) (isTested : Bool) : Script → Session → Session
  | .nothing, session => { session with status := 0 }
  | .simple line words redirections, session =>
    (runSimple run session line words redirections).check isTested
  | .seq first second, session =>
    (first.run run isTested session).continue (second.run run isTested)
  | .both first second, session =>
    (first.run run true session).continue fun session =>
      if session.status = 0 then second.run run isTested session else session
  | .either first second, session =>
    (first.run run true session).continue fun session =>
      if session.status = 0 then session else second.run run isTested session
  | .negated script, session =>
    (script.run run true session).continue fun session =>
      { session with status := if session.status = 0 then 1 else 0 }
  | .pipe first second, session =>
    let writer := session.resume (first.run run isTested { session with output := .empty })
    let reader := writer.resume
      (second.run run isTested { writer with input := writer.output, output := session.output })
    { reader with input := writer.input }.check isTested
  | .group script redirections, session =>
    redirected run session redirections (script.run run isTested)
  | .apart script redirections, session =>
    let inner := redirected run session redirections (script.run run isTested)
    (session.resume inner).check isTested
  | .branch test yes no, session =>
    (test.run run true session).continue fun session =>
      if session.status = 0 then yes.run run isTested session else no.run run isTested session
  | .each name words body, session =>
    let (items, session) := expandWords run session words
    items.foldl (fun session item =>
      session.continue fun session => body.run run isTested (session.assign name item))
      { session with status := 0 }
  | .loop test body, session =>
    repeatWhile (test.run run true) (body.run run isTested) maxRounds session

/-- Runs the text of a script, with scripts nested up to a depth. -/
def runScript : Nat → Runner
  | 0, _, session => { session with status := 2 }
  | depth + 1, text, session =>
    match Script.read? text with
    | some script => script.run (runScript depth) false session
    | none =>
      { session with
        errors := session.errors ++ Text.encode (session.note "Syntax error\n")
        status := 2
        ended := some (.exited 2) }

/-- How deep scripts may nest. -/
def maxDepth : Nat := 32

/-! ## Programs -/

/-- What a session amounts to when it is over. -/
def Session.completion (session : Session) : Process.Completion :=
  ⟨session.ended.getD (.exited session.status), session.output, session.errors⟩

/-- The session in which a program starts. -/
def Session.start (files : FileTree) (dir : Path) (invocation : Process.Invocation) : Session :=
  { files
    dir
    environment := invocation.environment
    arguments := invocation.program :: invocation.arguments
    input := invocation.input
    output := .empty
    errors := .empty
    status := 0
    ended := none }

/-- The interpreters that run scripts. -/
def interpreters : List String :=
  ["/bin/sh", "/bin/dash", "/bin/bash", "/usr/bin/sh", "/usr/bin/bash", "/usr/bin/env sh",
    "/usr/bin/env bash"]

/-- The script in an executable file, and whether it stops on failure.  It starts with a line that
names an interpreter. -/
def scriptOf (content : ByteArray) : Except FileError (Bool × List Char) :=
  match (Text.decodeLossy content).toList with
  | '#' :: '!' :: rest =>
    let line := rest.takeWhile (· != '\n')
    let script := rest.drop line.length
    let named := Text.trim line
    match Text.stripSuffix? " -e".toList named with
    | some interpreter =>
      if interpreters.contains (String.ofList (Text.trim interpreter)) then .ok (true, script)
      else .error .notFound
    | none =>
      if interpreters.contains (String.ofList named) then .ok (false, script)
      else .error .notFound
  | _ => .error .notExecutable

/-- Runs an executable file. -/
def runFile (files : FileTree) (dir : Path) (invocation : Process.Invocation) :
    Except FileError Process.Completion × FileTree :=
  match files.find (dir.joinText invocation.program) with
  | .error error => (.error error, files)
  | .ok (.directory _) => (.error .permissionDenied, files)
  | .ok (.file _ false) => (.error .permissionDenied, files)
  | .ok (.file content true) =>
    match scriptOf content with
    | .error error => (.error error, files)
    | .ok (stopsOnFailure, script) =>
      let session := runScript maxDepth script
        { Session.start files dir invocation with stopsOnFailure }
      (.ok session.completion, session.files)

/-- The status with which a utility leaves its session. -/
def Effect.completion (effect : Effect) : Process.Completion :=
  ⟨effect.session.ended.getD (.exited effect.status), effect.output, effect.errors⟩

/-- Runs a program that is found by its name. -/
def runNamed (files : FileTree) (dir : Path) (invocation : Process.Invocation) :
    Except FileError Process.Completion × FileTree :=
  let session := Session.start files dir invocation
  match invocation.program, invocation.arguments with
  | "sh", "-c" :: script :: rest =>
    let arguments := if rest.isEmpty then ["sh"] else rest
    let session := runScript maxDepth script.toList { session with arguments }
    (.ok session.completion, session.files)
  | name, arguments =>
    if programs.contains name then
      let effect := utility (runScript maxDepth) session invocation.input name arguments
      (.ok effect.completion, effect.session.files)
    else (.error .notFound, files)

/-- The machine that runs scripts. -/
def machine : Process.Machine := fun invocation files =>
  match files.find invocation.dir, files.canonicalize invocation.dir with
  | .ok (.directory _), .ok dir =>
    if invocation.program.toList.contains '/' then runFile files dir invocation
    else runNamed files dir invocation
  | .ok (.file ..), _ => (.error .notDirectory, files)
  | .error error, _ => (.error error, files)
  | _, .error error => (.error error, files)

end Uplift.Shell
