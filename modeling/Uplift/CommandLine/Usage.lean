import Uplift.Text.Search

/-!
# Reading arguments

The arguments of a program are read from left to right at one level: options by their names,
positional arguments by their places, and the name of a command, which ends the level and leaves
the rest to the level of that command.  An option's value is the rest of its argument after an
equals sign, or else the next argument.  After two dashes everything is positional.

A value is checked when the next argument that is understood comes, not when it is read.  So of two
faults an unknown argument is reported rather than a bad value right before it.
-/

set_option autoImplicit false

namespace Uplift.CommandLine

/-- Why arguments do not lead to a run. -/
inductive UsageError where
  | helpRequested
  | versionRequested
  /-- There are no arguments at all. -/
  | nothingGiven
  | missingCommand
  | unknownCommand
  | missingArgument
  | unknownArgument
  | repeatedArgument
  | invalidValue
  /-- There is a value for an option that takes none. -/
  | surplusValue
  deriving DecidableEq, Repr

/-- Whether the user asked for what is shown. -/
def UsageError.isAnswer : UsageError → Bool
  | .helpRequested | .versionRequested => true
  | _ => false

/-- The wording of an error. -/
def UsageError.message : UsageError → String
  | .helpRequested => "usage: migrasaurus [options] scan | guide | apply | codemod | diff | convert"
  | .versionRequested => "migrasaurus 0.1.0"
  | .nothingGiven | .missingCommand => "a command is missing"
  | .unknownCommand => "there is no such command"
  | .missingArgument => "an argument is missing"
  | .unknownArgument => "there is an argument too many"
  | .repeatedArgument => "an argument is given twice"
  | .invalidValue => "a value is missing"
  | .surplusValue => "there is a value for an option that takes none"

/-- Something that has a value. -/
structure Slot where
  name : String
  /-- Whether the value must not be empty. -/
  nonempty : Bool := false
  /-- Whether there may be several values. -/
  repeatable : Bool := false
  deriving DecidableEq, Repr

/-- An option. -/
inductive OptionSpec where
  /-- An option that is there or not. -/
  | switch (name : String)
  | value (slot : Slot) (required : Bool)
  | help
  | version
  deriving DecidableEq, Repr

/-- The name of an option, without the dashes. -/
def OptionSpec.name : OptionSpec → String
  | .switch name => name
  | .value slot _ => slot.name
  | .help => "help"
  | .version => "version"

/-- The letter that stands for an option. -/
def OptionSpec.letter? : OptionSpec → Option Char
  | .help => some 'h'
  | .version => some 'V'
  | _ => none

/-- What is understood at one level. -/
structure Level where
  options : List OptionSpec
  positionals : List Slot
  /-- The names of commands, with `help` among them, or nothing if there are none. -/
  commands : List String

/-- The name of the command that explains the others. -/
def helpCommand : String := "help"

/-! ## Progress -/

/-- What was given, in order: names with their values, which for switches are empty. -/
abbrev Given := List (String × String)

/-- Whether there is something under a name. -/
def Given.has (given : Given) (name : String) : Bool :=
  given.any fun entry => entry.1 = name

/-- The values under a name. -/
def Given.values (given : Given) (name : String) : List String :=
  (given.filter fun entry => entry.1 = name).map Prod.snd

/-- A value that is not checked yet; none if it has not come. -/
structure Pending where
  slot : Slot
  value : Option String
  deriving DecidableEq, Repr

/-- How far the reading of a level has come. -/
structure Progress where
  given : Given := []
  pending : Option Pending := none
  /-- Whether the next argument is the value of an option. -/
  awaiting : Bool := false
  /-- The number of positional arguments so far. -/
  placed : Nat := 0

namespace Progress

/-- Checks the pending value and adds it to what was given. -/
def settle (progress : Progress) : Except UsageError Progress :=
  match progress.pending with
  | none => .ok progress
  | some ⟨_, none⟩ => .error .invalidValue
  | some ⟨slot, some value⟩ =>
    if !slot.repeatable && progress.given.has slot.name then .error .repeatedArgument
    else if slot.nonempty && value = "" then .error .invalidValue
    else .ok { progress with given := progress.given ++ [(slot.name, value)], pending := none }

/-- Takes an option, with the value that is attached to it. -/
def takeOption (progress : Progress) (option : OptionSpec) (attached : Option String) :
    Except UsageError Progress :=
  match option, attached with
  | .value slot _, some value => do
    let progress ← progress.settle
    { progress with pending := some ⟨slot, some value⟩, awaiting := false }.settle
  | .value slot _, none => do
    .ok { ← progress.settle with pending := some ⟨slot, none⟩, awaiting := true }
  | _, some _ => .error .surplusValue
  | .switch name, none => do
    let progress ← progress.settle
    if progress.given.has name then .error .repeatedArgument
    else .ok { progress with given := progress.given ++ [(name, "")], awaiting := false }
  | .help, none => do
    let _ ← progress.settle
    .error .helpRequested
  | .version, none => do
    let _ ← progress.settle
    .error .versionRequested

/-- Takes the value that an option awaits. -/
def takeValue (progress : Progress) (value : String) : Progress :=
  { progress with
    pending := progress.pending.map fun pending => { pending with value := some value }
    awaiting := false }

/-- Takes a positional argument. -/
def takePositional (progress : Progress) (slot : Slot) (value : String) :
    Except UsageError Progress := do
  let progress ← progress.settle
  .ok { progress with
    pending := some ⟨slot, some value⟩, awaiting := false, placed := progress.placed + 1 }

end Progress

/-! ## Levels -/

/-- What an argument looks like. -/
inductive Shape where
  /-- Two dashes. -/
  | divider
  /-- A name after two dashes, with the value attached to it. -/
  | long (name : String) (attached : Option String)
  /-- A letter after one dash. -/
  | short (letter : Char)
  | plain
  deriving DecidableEq, Repr

/-- The look of an argument. -/
def Shape.of (argument : String) : Shape :=
  match argument.toList with
  | ['-', '-'] => .divider
  | '-' :: '-' :: name =>
    match Text.splitOnce? '=' name with
    | some (name, value) => .long (String.ofList name) (some (String.ofList value))
    | none => .long (String.ofList name) none
  | '-' :: letter :: _ => .short letter
  | _ => .plain

namespace Level

/-- The option of a name. -/
def named? (level : Level) (name : String) : Option OptionSpec :=
  level.options.find? fun option => option.name = name

/-- The option of a letter. -/
def lettered? (level : Level) (letter : Char) : Option OptionSpec :=
  level.options.find? fun option => option.letter? = some letter

/-- The outcome of asking for help, given what to explain. -/
def explain (level : Level) : List String → UsageError
  | [] => .helpRequested
  | [name] => if level.commands.contains name then .helpRequested else .unknownCommand
  | _ => .unknownCommand

/-- Takes a positional argument, if there is a place for one. -/
def place (level : Level) (progress : Progress) (divided : Bool) (argument : String) :
    Except UsageError Progress :=
  match level.positionals[progress.placed]? with
  | some slot => progress.takePositional slot argument
  | none =>
    .error (if level.commands.isEmpty || divided then .unknownArgument else .unknownCommand)

/-- Takes one argument that is no command. -/
def take (level : Level) (progress : Progress) (argument : String) :
    Except UsageError Progress :=
  match Shape.of argument with
  | .long name attached =>
    match level.named? name with
    | some option => progress.takeOption option attached
    | none => .error .unknownArgument
  | .short letter =>
    match level.lettered? letter with
    | some option => progress.takeOption option none
    | none => .error .unknownArgument
  | .divider | .plain =>
    if progress.awaiting then .ok (progress.takeValue argument)
    else level.place progress false argument

/-- Takes the arguments after two dashes. -/
def readPlain (level : Level) (progress : Progress) : List String → Except UsageError Progress
  | [] => .ok progress
  | argument :: rest => do readPlain level (← level.place progress true argument) rest

/-- Reads arguments up to the name of a command, which is returned with what follows it. -/
def read (level : Level) (progress : Progress) :
    List String → Except UsageError (Progress × Option (String × List String))
  | [] => .ok (progress, none)
  | argument :: rest =>
    if !progress.awaiting && level.commands.contains argument then
      if argument = helpCommand then .error (level.explain rest)
      else .ok (progress, some (argument, rest))
    else if Shape.of argument = .divider then do
      .ok (← level.readPlain progress rest, none)
    else do read level (← level.take progress argument) rest

/-- The names of what must be given. -/
def requiredNames (level : Level) : List String :=
  level.positionals.map Slot.name ++ level.options.filterMap fun option =>
    match option with
    | .value slot true => some slot.name
    | _ => none

/-- Reads all arguments of a level without commands. -/
def readAll (level : Level) (arguments : List String) : Except UsageError Given := do
  let (progress, _) ← level.read {} arguments
  let given := (← progress.settle).given
  if level.requiredNames.all given.has then .ok given else .error .missingArgument

end Level

end Uplift.CommandLine
