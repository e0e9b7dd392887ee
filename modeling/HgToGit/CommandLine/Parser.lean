/-
# HgToGit.CommandLine.Parser -- reading the arguments

The arguments before the command and those after it are read in the same way, each by a
`Level`. A level knows which options it has seen; none can be given twice on one level. The
value of an option, and the name of a shell, are looked at only when the next thing begins:
until then they are pending, and an argument that is wrong in itself is reported first.

A double hyphen ends the options. On the level of `translate` the first word ends them too,
and so does an argument that looks like an option and is none: the line is everything from
there on, as it stands.
-/
import HgToGit.CommandLine

namespace HgToGit.CommandLine

/-! ## Options -/

/-- The commands, by name. -/
inductive CommandName where
  /-- `translate`. -/
  | translate
  /-- `repl`. -/
  | repl
  /-- `list`. -/
  | list
  /-- `completion`. -/
  | completion
  deriving DecidableEq, Repr

/-- The command of a name. -/
def CommandName.ofText? (name : String) : Option CommandName :=
  if name = "translate" then some .translate
  else if name = "repl" then some .repl
  else if name = "list" then some .list
  else if name = "completion" then some .completion
  else none

/-- The word in place of a command that asks for help. -/
def helpWord : String := "help"

/-- Where arguments stand. -/
inductive Scope where
  /-- Before the command. -/
  | top
  /-- After the name of a command. -/
  | after (command : CommandName)
  deriving DecidableEq, Repr

/-- The options that take no value. -/
inductive Switch where
  /-- Traces. -/
  | debug
  /-- Leaves advisories out. -/
  | quiet
  /-- Writes reports as JSON. -/
  | json
  deriving DecidableEq, Repr

/-- The options there are. -/
inductive Flag where
  /-- An option without a value. -/
  | switch (s : Switch)
  /-- The path of the settings. -/
  | config
  /-- Asks for help. -/
  | help
  /-- Asks for the version. -/
  | version
  deriving DecidableEq, Repr

/-- The option of a long name. The version can be asked for before the command only. -/
def Flag.ofLong? (scope : Scope) (name : String) : Option Flag :=
  if name = "debug" then some (.switch .debug)
  else if name = "quiet" then some (.switch .quiet)
  else if name = "json" then some (.switch .json)
  else if name = "config" then some .config
  else if name = "help" then some .help
  else if name = "version" ∧ scope = .top then some .version
  else none

/-- The option of a letter. -/
def Flag.ofLetter? (scope : Scope) (letter : Char) : Option Flag :=
  if letter = 'q' then some (.switch .quiet)
  else if letter = 'h' then some .help
  else if letter = 'V' ∧ scope = .top then some .version
  else none

/-- What an argument looks like. -/
inductive Shape where
  /-- The double hyphen. -/
  | terminator
  /-- Two hyphens and a name, and perhaps an equals sign and a value. -/
  | long (name : String) (value : Option String)
  /-- A hyphen and letters. -/
  | letters (letters : List Char)
  /-- Anything else; a hyphen alone too. -/
  | word
  deriving DecidableEq, Repr

/-- What an argument looks like. -/
def Shape.of (arg : String) : Shape :=
  match arg.toList with
  | ['-', '-'] => .terminator
  | '-' :: '-' :: cs =>
    let name := String.ofList (cs.takeWhile (· ≠ '='))
    match cs.dropWhile (· ≠ '=') with
    | [] => .long name none
    | _ :: value => .long name (some (String.ofList value))
  | '-' :: c :: cs => .letters (c :: cs)
  | _ => .word

/-! ## Levels -/

/-- What has been begun and not looked at yet. -/
inductive Pending where
  /-- Nothing. -/
  | nothing
  /-- The path of the settings is expected. -/
  | configExpected
  /-- The path of the settings was given. -/
  | config (path : String)
  /-- The name of a shell was given. -/
  | shell (name : String)
  deriving DecidableEq, Repr

/-- What has been read on one side of the command. -/
structure Level where
  /-- The options. -/
  options : GlobalOptions
  /-- The shell, for the command that has one. -/
  shell : Option Shell
  /-- What has been begun. -/
  pending : Pending
  deriving DecidableEq, Repr

namespace Level

/-- A level of which nothing has been read. -/
def empty : Level := ⟨.none, none, .nothing⟩

/-- Sets the path of the settings, if it is a path and none was set. -/
def setConfig (l : Level) (path : String) : Except ArgumentError Level :=
  if l.options.config.isSome then .error .argumentConflict
  else if path = "" then .error .invalidValue
  else .ok { l with options := { l.options with config := some path } }

/-- Looks at what is pending. -/
def settle (l : Level) : Except ArgumentError Level :=
  let settled := { l with pending := .nothing }
  match l.pending with
  | .nothing => .ok l
  | .configExpected => .error .invalidValue
  | .config path => settled.setConfig path
  | .shell name =>
    match Shell.ofText? name with
    | some shell => .ok { settled with shell := some shell }
    | none => .error .invalidValue

/-- Whether an option has been given. -/
def isOn (l : Level) : Switch → Bool
  | .debug => l.options.debug
  | .quiet => l.options.quiet
  | .json => l.options.json

/-- Gives an option. -/
def turnOn (l : Level) (s : Switch) : Level :=
  match s with
  | .debug => { l with options := { l.options with debug := true } }
  | .quiet => { l with options := { l.options with quiet := true } }
  | .json => { l with options := { l.options with json := true } }

/-- Reads an option without an attached value. -/
def flag (l : Level) (f : Flag) : Except ArgumentError Level := do
  let l ← l.settle
  match f with
  | .switch s => if l.isOn s then .error .argumentConflict else .ok (l.turnOn s)
  | .config => .ok { l with pending := .configExpected }
  | .help => .error .displayHelp
  | .version => .error .displayVersion

/-- Reads an option with an attached value. -/
def flagWith (l : Level) (f : Flag) (value : String) : Except ArgumentError Level :=
  match f with
  | .config => do (← l.settle).setConfig value
  | _ => .error .tooManyValues

/-- Reads one letter of an argument of letters. -/
def letter (scope : Scope) (l : Level) (c : Char) : Except ArgumentError Level :=
  match Flag.ofLetter? scope c with
  | some f => l.flag f
  | none => .error .unknownArgument

/-- Whether an argument that looks like an option and is none is a word here. -/
def takesAnyWord (scope : Scope) : Bool := scope = .after .translate

/-- Reads an argument as an option; nothing if it is a word. -/
def option? (scope : Scope) (l : Level) (arg : String) :
    Except ArgumentError (Option Level) :=
  match Shape.of arg with
  | .long name value =>
    match Flag.ofLong? scope name with
    | some f =>
      match value with
      | none => (l.flag f).map some
      | some value => (l.flagWith f value).map some
    | none => if takesAnyWord scope then .ok none else .error .unknownArgument
  | .letters letters =>
    if takesAnyWord scope ∧ letters.any fun c => (Flag.ofLetter? scope c).isNone then .ok none
    else (letters.foldlM (letter scope) l).map some
  | .terminator | .word => .ok none

/-- Where the reading of a level ends. -/
inductive Ending where
  /-- At the end of the arguments. -/
  | finished
  /-- At a command, with the arguments after its name. -/
  | command (name : CommandName) (rest : List String)
  /-- At the words of a line. -/
  | words (words : List String)
  deriving DecidableEq, Repr

/-- What asking for help about a command yields: help, if there is one such command. -/
def helpAbout : List String → ArgumentError
  | [] => .displayHelp
  | [name] =>
    if name = helpWord ∨ (CommandName.ofText? name).isSome then .displayHelp
    else .invalidSubcommand
  | _ => .invalidSubcommand

/-- Reads words after the double hyphen. -/
def words (scope : Scope) (l : Level) : List String → Except ArgumentError (Level × Ending)
  | [] => .ok (l, .finished)
  | arg :: rest =>
    match scope with
    | .top =>
      if arg = helpWord ∨ (CommandName.ofText? arg).isSome then .error .unknownArgument
      else .error .invalidSubcommand
    | .after .translate => l.settle.map fun l => (l, .words (arg :: rest))
    | .after .completion =>
      match l.shell, l.pending with
      | none, .shell _ | some _, _ => .error .unknownArgument
      | none, _ => do
        let l ← l.settle
        words scope { l with pending := .shell arg } rest
    | .after _ => .error .unknownArgument

/-- Reads the arguments of a level. -/
def read (scope : Scope) (l : Level) : List String → Except ArgumentError (Level × Ending)
  | [] => .ok (l, .finished)
  | arg :: rest =>
    if Shape.of arg = .terminator then l.words scope rest
    else do
      match ← l.option? scope arg with
      | some l => read scope l rest
      | none =>
        if l.pending = .configExpected then read scope { l with pending := .config arg } rest
        else
          match scope with
          | .top =>
            if arg = helpWord then .error (helpAbout rest)
            else
              match CommandName.ofText? arg with
              | some name => .ok (l, .command name rest)
              | none => .error .invalidSubcommand
          | .after .translate => do
            let l ← l.settle
            .ok (l, .words (arg :: rest))
          | .after .completion =>
            match l.shell, l.pending with
            | none, .shell _ | some _, _ => .error .unknownArgument
            | none, _ => do
              let l ← l.settle
              read scope { l with pending := .shell arg } rest
          | .after _ => .error .unknownArgument

end Level

/-! ## The whole command line -/

/-- Reads the arguments after the name of a command. -/
def readCommand (name : CommandName) (args : List String) :
    Except ArgumentError (GlobalOptions × Command) := do
  let (l, ending) ← Level.empty.read (.after name) args
  let l ← l.settle
  match name, ending with
  | .translate, .words words => .ok (l.options, .translate words)
  | .translate, _ => .error .missingRequiredArgument
  | .repl, _ => .ok (l.options, .repl)
  | .list, _ => .ok (l.options, .list)
  | .completion, _ =>
    match l.shell with
    | some shell => .ok (l.options, .completion shell)
    | none => .error .missingRequiredArgument

/-- The meaning of a list of arguments, or why it has none. What is wrong after the command is
reported before what is still pending in front of it. -/
def parse (args : List String) : Except ArgumentError CommandLine := do
  let (l, ending) ← Level.empty.read .top args
  match ending with
  | .command name rest =>
    let (options, command) ← readCommand name rest
    let l ← l.settle
    .ok ⟨l.options.merge options, command⟩
  | _ =>
    let l ← l.settle
    if l.options = .none then .error .displayHelpOnMissingArgumentOrSubcommand
    else .error .missingSubcommand

end HgToGit.CommandLine
