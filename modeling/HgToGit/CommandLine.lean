/-
# HgToGit.CommandLine -- the arguments of the program

The program has four commands, which share four options. The options can stand before the
command or after it. What is wrong with a list of arguments is an error of a known kind;
asking for help or for the version is one too, since nothing is run then.
-/

namespace HgToGit

/-- A shell for which there is a completion script. -/
inductive Shell where
  /-- The Bourne Again shell. -/
  | bash
  /-- The Z shell. -/
  | zsh
  /-- The friendly interactive shell. -/
  | fish
  /-- The PowerShell. -/
  | powerShell
  deriving DecidableEq, Repr

namespace Shell

/-- All shells. -/
def all : List Shell := [bash, zsh, fish, powerShell]

/-- The name of a shell among the arguments. -/
def text : Shell → String
  | bash => "bash"
  | zsh => "zsh"
  | fish => "fish"
  | powerShell => "power-shell"

/-- The shell of a name. -/
def ofText? (name : String) : Option Shell := all.find? fun shell => shell.text = name

end Shell

/-- What the program is asked to do. -/
inductive Command where
  /-- Converts one line, given as words. -/
  | translate (words : List String)
  /-- Converts the lines of the standard input. -/
  | repl
  /-- Lists the commands that are known. -/
  | list
  /-- Writes a completion script. -/
  | completion (shell : Shell)
  deriving DecidableEq, Repr

/-- The options that all commands share. -/
structure GlobalOptions where
  /-- Whether to trace. -/
  debug : Bool
  /-- Whether to leave advisories out. -/
  quiet : Bool
  /-- Whether to write reports as JSON. -/
  json : Bool
  /-- The path of the settings. -/
  config : Option String
  deriving DecidableEq, Repr

namespace GlobalOptions

/-- No option. -/
def none : GlobalOptions := ⟨false, false, false, .none⟩

/-- The options before a command together with those after it, of which the path wins. -/
def merge (before after : GlobalOptions) : GlobalOptions :=
  ⟨before.debug || after.debug, before.quiet || after.quiet, before.json || after.json,
    after.config <|> before.config⟩

end GlobalOptions

/-- The meaning of a list of arguments. -/
structure CommandLine where
  /-- The shared options. -/
  options : GlobalOptions
  /-- The command. -/
  command : Command
  deriving DecidableEq, Repr

/-- Why a list of arguments asks for no command. -/
inductive ArgumentError where
  /-- It asks for help. -/
  | displayHelp
  /-- It asks for the version. -/
  | displayVersion
  /-- It is empty. -/
  | displayHelpOnMissingArgumentOrSubcommand
  /-- It has options and no command. -/
  | missingSubcommand
  /-- A command lacks something that it needs. -/
  | missingRequiredArgument
  /-- A word is no command. -/
  | invalidSubcommand
  /-- There is an argument too many, or an option that does not exist. -/
  | unknownArgument
  /-- An option or a command has no value, or one that it cannot take. -/
  | invalidValue
  /-- An option has a value and takes none. -/
  | tooManyValues
  /-- An option is given twice. -/
  | argumentConflict
  deriving DecidableEq, Repr

namespace ArgumentError

/-- The name of the kind of an error. -/
def text : ArgumentError → String
  | displayHelp => "DisplayHelp"
  | displayVersion => "DisplayVersion"
  | displayHelpOnMissingArgumentOrSubcommand => "DisplayHelpOnMissingArgumentOrSubcommand"
  | missingSubcommand => "MissingSubcommand"
  | missingRequiredArgument => "MissingRequiredArgument"
  | invalidSubcommand => "InvalidSubcommand"
  | unknownArgument => "UnknownArgument"
  | invalidValue => "InvalidValue"
  | tooManyValues => "TooManyValues"
  | argumentConflict => "ArgumentConflict"

/-- The exit status: what is asked for is no failure, everything else is a wrong use. -/
def exitStatus : ArgumentError → Nat
  | displayHelp | displayVersion => 0
  | _ => 2

end ArgumentError

end HgToGit
