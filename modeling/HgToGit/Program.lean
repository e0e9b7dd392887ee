/-
# HgToGit.Program -- the program as a function

The program reads its arguments, the settings and, for one command, the standard input. What it
writes and how it ends is a function of those. Arguments that ask for no command end it before
the settings are looked at; settings that cannot be loaded end it before any line is. Options
that ask for JSON add to the settings and never take back.
-/
import HgToGit.Columns
import HgToGit.CommandLine.Parser
import HgToGit.Program.Completion
import HgToGit.Program.Repl

namespace HgToGit.Program

open HgToGit.Settings (Environment FileEntry LoadError Loaded)

/-- The version of the program. -/
def version : String := "0.1.0"

/-- What is written about arguments that ask for no command. -/
def argumentText (e : ArgumentError) : Transcript :=
  match e with
  | .displayHelp => [.out usage]
  | .displayVersion => [.outLine (name ++ " " ++ version)]
  | _ => [.error e.text, .err usage]

/-- What is said about settings that cannot be loaded; the cause of an unreadable document is
said once more at the end. -/
def loadFailureText (e : LoadError) : String :=
  "failed to load configuration: " ++ e.message ++
    match e with
    | .unreadable _ fault => ": " ++ fault.message
    | .malformed _ | .unknownMessage _ => ""

/-- What is said about the settings before anything else. -/
def remarks (verbosity : Verbosity) (loaded : Loaded) : Transcript :=
  loaded.remarks.flatMap fun r => warn verbosity (r.message ++ " (" ++ r.path ++ ")")

/-- The presentation that options and settings ask for. -/
def context (options : GlobalOptions) (settings : Settings) : Context where
  verbosity := .ofFlags options.quiet options.debug
  json := options.json || settings.writesJson
  showWarnings := settings.showsWarnings
  catalog := settings.catalog

/-- The list of the commands that are known. -/
def list (ctx : Context) : Transcript :=
  let definitions := Registry.builtin.definitions
  if ctx.json then [.outLine (Report.Json.list (definitions.map Definition.toJson)).render]
  else [.outLine (Columns.render (Definition.headings :: definitions.map Definition.toRow))]

/-- Runs a command. -/
def runCommand (ctx : Context) (input : List UInt8) : Command → Result
  | .translate words => convertWords ctx words
  | .repl => repl ctx input
  | .list => .success (list ctx)
  | .completion shell => .success [.out (completionScript shell)]

/-- Runs the program on its arguments. -/
def run (args : List String) (env : Environment) (files : String → FileEntry)
    (input : List UInt8) : Result :=
  match CommandLine.parse args with
  | .error e => ⟨e.exitStatus, argumentText e⟩
  | .ok line =>
    match Settings.load files env line.options.config with
    | .error e => .failure [] (loadFailureText e)
    | .ok loaded =>
      let ctx := context line.options loaded.settings
      let result := runCommand ctx input line.command
      { result with transcript := remarks ctx.verbosity loaded ++ result.transcript }

end HgToGit.Program
