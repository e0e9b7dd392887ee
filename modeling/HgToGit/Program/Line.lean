/-
# HgToGit.Program.Line -- converting one line for the user

A converted line is shown as the canonical command line, or as the operations that the engine
performed, with its advisories on the other output. A refused line is told in one sentence.
With reports as JSON, a line yields exactly one report, and nothing else is written for it here.
-/
import HgToGit.Report
import HgToGit.Transcript
import HgToGit.Verbosity

namespace HgToGit

/-- How results are presented. -/
structure Context where
  /-- How much is said besides the result. -/
  verbosity : Verbosity
  /-- Whether reports are written as JSON. -/
  json : Bool
  /-- Whether advisories are shown. -/
  showWarnings : Bool
  /-- The wording of messages. -/
  catalog : Catalog

namespace Program

/-- An advisory, unless the user wants to be left alone. -/
def warn (verbosity : Verbosity) (text : String) : Transcript :=
  if verbosity = .quiet then [] else [.warning text]

/-- A converted line as text: the command line or the operations, and then the advisories. A
refused line shows nothing; whoever asked for it decides how to tell why. -/
def showText (ctx : Context) : LineReport → Transcript
  | .converted _ c calls warnings =>
    (match c.commandLine? with
      | some git => [.outLine git]
      | none => calls.map fun call => .outLine call.text) ++
    if ctx.showWarnings then warnings.flatMap fun w => warn ctx.verbosity w.2 else []
  | .refused .. => []

/-- What is written about a line. -/
def showReport (ctx : Context) (report : LineReport) : Transcript :=
  if ctx.json then [.outLine report.toJson.render] else showText ctx report

/-- What a run of a command leaves behind. -/
structure Result where
  /-- The exit status. -/
  exit : Nat
  /-- What was written. -/
  transcript : Transcript
  deriving DecidableEq

/-- Everything went well. -/
def Result.success (transcript : Transcript) : Result := ⟨0, transcript⟩

/-- Something failed, and the user is told what. -/
def Result.failure (transcript : Transcript) (message : String) : Result :=
  ⟨1, transcript ++ [.error message]⟩

/-- How the conversion of a line alone ends. -/
def Result.ofReport (ctx : Context) (report : LineReport) : Result :=
  match report.error? with
  | none => .success (showReport ctx report)
  | some message => .failure (showReport ctx report) message

/-- Converts the line that words make, joined by single spaces, with a new engine. -/
def convertWords (ctx : Context) (words : List String) : Result :=
  .ofReport ctx (LineReport.ofLine ctx.catalog .new (Token.join words)).1

end Program

end HgToGit
