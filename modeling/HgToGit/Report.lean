/-
# HgToGit.Report -- what is told about a line and about a command

The report on a line says what became of it, or why it was refused. It has the form of a JSON
object with the members in a fixed order; a member that does not apply is left out, and so is
an empty list of operations or advisories.
-/
import HgToGit.Report.Json
import HgToGit.Conversion

namespace HgToGit

/-- The report on a line. -/
inductive LineReport where
  /-- The line was converted; `calls` are the operations that the engine performed for it, and
  `warnings` the advisories with their wording. -/
  | converted (line : String) (conversion : Conversion) (calls : List EngineCall)
    (warnings : List (MessageKey × String))
  /-- The line was refused, in these words. -/
  | refused (line : String) (failure : Failure) (message : String)
  deriving DecidableEq

namespace LineReport

open HgToGit.Report (Json)

/-- Whether the line was converted. -/
def ok : LineReport → Bool
  | converted .. => true
  | refused .. => false

/-- The canonical command line, if the line becomes one. -/
def git? : LineReport → Option String
  | converted _ c _ _ => c.commandLine?
  | refused .. => none

/-- The operations that the engine performed for the line. -/
def engineCalls : LineReport → List EngineCall
  | converted _ _ calls _ => calls
  | refused .. => []

/-- The wording of the advisories, in order. -/
def warningTexts : LineReport → List String
  | converted _ _ _ warnings => warnings.map Prod.snd
  | refused .. => []

/-- The words in which the line was refused. -/
def error? : LineReport → Option String
  | converted .. => none
  | refused _ _ message => some message

/-- The report on what came of a line, in the wording of a catalog. After a success the log of the
engine is taken. -/
def ofResult (catalog : Catalog) (line : String) :
    Except Failure Conversion × Engine → LineReport × Engine
  | (.ok c, after) =>
    let (calls, after) := after.takeCalls
    (converted line c calls (c.warnings.map fun m => (m.key, catalog.render m)), after)
  | (.error failure, after) =>
    (refused line failure (catalog.render failure.message), after)

/-- Converts a line and reports on it. -/
def ofLine (catalog : Catalog) (engine : Engine) (line : String) : LineReport × Engine :=
  ofResult catalog line (Registry.builtin.convert line engine)

/-- An operation of the engine. -/
def callJson (call : EngineCall) : Json :=
  match call with
  | .rebase destination base =>
    .object [("op", .text call.operation), ("destination", .text destination),
      ("base", .text base)]

/-- What became of a line. -/
def outcomeJson : Outcome → Json
  | .executed => .object [("type", .text "executed")]
  | .delegated vcs command options general =>
    .object [("type", .text "delegated"),
      ("descriptor", .object [("vcs", .text vcs.text), ("command", .text command.text)]),
      ("options", .object (options.entries.map fun e => (e.1, Json.texts e.2))),
      ("general_args", Json.texts general)]

/-- A member that is left out if its list is empty. -/
def listMember (name : String) (items : List Json) : List (String × Json) :=
  if items.isEmpty then [] else [(name, .list items)]

/-- The report as a value in JSON. -/
def toJson : LineReport → Json
  | converted line c calls warnings =>
    .object <|
      [("line", .text line), ("ok", .bool true), ("command", .text c.command),
        ("exempt_from_golf", .bool c.exemptFromGolf), ("outcome", outcomeJson c.outcome)] ++
      c.commandLine?.toList.map (fun git => ("git", .text git)) ++
      listMember "engine_calls" (calls.map callJson) ++
      listMember "warnings" (warnings.map fun w =>
        .object [("key", .text w.1.text), ("text", .text w.2)])
  | refused line failure message =>
    .object [("line", .text line), ("ok", .bool false),
      ("error", .object [("kind", .text failure.kind.text),
        ("key", .text failure.message.key.text), ("message", .text message)])]

end LineReport

namespace Definition

open HgToGit.Report (Json)

/-- A command of the table as a value in JSON. -/
def toJson (d : Definition) : Json :=
  .object [("name", .text d.name), ("handler", .text d.handler.kind.text),
    ("options", Json.texts d.flags), ("exempt_from_golf", .bool d.exemptFromGolf),
    ("pattern", .text d.pattern)]

/-- A command of the table as a row of cells. -/
def toRow (d : Definition) : List String :=
  [d.name, d.handler.kind.text,
    if d.flags.isEmpty then "-" else ",".intercalate d.flags,
    if d.exemptFromGolf then "exempt" else "scored", d.pattern]

/-- The row above the commands. -/
def headings : List String := ["NAME", "HANDLER", "OPTIONS", "GOLF", "PATTERN"]

end Definition

end HgToGit
