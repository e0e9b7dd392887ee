/-
# HgToGit.Session -- many lines, one engine

A session is a run of steps that share a table of commands and an engine: lines are converted,
the log of the engine is taken, the engine is replaced, or it is asked for an operation
directly.
-/
import HgToGit.Conversion

namespace HgToGit.Session

/-- One step of a session. -/
inductive Step where
  /-- Converts a line. -/
  | convert (line : String)
  /-- Takes the log of the engine. -/
  | takeCalls
  /-- Goes on with an engine that has an empty log. -/
  | newEngine (refusal : Option String)
  /-- Asks the engine for an operation, with its arguments as they are. -/
  | perform (call : EngineCall)
  deriving DecidableEq, Repr

/-- What a step yields. -/
inductive Result where
  /-- The conversion of a line, or why it was refused. -/
  | converted (result : Except Failure Conversion)
  /-- The log that was taken. -/
  | taken (calls : List EngineCall)
  /-- Nothing. -/
  | replaced
  /-- Whether the engine performed the operation. -/
  | performed (result : Except Failure Unit)

/-- What a step yields, and the engine after it. -/
def step (r : Registry) (engine : Engine) : Step → Result × Engine
  | .convert line =>
    let (result, after) := r.convert line engine
    (.converted result, after)
  | .takeCalls =>
    let (calls, after) := engine.takeCalls
    (.taken calls, after)
  | .newEngine refusal => (.replaced, .fresh refusal)
  | .perform call =>
    let (result, after) := engine.perform call
    (.performed result, after)

/-- What each step of a session yields, with the engine after it. -/
def run (r : Registry) (engine : Engine) : List Step → List (Result × Engine)
  | [] => []
  | s :: more =>
    let (result, after) := step r engine s
    (result, after) :: run r after more

end HgToGit.Session
