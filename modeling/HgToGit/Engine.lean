/-
# HgToGit.Engine -- operations that no canonical command line expresses

Some commands act on the repository at once. The engine keeps the log of the operations it was
asked for, or refuses every operation for a fixed reason. A refused operation leaves no trace.
-/
import HgToGit.Failure

namespace HgToGit

/-- An operation of the engine. -/
inductive EngineCall where
  /-- Moves the branch that holds `base` onto `destination`. -/
  | rebase (destination base : String)
  deriving DecidableEq, Repr

namespace EngineCall

/-- The name of the operation in reports. -/
def operation : EngineCall → String
  | rebase _ _ => "hg_rebase"

/-- The operation as it is shown. -/
def text : EngineCall → String
  | rebase destination base => "rebase " ++ base ++ " onto " ++ destination

end EngineCall

/-- An engine that logs what it is asked for. -/
structure Engine where
  /-- The operations since the log was last taken, oldest first. -/
  calls : List EngineCall
  /-- The reason for which every operation is refused, if there is one. -/
  refusal : Option String
  deriving DecidableEq, Repr

namespace Engine

/-- An engine with an empty log. -/
def fresh (refusal : Option String) : Engine := ⟨[], refusal⟩

/-- An engine with an empty log that refuses nothing. -/
def new : Engine := fresh none

/-- Performs an operation: logs it, or refuses it and stays as it is. -/
def perform (e : Engine) (call : EngineCall) : Except Failure Unit × Engine :=
  match e.refusal with
  | some reason => (.error (.engineRejected reason), e)
  | none => (.ok (), { e with calls := e.calls ++ [call] })

/-- Takes the log, and leaves an empty one. -/
def takeCalls (e : Engine) : List EngineCall × Engine := (e.calls, { e with calls := [] })

end Engine

end HgToGit
