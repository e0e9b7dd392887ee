/-
# HgToGit.Invocation.Step -- working on a line step by step

Every operation on an invocation is a step with an answer. A run of steps is the list of their
answers and the invocation at the end.
-/
import HgToGit.Invocation

namespace HgToGit.Invocation

/-- One operation on an invocation. -/
inductive Step where
  /-- Asks whether a flag was given. -/
  | hasOption (flag : String)
  /-- Asks for the arguments of a flag. -/
  | optionArgs (flag : String)
  /-- Takes a flag away and answers with its arguments. -/
  | takeOption (flag : String)
  /-- Gives a flag arguments and answers with those it had. -/
  | insertOption (flag : String) (args : List String)
  /-- Replaces the flags. -/
  | setOptions (options : Options)
  /-- Replaces the general arguments. -/
  | setGeneral (args : List String)
  /-- Roots revisions at the head. -/
  | resolveDots
  /-- Checks the number of general arguments. -/
  | checkGeneral (min max : Nat)
  /-- Checks the number of a flag's arguments. -/
  | checkOption (flag : String) (min max : Nat)
  /-- Refuses general arguments. -/
  | refuseGeneral
  /-- Raises an advisory. -/
  | warn (m : Message)
  deriving DecidableEq

/-- What a step answers. -/
inductive Answer where
  /-- Nothing; the step only changes the line. -/
  | done
  /-- Yes or no. -/
  | decided (answer : Bool)
  /-- The arguments of a flag, which may be absent. -/
  | args (args : List String)
  /-- The arguments that a flag had before the step, if it was there. -/
  | previous (args : Option (List String))
  /-- The outcome of a check. -/
  | checked (result : Except Failure Unit)

/-- The answer of a step and the line after it. -/
def step (inv : Invocation) : Step → Answer × Invocation
  | .hasOption flag => (.decided (inv.hasOption flag), inv)
  | .optionArgs flag => (.args (inv.optionArgs flag), inv)
  | .takeOption flag => (.previous (inv.options.get? flag), inv.dropOption flag)
  | .insertOption flag args => (.previous (inv.options.get? flag), inv.setOption flag args)
  | .setOptions options => (.done, inv.setOptions options)
  | .setGeneral args => (.done, inv.setGeneral args)
  | .resolveDots => (.done, inv.resolveDots)
  | .checkGeneral min max => (.checked (inv.checkGeneral min max), inv)
  | .checkOption flag min max => (.checked (inv.checkOption flag min max), inv)
  | .refuseGeneral => (.checked inv.refuseGeneral, inv)
  | .warn m => (.done, inv.warn m)

/-- The answers of a run of steps, and the line at its end. -/
def run (inv : Invocation) : List Step → List Answer × Invocation
  | [] => ([], inv)
  | s :: more =>
    let (answer, next) := inv.step s
    let (answers, last) := next.run more
    (answer :: answers, last)

end HgToGit.Invocation
