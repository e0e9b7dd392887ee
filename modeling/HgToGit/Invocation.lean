/-
# HgToGit.Invocation -- a recognized line while it is being worked on

An invocation is the command that a line names, with the line's arguments and the advisories
raised so far. Queries and checks leave it as it is; what changes it changes one part.

The current revision is written `.` on a line and `HEAD` in the canonical dialect. An argument
is rooted at `.` if it is `.` itself or continues with `^` or `~`; `./path` and `v1.2` are not.
-/
import HgToGit.Arguments
import HgToGit.Failure

namespace HgToGit

/-! ## Revisions rooted at the current one -/

namespace Revision

/-- The current revision on a line. -/
def dot : String := "."

/-- The current revision in the canonical dialect. -/
def head : String := "HEAD"

/-- What follows the dot in a revision rooted at it. -/
def afterDot? (arg : String) : Option (List Char) :=
  match arg.toList with
  | '.' :: suffix =>
    match suffix with
    | [] => some []
    | c :: _ => if c = '^' || c = '~' then some suffix else none
  | _ => none

/-- Whether an argument is a revision rooted at the dot. -/
def IsRootedAtDot (arg : String) : Prop := (afterDot? arg).isSome

/-- The revision rooted at the head instead of the dot. Every other argument is kept. -/
def resolve (arg : String) : String :=
  match afterDot? arg with
  | some suffix => head ++ String.ofList suffix
  | none => arg

end Revision

/-! ## Invocations -/

/-- A recognized line. -/
structure Invocation where
  /-- The name of the command. -/
  command : String
  /-- The flags and their arguments. -/
  options : Options
  /-- The arguments that belong to no flag. -/
  general : List String
  /-- The advisories raised so far, oldest first. -/
  warnings : List Message
  deriving DecidableEq

namespace Invocation

/-- A line of the command with its arguments, and no advisory yet. -/
def ofArguments (command : String) (a : Arguments) : Invocation :=
  ⟨command, a.options, a.general, []⟩

/-! ### Queries -/

/-- Whether a flag was given, with or without arguments. -/
def hasOption (inv : Invocation) (flag : String) : Bool := inv.options.contains flag

/-- The arguments of a flag; a flag that was not given has none. -/
def optionArgs (inv : Invocation) (flag : String) : List String :=
  (inv.options.get? flag).getD []

/-! ### Checks -/

/-- What the count of the general arguments is a count of. -/
def generalPhrase (inv : Invocation) : String := "with hg " ++ inv.command

/-- What the count of a flag's arguments is a count of. -/
def optionPhrase (inv : Invocation) (flag : String) : String :=
  "with hg " ++ inv.command ++ " " ++ flag

/-- Requires the number of general arguments to lie within bounds. -/
def checkGeneral (inv : Invocation) (min max : Nat) : Except Failure Unit :=
  Failure.checkBounds inv.general.length min max inv.generalPhrase

/-- Requires the number of a flag's arguments to lie within bounds. -/
def checkOption (inv : Invocation) (flag : String) (min max : Nat) : Except Failure Unit :=
  Failure.checkBounds (inv.optionArgs flag).length min max (inv.optionPhrase flag)

/-- Refuses general arguments. -/
def refuseGeneral (inv : Invocation) : Except Failure Unit :=
  if inv.general.isEmpty then .ok () else .error .generalRefused

/-! ### Changes -/

/-- The line without a flag and its arguments. -/
def dropOption (inv : Invocation) (flag : String) : Invocation :=
  { inv with options := inv.options.erase flag }

/-- The line with a flag that has these arguments and no others. -/
def setOption (inv : Invocation) (flag : String) (args : List String) : Invocation :=
  { inv with options := inv.options.insert flag args }

/-- The line with other flags. -/
def setOptions (inv : Invocation) (options : Options) : Invocation :=
  { inv with options := options }

/-- The line with other general arguments. -/
def setGeneral (inv : Invocation) (args : List String) : Invocation :=
  { inv with general := args }

/-- The line with every revision rooted at the head that was rooted at the dot. -/
def resolveDots (inv : Invocation) : Invocation :=
  { inv with
    options := inv.options.mapValues (List.map Revision.resolve)
    general := inv.general.map Revision.resolve }

/-- The line with one more advisory. -/
def warn (inv : Invocation) (m : Message) : Invocation :=
  { inv with warnings := inv.warnings ++ [m] }

end Invocation

end HgToGit
