/-
# HgToGit.Verbosity -- how much is said besides the result
-/

namespace HgToGit

/-- How much is said besides the result. -/
inductive Verbosity where
  /-- Advisories are left out. -/
  | quiet
  /-- Advisories are shown. -/
  | normal
  /-- Advisories and traces are shown. -/
  | debug
  deriving DecidableEq, Repr

namespace Verbosity

/-- The verbosity that two flags ask for. Quiet wins. -/
def ofFlags (quiet debug : Bool) : Verbosity :=
  if quiet then .quiet else if debug then .debug else .normal

/-- The name of a verbosity. -/
def text : Verbosity → String
  | quiet => "Quiet"
  | normal => "Normal"
  | debug => "Debug"

end Verbosity

end HgToGit
