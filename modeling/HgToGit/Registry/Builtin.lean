/-
# HgToGit.Registry.Builtin -- the commands that are known

Twelve commands, some of them under several names. A command word ends at a blank or at the
end of the line; `status` and `summary` take no arguments at all.
-/
import HgToGit.Registry

namespace HgToGit.Registry

/-- The declarations of the table, in the order in which they are tried. -/
def declarations : List Declaration :=
  [{ name := "commit", pattern := "^hg +(commit|ci)($|\\s)", flags := ["--amend", "-A", "-m"],
     exemptFromGolf := false, handler := .commit },
   { name := "status", pattern := "^hg +(status|st) *$", flags := [],
     exemptFromGolf := true, handler := .status },
   { name := "export", pattern := "^hg +export($|\\s)", flags := [],
     exemptFromGolf := true, handler := .exportCommits },
   { name := "graft", pattern := "^hg +graft($|\\s)", flags := ["-r"],
     exemptFromGolf := false, handler := .graft },
   { name := "log", pattern := "^hg +log($|\\s)", flags := ["-f"],
     exemptFromGolf := true, handler := .log },
   { name := "bookmark", pattern := "^hg +(bookmarks|bookmark|book)($|\\s)",
     flags := ["-r", "-f", "-d", "-m"], exemptFromGolf := false, handler := .bookmark },
   { name := "rebase", pattern := "^hg +rebase($|\\s)", flags := ["-d", "-s", "-b"],
     exemptFromGolf := false, handler := .rebase },
   { name := "update", pattern := "^hg +(update|up)($|\\s)", flags := [],
     exemptFromGolf := false, handler := .update },
   { name := "backout", pattern := "^hg +backout($|\\s)", flags := [],
     exemptFromGolf := false, handler := .backout },
   { name := "histedit", pattern := "^hg +histedit($|\\s)", flags := [],
     exemptFromGolf := false, handler := .histedit },
   { name := "pull", pattern := "^hg +pull($|\\s)", flags := [],
     exemptFromGolf := false, handler := .pull },
   { name := "summary", pattern := "^hg +(summary|sum) *$", flags := [],
     exemptFromGolf := false, handler := .summary }]

/-- The declarations have distinct names and readable patterns. -/
theorem compile_declarations_isSome : (compile declarations).toOption.isSome := by
  decide +kernel

/-- The table of the known commands. -/
def builtin : Registry := (compile declarations).toOption.get compile_declarations_isSome

end HgToGit.Registry
