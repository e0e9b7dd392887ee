/-
# HgToGit.Arguments -- the flags of a line and what belongs to them

A command declares the flags it knows. A known flag takes every token after it up to the next
known flag; the tokens before the first known flag are the general arguments. A flag given
more than once keeps one list, in the order of the line. A token with a leading dash that the
command does not declare is a token like any other.

`groups` is the reading in line order, one group for each occurrence of a flag; `parse` files
the groups under their flags. `flatten` writes arguments back as tokens.
-/
import HgToGit.TextMap

namespace HgToGit

/-- The flags of a line, each with its arguments. A flag without arguments has an empty list. -/
abbrev Options := TextMap (List String)

/-- The arguments of a line, sorted by what they belong to. -/
structure Arguments where
  /-- The known flags that were given. -/
  options : Options
  /-- The tokens before the first known flag. -/
  general : List String
  deriving DecidableEq

/-- Adds arguments to a flag, in front of those it has. -/
def TextMap.prepend (m : Options) (flag : String) (args : List String) : Options :=
  m.insert flag (args ++ (m.get? flag).getD [])

namespace Arguments

/-- One occurrence of a flag with the tokens it takes. -/
abbrev Group := String × List String

/-- The tokens before the first known flag, and one group for each known flag in line order. -/
def groups (known : List String) : List String → List String × List Group
  | [] => ([], [])
  | token :: rest =>
    let (taken, more) := groups known rest
    if token ∈ known then ([], (token, taken) :: more) else (token :: taken, more)

/-- Files groups under their flags. What the groups of one flag take stays in line order. -/
def collect (gs : List Group) : Options := gs.foldr (fun g m => m.prepend g.1 g.2) .empty

/-- Sorts the tokens of a line by the flags that the command knows. -/
def parse (known : List String) (tokens : List String) : Arguments :=
  let (general, gs) := groups known tokens
  ⟨collect gs, general⟩

/-- Writes arguments as tokens: the general ones, then each flag and its arguments in the order
of the flags. -/
def flatten (a : Arguments) : List String :=
  a.general ++ a.options.entries.flatMap fun e => e.1 :: e.2

end Arguments

end HgToGit
