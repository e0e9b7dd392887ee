/-
# HgToGit.Registry.Vocabulary -- the words of the commands

Each command of the table is named on a line by one of its words. This is the table read by
words instead of patterns: the line's first token is `hg`, only spaces stand between it and
the second token, and the second token is the word. Two of the commands take nothing more.
-/
import HgToGit.Registry.Builtin

namespace HgToGit.Registry

/-- The words that name the command of a handler. -/
def words : Handler → List String
  | .commit => ["commit", "ci"]
  | .status => ["status", "st"]
  | .exportCommits => ["export"]
  | .graft => ["graft"]
  | .log => ["log"]
  | .bookmark => ["bookmarks", "bookmark", "book"]
  | .rebase => ["rebase"]
  | .update => ["update", "up"]
  | .backout => ["backout"]
  | .histedit => ["histedit"]
  | .pull => ["pull"]
  | .summary => ["summary", "sum"]

/-- Whether a line of the command can go on after its word. -/
def takesArguments : Handler → Bool
  | .status | .summary => false
  | _ => true

/-- The first word of every line. -/
def system : String := "hg"

/-- Only spaces stand between the first word of a line and what follows it. -/
def SpacesAfterSystem (line : String) : Prop :=
  ∃ gap rest, line.toList = system.toList ++ gap ++ rest ∧ (∀ c ∈ gap, c = ' ') ∧
    ∀ c ∈ rest.head?, Text.isBlank c = false

/-- A line names a command and goes on with these arguments. -/
def Names (line : String) (command : Handler) (args : List String) : Prop :=
  (∃ word ∈ words command, Token.tokenize line = system :: word :: args) ∧
    SpacesAfterSystem line ∧ (takesArguments command = true ∨ args = [])

end HgToGit.Registry
