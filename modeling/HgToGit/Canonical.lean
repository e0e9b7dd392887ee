/-
# HgToGit.Canonical -- the commands a line can become

The canonical commands form a closed set, so a result can only name a command that exists.
They are spelled as in the canonical command table: `cherrypick` has no hyphen.
-/

namespace HgToGit

/-- The version control system whose command line is written. -/
inductive Vcs where
  /-- The only target. -/
  | git
  deriving DecidableEq, Repr

namespace Vcs

/-- The word in front of every command line. -/
def text : Vcs → String
  | git => "git"

/-- The system of a name. -/
def ofText? (name : String) : Option Vcs := if name = git.text then some git else none

end Vcs

/-- A canonical command. -/
inductive Canonical where
  /-- Lists, creates, moves or deletes branches. -/
  | branch
  /-- Switches to a revision. -/
  | checkout
  /-- Copies commits. -/
  | cherryPick
  /-- Records a commit. -/
  | commit
  /-- Shows the history. -/
  | log
  /-- Fetches and integrates. -/
  | pull
  /-- Moves commits to another base. -/
  | rebase
  /-- Undoes a commit by another one. -/
  | revert
  /-- Shows a commit. -/
  | showCommit
  deriving DecidableEq, Repr

namespace Canonical

/-- All canonical commands, in the order of their names. -/
def all : List Canonical :=
  [branch, checkout, cherryPick, commit, log, pull, rebase, revert, showCommit]

/-- The name of a command in the canonical command table. -/
def text : Canonical → String
  | branch => "branch"
  | checkout => "checkout"
  | cherryPick => "cherrypick"
  | commit => "commit"
  | log => "log"
  | pull => "pull"
  | rebase => "rebase"
  | revert => "revert"
  | showCommit => "show"

/-- A name that no canonical command has. -/
structure UnknownCommand where
  /-- The name. -/
  name : String
  deriving DecidableEq

/-- What is said about an unknown name. -/
def UnknownCommand.message (e : UnknownCommand) : String :=
  "unknown canonical command: " ++ e.name

/-- The command of a name. -/
def ofText (name : String) : Except UnknownCommand Canonical :=
  match all.find? fun command => command.text = name with
  | some command => .ok command
  | none => .error ⟨name⟩

theorem mem_all (command : Canonical) : command ∈ all := by cases command <;> decide

theorem ofText_text (command : Canonical) : ofText command.text = .ok command := by
  cases command <;> rfl

end Canonical

end HgToGit
