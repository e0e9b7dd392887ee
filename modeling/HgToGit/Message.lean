/-
# HgToGit.Message -- what can be said to the user

A failure or an advisory is a message: a key and named parameters. Its wording comes from a
catalog, which has a template for some or all of the keys. The English catalog has one for
every key; configured texts are laid over it.
-/
import HgToGit.Message.Template

namespace HgToGit

/-! ## Keys -/

/-- The messages there are. -/
inductive MessageKey where
  /-- No command of the table is on the line. -/
  | commandNotSupported
  /-- The flag that adds files is not needed. -/
  | addFlagUnneeded
  /-- There is nothing that a status could show. -/
  | statusMissing
  /-- A log has to follow the history. -/
  | logNeedsFollow
  /-- Bookmark names that are left out. -/
  | bookmarkExtraNames
  /-- Revisions that are left out of a graft. -/
  | graftExtraRevisions
  /-- A rebase has to go somewhere. -/
  | rebaseNeedsDestination
  /-- Two flags that exclude each other. -/
  | optionsIncompatible
  /-- A flag that has to be given. -/
  | optionRequired
  /-- Not enough arguments. -/
  | tooFewArguments
  /-- Too many arguments. -/
  | tooManyArguments
  /-- No general arguments are taken. -/
  | generalArgumentsRefused
  /-- The engine refused an operation. -/
  | engineFailure
  deriving DecidableEq, Repr

namespace MessageKey

/-- All keys, in the order in which they are listed. -/
def all : List MessageKey :=
  [commandNotSupported, addFlagUnneeded, statusMissing, logNeedsFollow, bookmarkExtraNames,
    graftExtraRevisions, rebaseNeedsDestination, optionsIncompatible, optionRequired,
    tooFewArguments, tooManyArguments, generalArgumentsRefused, engineFailure]

/-- The name of a key, in reports and in the configuration. -/
def text : MessageKey → String
  | commandNotSupported => "git-error-command-not-supported"
  | addFlagUnneeded => "hg-a-option"
  | statusMissing => "hg-error-no-status"
  | logNeedsFollow => "hg-error-log-no-follow"
  | bookmarkExtraNames => "hg-bookmark-extra-args"
  | graftExtraRevisions => "hg-graft-extra-args"
  | rebaseNeedsDestination => "hg-error-rebase-no-destination"
  | optionsIncompatible => "git-error-options-incompatible"
  | optionRequired => "git-error-option-required"
  | tooFewArguments => "git-error-args-few"
  | tooManyArguments => "git-error-args-many"
  | generalArgumentsRefused => "git-error-no-general-args"
  | engineFailure => "engine-error"

/-- The key of a name. -/
def ofText? (name : String) : Option MessageKey := all.find? fun key => key.text = name

theorem mem_all (key : MessageKey) : key ∈ all := by cases key <;> decide

theorem ofText?_text (key : MessageKey) : ofText? key.text = some key := by cases key <;> decide

end MessageKey

/-! ## Messages and catalogs -/

/-- A key and the parameters for the slots of its template. -/
structure Message where
  /-- What is said. -/
  key : MessageKey
  /-- What it is said about. -/
  params : TextMap String
  deriving DecidableEq

namespace Message

/-- A message without parameters. -/
def plain (key : MessageKey) : Message := ⟨key, .empty⟩

/-- A message with one more parameter. -/
def about (m : Message) (name value : String) : Message := ⟨m.key, m.params.insert name value⟩

end Message

/-- Templates for some of the keys. -/
structure Catalog where
  /-- The template of a key. -/
  template? : MessageKey → Option String

namespace Catalog

/-- The English wording of a key, with its slots in braces. -/
def englishText : MessageKey → String
  | .commandNotSupported => "The command \x22\x7bcommand\x7d\x22 isn't supported, sorry!"
  | .addFlagUnneeded => "The -A option is not needed for this app, just commit away!"
  | .statusMissing =>
    "There is no status command for this app, since there is no staging of files. " ++
      "Try hg summary instead"
  | .logNeedsFollow => "hg log without -f is currently not supported, use -f"
  | .bookmarkExtraNames => "Only one bookmark is moved at a time; ignoring \x7bignored\x7d"
  | .graftExtraRevisions => "Revisions to graft are taken from -r; ignoring \x7bignored\x7d"
  | .rebaseNeedsDestination => "hg rebase needs a destination, use -d"
  | .optionsIncompatible => "\x7bfirst\x7d and \x7bsecond\x7d are incompatible"
  | .optionRequired => "The \x7boption\x7d option is required for hg \x7bcommand\x7d"
  | .tooFewArguments =>
    "I expect at least \x7blower\x7d argument(s), not including any options, \x7bwhat\x7d"
  | .tooManyArguments => "I expect at most \x7bupper\x7d argument(s), \x7bwhat\x7d"
  | .generalArgumentsRefused => "That command accepts no general arguments"
  | .engineFailure => "\x7bmessage\x7d"

/-- The English catalog, which has every key. -/
def english : Catalog := ⟨fun key => some (englishText key)⟩

/-- The catalog that has no key. -/
def empty : Catalog := ⟨fun _ => none⟩

/-- The English catalog with other texts for some of the keys. -/
def overriding (texts : MessageKey → Option String) : Catalog :=
  ⟨fun key => texts key <|> english.template? key⟩

/-- The wording of a message: its key's template filled with its parameters, or the name of the
key if there is no template. -/
def render (catalog : Catalog) (m : Message) : String :=
  match catalog.template? m.key with
  | some template => (Template.ofText template).fill m.params
  | none => m.key.text

end Catalog

end HgToGit
