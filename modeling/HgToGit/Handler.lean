/-
# HgToGit.Handler -- what becomes of a recognized line

Every command of the table has a handler. It checks the line, changes it, and resolves it: to
a canonical command that takes over the flags and arguments as they then are, or to one
operation of the engine. A handler decides before anything happens; it never sees an engine,
so a refused line cannot have had an effect.

A flag that only steers the resolution is taken off the line once it has been used.
-/
import HgToGit.Canonical
import HgToGit.Engine
import HgToGit.Invocation
import HgToGit.Token

namespace HgToGit

/-- What a line resolves to. -/
inductive Resolution where
  /-- A canonical command takes over the line. -/
  | delegated (command : Canonical) (line : Invocation)
  /-- The engine performs an operation. -/
  | direct (call : EngineCall) (line : Invocation)
  deriving DecidableEq

/-- How a command takes effect. -/
inductive HandlerKind where
  /-- Through the engine. -/
  | direct
  /-- Through a canonical command. -/
  | delegate
  deriving DecidableEq, Repr

/-- The name of a way to take effect, in listings. -/
def HandlerKind.text : HandlerKind → String
  | direct => "direct"
  | delegate => "delegate"

/-- The handlers, one for each command of the table. -/
inductive Handler where
  /-- `commit`: records everything. -/
  | commit
  /-- `status`: has no counterpart. -/
  | status
  /-- `export`: shows commits. -/
  | exportCommits
  /-- `graft`: copies commits. -/
  | graft
  /-- `log`: shows the history of revisions. -/
  | log
  /-- `bookmark`: lists, sets, moves and deletes bookmarks. -/
  | bookmark
  /-- `rebase`: moves a branch. -/
  | rebase
  /-- `update`: switches to a revision. -/
  | update
  /-- `backout`: undoes a commit. -/
  | backout
  /-- `histedit`: edits the history. -/
  | histedit
  /-- `pull`: fetches and integrates. -/
  | pull
  /-- `summary`: shows where the user is. -/
  | summary
  deriving DecidableEq, Repr

namespace Handler

/-! ## Delegating commands -/

/-- A commit takes everything, so the flag that would add files is taken off with an advisory. -/
def commitLine (inv : Invocation) : Invocation :=
  if inv.hasOption "-A" then (inv.dropOption "-A").warn (.plain .addFlagUnneeded) else inv

/-- A graft takes its revisions from `-r`, in place of the general arguments. -/
def graftLine (inv : Invocation) : Except Failure Invocation :=
  match inv.optionArgs "-r" with
  | [] => .error (.optionRequired "-r" "graft")
  | revisions =>
    let warned :=
      if inv.general.isEmpty then inv
      else inv.warn ((Message.plain .graftExtraRevisions).about "ignored" (Token.join inv.general))
    .ok ((warned.dropOption "-r").setGeneral revisions)

/-- A log follows the history from the revisions after `-f`. -/
def logLine (inv : Invocation) : Except Failure Invocation :=
  match inv.refuseGeneral with
  | .error e => .error e
  | .ok () =>
    match inv.options.get? "-f" with
    | none => .error .followMissing
    | some revisions => .ok ((inv.dropOption "-f").setGeneral revisions).resolveDots

/-- An edit of the history begins at the one argument. -/
def histeditLine (inv : Invocation) : Except Failure Invocation :=
  match inv.checkGeneral 1 1 with
  | .error e => .error e
  | .ok () => .ok ((inv.setOptions (.singleton "-i" inv.general)).setGeneral [])

/-! ## Bookmarks -/

/-- The pairs of flags of which a bookmark line can have only one, in the order in which they
are looked for. -/
def exclusiveFlags : List (String × String) := [("-m", "-d"), ("-d", "-r"), ("-m", "-r")]

/-- What a bookmark at a revision counts. -/
def bookmarkRevisionPhrase : String := "with hg bookmark -r (a revision and a bookmark name)"

/-- A bookmark at a revision: the revision and the name, the first given to `-r`, the second to
`-r` too or standing alone. The canonical order is name, revision. -/
def bookmarkAtRevision (inv : Invocation) : Except Failure Invocation :=
  match inv.optionArgs "-r" ++ inv.general with
  | [] => .ok inv
  | [_] => .error (.tooFew 2 bookmarkRevisionPhrase)
  | [revision, name] => .ok ((inv.dropOption "-r").setGeneral [name, revision])
  | _ => .error (.tooMany 2 bookmarkRevisionPhrase)

/-- A bookmark here: the first name is checked out as a new branch, other names are left out
with an advisory. -/
def bookmarkHere (inv : Invocation) (name : String) (others : List String) : Invocation :=
  let warned :=
    if others.isEmpty then inv
    else inv.warn ((Message.plain .bookmarkExtraNames).about "ignored" (Token.join others))
  (warned.setOptions (.singleton "-b" [name])).setGeneral []

/-- Renames with `-m`, deletes with `-d`, places at a revision with `-r`, places here with a
name alone, and lists if nothing is named. -/
def bookmarkLine (inv : Invocation) : Except Failure (Canonical × Invocation) :=
  match exclusiveFlags.find? fun pair => inv.hasOption pair.1 && inv.hasOption pair.2 with
  | some (first, second) => .error (.incompatible first second)
  | none =>
    match inv.options.get? "-m" with
    | some names => .ok (.branch, (inv.setOption "-m" (names ++ inv.general)).setGeneral [])
    | none =>
      match inv.options.get? "-d" with
      | some names =>
        if names.isEmpty && inv.general.isEmpty then .ok (.branch, inv)
        else .ok (.branch, (inv.dropOption "-d").setOption "-D" names)
      | none =>
        if inv.hasOption "-r" then (bookmarkAtRevision inv).map ((.branch, ·))
        else
          match inv.general with
          | [] => .ok (.branch, inv)
          | name :: others => .ok (.checkout, bookmarkHere inv name others)

/-! ## Rebase -/

/-- A rebase needs `-d` and excludes `-s`; a source alone still needs somewhere to go. -/
def checkRebaseFlags (inv : Invocation) : Except Failure Unit :=
  match inv.hasOption "-d", inv.hasOption "-s" with
  | true, true => .error (.incompatible "-d" "-s")
  | false, false => .error .destinationMissing
  | false, true => .error (.optionRequired "-d" "rebase")
  | true, false => .ok ()

/-- Moves the branch that holds `-b`, or else the current revision, onto `-d`. The destination is
looked at before the base. -/
def rebaseCall (inv : Invocation) : Except Failure EngineCall :=
  match checkRebaseFlags inv with
  | .error e => .error e
  | .ok () =>
    match inv.optionArgs "-d" with
    | [] => .error (.tooFew 1 (inv.optionPhrase "-d"))
    | [destination] =>
      match inv.optionArgs "-b" with
      | [] => .ok (.rebase (Revision.resolve destination) Revision.head)
      | [base] => .ok (.rebase (Revision.resolve destination) (Revision.resolve base))
      | _ => .error (.tooMany 1 (inv.optionPhrase "-b"))
    | _ => .error (.tooMany 1 (inv.optionPhrase "-d"))

/-! ## All handlers -/

/-- A line that a canonical command takes over, unless it was refused. -/
def delegate (command : Canonical) (line : Except Failure Invocation) :
    Except Failure Resolution :=
  line.map (.delegated command ·)

/-- What a line resolves to, or why it is refused. -/
def resolve (h : Handler) (inv : Invocation) : Except Failure Resolution :=
  match h with
  | commit => .ok (.delegated .commit (commitLine inv))
  | status => .error .statusUnsupported
  | exportCommits => .ok (.delegated .showCommit inv.resolveDots)
  | graft => delegate .cherryPick (graftLine inv)
  | log => delegate .log (logLine inv)
  | bookmark => (bookmarkLine inv).map fun result => .delegated result.1 result.2
  | rebase => (rebaseCall inv).map (.direct · inv)
  | update => .ok (.delegated .checkout inv)
  | backout => .ok (.delegated .revert inv)
  | histedit => delegate .rebase (histeditLine inv)
  | pull => .ok (.delegated .pull inv)
  | summary => .ok (.delegated .branch inv)

/-- How the handler takes effect. -/
def kind : Handler → HandlerKind
  | status | rebase => .direct
  | commit | exportCommits | graft | log | bookmark | update | backout | histedit | pull
  | summary => .delegate

end Handler

end HgToGit
