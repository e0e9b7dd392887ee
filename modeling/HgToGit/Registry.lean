/-
# HgToGit.Registry -- the table of commands

A command is declared by its name, the pattern that recognizes a line, the flags it knows and
its handler. A registry is a table of declared commands with distinct names, each with the matcher
of its pattern. Its order counts: the first command whose matcher finds a match takes the line.

How a pattern is read is left open: any reader of patterns makes a table of a list of declarations
(`Registry.compileWith`), and a table may have any matchers. `Registry.compile` reads the patterns
of `HgToGit.Pattern`.
-/
import HgToGit.Handler
import HgToGit.Matcher

namespace HgToGit

/-- The declaration of a command. -/
structure Declaration where
  /-- The name, which also stands in messages. -/
  name : String
  /-- The written pattern that recognizes a line. -/
  pattern : String
  /-- The flags that the command knows. -/
  flags : List String
  /-- Whether a line of the command counts when solutions are scored. -/
  exemptFromGolf : Bool
  /-- What becomes of a line. -/
  handler : Handler
  deriving DecidableEq, Repr

/-- A declared command whose pattern has been read. -/
structure Definition extends Declaration where
  /-- What finds the pattern in a line. -/
  matcher : Matcher

namespace Definition

/-- The place after the part of the line that the pattern matches. -/
def find? (d : Definition) (line : String) : Option Cursor := d.matcher.find? line

/-- The byte offset at which the arguments of a line begin. -/
def matchEnd? (d : Definition) (line : String) : Option Nat := (d.find? line).map Cursor.offset

/-- The arguments in a text, sorted by the flags of the command. -/
def parseArguments (d : Definition) (text : String) : Arguments :=
  Arguments.parse d.flags (Token.tokenize text)

end Definition

/-- A table of commands. -/
structure Registry where
  /-- The commands, in the order in which they are tried. -/
  definitions : List Definition
  /-- No name occurs twice. -/
  distinct : (definitions.map (·.name)).Nodup

namespace Registry

/-- Why a list of declarations is no table. -/
inductive Fault where
  /-- An earlier declaration has the name. -/
  | duplicateName (name : String)
  /-- The pattern cannot be read. -/
  | invalidPattern (name : String)
  deriving DecidableEq, Repr

/-- The table without commands. -/
def empty : Registry := ⟨[], .nil⟩

/-- The names of the commands, in order. -/
def names (r : Registry) : List String := r.definitions.map (·.name)

/-- The table with one more command at its end. The name is looked at before the pattern. -/
def add (read : String → Option Matcher) (r : Registry) (d : Declaration) :
    Except Fault Registry :=
  if new : d.name ∈ r.names then .error (.duplicateName d.name)
  else
    match read d.pattern with
    | none => .error (.invalidPattern d.name)
    | some m =>
      .ok ⟨r.definitions ++ [⟨d, m⟩], by
        rw [List.map_append, List.nodup_append]
        refine ⟨r.distinct, by simp, fun a ha b hb => ?_⟩
        obtain rfl := by simpa using hb
        exact fun heq => new (heq ▸ ha)⟩

/-- The table of a list of declarations, whose patterns are read in the given way, or the fault of
the first one that has any. -/
def compileWith (read : String → Option Matcher) (declarations : List Declaration) :
    Except Fault Registry :=
  declarations.foldlM (add read) empty

/-- The table of a list of declarations, or the fault of the first one that has any. -/
def compile : List Declaration → Except Fault Registry := compileWith Pattern.matcher?

/-- The command of a name. -/
def get? (r : Registry) (name : String) : Option Definition :=
  r.definitions.find? fun d => d.name = name

/-- The number of commands. -/
def size (r : Registry) : Nat := r.definitions.length

/-- The first command whose pattern matches, and the place where its match ends. -/
def firstMatch? (r : Registry) (line : String) : Option (Definition × Cursor) :=
  r.definitions.findSome? fun d => (d.find? line).map (d, ·)

/-- The command of a line and the arguments after what its pattern matches. Blanks around the
line do not count. -/
def recognize (r : Registry) (line : String) : Except Failure (Definition × Arguments) :=
  let trimmed := Text.trim line
  match r.firstMatch? trimmed with
  | none => .error (.unrecognized trimmed)
  | some (d, place) => .ok (d, d.parseArguments (String.ofList place.rest))

end Registry

end HgToGit
