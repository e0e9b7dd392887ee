/-
# HgToGit.Conversion -- from a line to its outcome

A line is recognized, its arguments are sorted, its handler resolves it, and the engine
performs what the handler asks for. The outcome is either an operation that the engine has
performed, or a canonical command with flags and arguments, which has one written form.
-/
import HgToGit.Registry.Builtin

namespace HgToGit

/-- What became of a line. -/
inductive Outcome where
  /-- The engine performed an operation. -/
  | executed
  /-- A canonical command is to be run with these flags and arguments. -/
  | delegated (vcs : Vcs) (command : Canonical) (options : Options) (general : List String)
  deriving DecidableEq

/-- A converted line. -/
structure Conversion where
  /-- The name of the command that took the line. -/
  command : String
  /-- Whether the command counts when solutions are scored. -/
  exemptFromGolf : Bool
  /-- What became of the line. -/
  outcome : Outcome
  /-- The advisories raised on the way, oldest first. -/
  warnings : List Message
  deriving DecidableEq

/-- The words of a canonical command line: the system, the command, each flag and its arguments
in the order of the flags, and the general arguments. -/
def Outcome.words? : Outcome → Option (List String)
  | .executed => none
  | .delegated vcs command options general =>
    some (vcs.text :: command.text ::
      (options.entries.flatMap fun e => e.1 :: e.2) ++ general)

namespace Conversion

/-- The canonical command line that a line becomes, if it becomes one. -/
def commandLine? (c : Conversion) : Option String := c.outcome.words?.map Token.join

/-- What a definition makes of arguments sorted by its flags, and the engine afterwards. -/
def ofArguments (d : Definition) (a : Arguments) (engine : Engine) :
    Except Failure Conversion × Engine :=
  match d.handler.resolve (Invocation.ofArguments d.name a) with
  | .error e => (.error e, engine)
  | .ok (.delegated command line) =>
    (.ok ⟨d.name, d.exemptFromGolf, .delegated .git command line.options line.general,
      line.warnings⟩, engine)
  | .ok (.direct call line) =>
    match engine.perform call with
    | (.error e, after) => (.error e, after)
    | (.ok (), after) => (.ok ⟨d.name, d.exemptFromGolf, .executed, line.warnings⟩, after)

variable {d : Definition} {a : Arguments} {line : Invocation}

/-- A refused line leaves the engine as it is. -/
theorem ofArguments_of_refused {e : Failure}
    (h : d.handler.resolve (.ofArguments d.name a) = .error e) (engine : Engine) :
    ofArguments d a engine = (.error e, engine) := by
  simp only [ofArguments, h]

/-- A canonical command takes the line over, and the engine stays as it is. -/
theorem ofArguments_of_delegated {command : Canonical}
    (h : d.handler.resolve (.ofArguments d.name a) = .ok (.delegated command line))
    (engine : Engine) :
    ofArguments d a engine =
      (.ok ⟨d.name, d.exemptFromGolf, .delegated .git command line.options line.general,
        line.warnings⟩, engine) := by
  simp only [ofArguments, h]

/-- An operation is asked for once, and the answer of the engine decides. -/
theorem ofArguments_of_direct {call : EngineCall}
    (h : d.handler.resolve (.ofArguments d.name a) = .ok (.direct call line)) (engine : Engine) :
    ofArguments d a engine =
      ((engine.perform call).1.map fun _ => ⟨d.name, d.exemptFromGolf, .executed, line.warnings⟩,
        (engine.perform call).2) := by
  simp only [ofArguments, h]
  cases engine.perform call with
  | mk result after => cases result <;> rfl

end Conversion

/-- Converts a line, and the engine afterwards. -/
def Registry.convert (r : Registry) (line : String) (engine : Engine) :
    Except Failure Conversion × Engine :=
  match r.recognize line with
  | .error e => (.error e, engine)
  | .ok (d, a) => Conversion.ofArguments d a engine

theorem Registry.convert_of_recognize {r : Registry} {line : String} {d : Definition}
    {a : Arguments} (h : r.recognize line = .ok (d, a)) (engine : Engine) :
    r.convert line engine = Conversion.ofArguments d a engine := by
  simp only [convert, h]

end HgToGit
