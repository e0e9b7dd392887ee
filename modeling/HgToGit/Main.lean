/-
# HgToGit.Main -- the program in its surroundings

Fetches what the program depends on, which is the environment, the files in question and the
standard input, runs it, and writes what it writes. All decisions are those of `Program.run`.
-/
import HgToGit.Program

namespace HgToGit.Main

open HgToGit.Settings (Environment FileEntry ReadFault)

/-! ## Files -/

/-- What the system says about an error: its number and its words. -/
def systemText? : IO.Error → Option (UInt32 × String)
  | .alreadyExists _ code words | .interrupted _ code words | .noFileOrDirectory _ code words
  | .invalidArgument _ code words | .permissionDenied _ code words
  | .resourceExhausted _ code words | .inappropriateType _ code words
  | .noSuchThing _ code words | .otherError code words | .resourceBusy code words
  | .resourceVanished code words | .unsupportedOperation code words | .hardwareFault code words
  | .unsatisfiedConstraints code words | .illegalOperation code words
  | .protocolError code words | .timeExpired code words => some (code, words)
  | .unexpectedEof | .userError _ => none

/-- Why reading fails. -/
def faultOf (e : IO.Error) : ReadFault :=
  match systemText? e with
  | some (2, _) => .missing
  | some (20, _) => .pastFile
  | some (21, _) => .isDirectory
  | some (36, _) => .nameTooLong
  | some (code, words) => .other (words ++ " (os error " ++ toString code.toNat ++ ")")
  | none => .other (toString e)

/-- The bytes of a file. -/
def bytesAt (path : String) : IO ByteArray := do
  (← IO.FS.Handle.mk path .read).readBinToEnd

/-- Whether there is something at a path, which may be known where reading fails. -/
def isPresent (path : String) : IO Bool := do
  try
    discard <| IO.FS.realPath path
    return true
  catch _ =>
    return false

/-- What is found at a path. -/
def entryAt (path : String) : IO FileEntry := do
  try
    return .file (← bytesAt path)
  catch e =>
    return .unreadable (← isPresent path) (faultOf e)

/-! ## The environment -/

/-- The number of the user, in what the system says about a process. -/
def userOf? (status : String) : Option String :=
  (status.splitOn "\n").findSome? fun line =>
    match line.splitOn "\t" with
    | "Uid:" :: user :: _ => some user
    | _ => none

/-- The home directory of a user in the database of users. -/
def homeOf? (users user : String) : Option String :=
  (users.splitOn "\n").findSome? fun line =>
    match line.splitOn ":" with
    | [_, _, number, _, _, home, _] => if number = user then some home else none
    | _ => none

/-- The text of a file; none if it cannot be read. -/
def textAt? (path : String) : IO (Option String) := do
  try
    return String.fromUTF8? (← bytesAt path)
  catch _ =>
    return none

/-- The home directory of the user that runs the program: that of the environment, unless it is
empty or not set, and else that of the database of users. -/
def home? : IO (Option String) := do
  match (← IO.getEnv "HOME").filter (· ≠ "") with
  | some home => return some home
  | none =>
    let user := (← textAt? "/proc/self/status").bind userOf?
    let users ← textAt? "/etc/passwd"
    return users.bind fun users => user.bind (homeOf? users)

/-- The parts of the environment that say where the settings are. -/
def environment : IO Environment := do
  return ⟨← IO.getEnv "HGSHIM_CONFIG", ← IO.getEnv "XDG_CONFIG_HOME", ← home?⟩

/-! ## A run -/

/-- The paths that a run can ask for. -/
def pathsInQuestion (args : List String) (env : Environment) : List String :=
  match CommandLine.parse args with
  | .ok line => line.options.config.elim env.places fun path => [path]
  | .error _ => []

/-- Whether a run reads the standard input. -/
def readsInput (args : List String) : Bool :=
  match CommandLine.parse args with
  | .ok line => line.command = .repl
  | .error _ => false

/-- Everything on a stream, after what has been read of it. -/
partial def readAll (stream : IO.FS.Stream) (read : ByteArray) : IO ByteArray := do
  let more ← stream.read 65536
  if more.isEmpty then return read else readAll stream (read ++ more)

/-- Writes a piece of output. -/
def write : Chunk → IO Unit
  | .out text => IO.print text
  | .err text => IO.eprint text

end HgToGit.Main

open HgToGit HgToGit.Main in
/-- Runs the program. -/
def main (args : List String) : IO UInt32 := do
  let env ← environment
  let entries ← (pathsInQuestion args env).mapM fun path => do return (path, ← entryAt path)
  let files := fun path => (entries.lookup path).getD .missing
  let input ← if readsInput args then readAll (← IO.getStdin) .empty else pure .empty
  let result := Program.run args env files input.toList
  result.transcript.forM write
  return result.exit.toUInt32
