/-
# HgToGit.Settings.Source -- where the settings come from

A path given by the user is read, whatever else there is. Otherwise the first of three places
that exists is read: the path in the environment, the directory for configuration, the home
directory. What exists is not passed over because it cannot be read or has a mistake in it.
Without any document the settings mention nothing.

Files are given by a function from paths to what is found there, so loading depends on nothing
but the paths that it asks for. Whether something exists at a path is one thing and whether it can
be read is another: where reading fails, it fails for any reason, be there something or not.
-/
import HgToGit.Settings

namespace HgToGit.Settings

/-! ## Files -/

/-- Why a text cannot be read. -/
inductive ReadFault where
  /-- There is nothing at the path. -/
  | missing
  /-- The path goes on after a file. -/
  | pastFile
  /-- The path or a name in it is too long. -/
  | nameTooLong
  /-- There is a directory at the path. -/
  | isDirectory
  /-- The bytes are no text. -/
  | notText
  /-- Another reason, in the words of the system. -/
  | other (reason : String)
  deriving DecidableEq, Repr

/-- What is said about bytes that are no text. -/
def notTextMessage : String := "stream did not contain valid UTF-8"

/-- What is said about a text that cannot be read. -/
def ReadFault.message : ReadFault → String
  | .missing => "No such file or directory (os error 2)"
  | .pastFile => "Not a directory (os error 20)"
  | .nameTooLong => "File name too long (os error 36)"
  | .isDirectory => "Is a directory (os error 21)"
  | .notText => notTextMessage
  | .other reason => reason

/-- What is found at a path. -/
inductive FileEntry where
  /-- Something that cannot be read, or nothing; either way this is why reading fails. -/
  | unreadable (present : Bool) (fault : ReadFault)
  /-- A file with these bytes. -/
  | file (bytes : ByteArray)

namespace FileEntry

/-- Nothing. -/
@[match_pattern] abbrev missing : FileEntry := .unreadable false .missing

/-- Nothing, because the path goes on after a file. -/
@[match_pattern] abbrev pastFile : FileEntry := .unreadable false .pastFile

/-- Nothing, because the path or a name in it is too long. -/
@[match_pattern] abbrev nameTooLong : FileEntry := .unreadable false .nameTooLong

/-- A directory. -/
@[match_pattern] abbrev directory : FileEntry := .unreadable true .isDirectory

/-- Whether there is something at a path. -/
def isPresent : FileEntry → Bool
  | unreadable present _ => present
  | file _ => true

/-- The text of what is found at a path. -/
def read : FileEntry → Except ReadFault String
  | unreadable _ fault => .error fault
  | file bytes =>
    match String.fromUTF8? bytes with
    | some text => .ok text
    | none => .error .notText

end FileEntry

/-! ## Places -/

/-- The parts of the environment that say where the settings are. -/
structure Environment where
  /-- The path of the document. -/
  document : Option String
  /-- The directory for configuration. -/
  configHome : Option String
  /-- The home directory. -/
  home : Option String
  deriving DecidableEq, Repr

/-- A path below a directory: one slash between the two, and none after an empty directory or
one that ends in a slash. -/
def joinPath (directory path : String) : String :=
  match directory.toList.getLast? with
  | none => path
  | some c => if c = '/' then directory ++ path else directory ++ "/" ++ path

/-- The places where the settings can be, in the order in which they are tried. An empty home
directory counts as none. -/
def Environment.places (env : Environment) : List String :=
  env.document.toList ++
    env.configHome.toList.map (joinPath · "hgshim/config.toml") ++
    (env.home.toList.filter (· ≠ "")).map (joinPath · ".hgshim/config.toml")

/-! ## Loading -/

/-- A remark about the settings. -/
structure Remark where
  /-- What is remarked. -/
  message : String
  /-- The document that it is about. -/
  path : String
  deriving DecidableEq, Repr

/-- The settings and where they come from. -/
structure Loaded where
  /-- The settings. -/
  settings : Settings
  /-- The path of the document, if there is one. -/
  source : Option String
  /-- What the user is told about the settings, in the order of the names concerned. -/
  remarks : List Remark
  deriving DecidableEq

/-- Why the settings cannot be loaded. -/
inductive LoadError where
  /-- The document cannot be read. -/
  | unreadable (path : String) (fault : ReadFault)
  /-- The document has a mistake in it. -/
  | malformed (path : String)
  /-- The document has a text for a message that does not exist. -/
  | unknownMessage (name : String)
  deriving DecidableEq, Repr

/-- What is said about settings that cannot be loaded. -/
def LoadError.message : LoadError → String
  | .unreadable path fault =>
    "failed to read config file '" ++ path ++ "': " ++ fault.message
  | .malformed path => "failed to parse config file '" ++ path ++ "'"
  | .unknownMessage name => "invalid config value: unknown message key '" ++ name ++ "'"

/-- What is said about a blank text. -/
def blankRemark (path name : String) : Remark :=
  ⟨"message override for '" ++ name ++ "' is empty; using the built-in text", path⟩

/-- The settings in a document that has been read. -/
def ofText (path text : String) : Except LoadError Loaded :=
  match ofDocument? text with
  | none => .error (.malformed path)
  | some s =>
    match s.unknownName? with
    | some name => .error (.unknownMessage name)
    | none => .ok ⟨s, some path, s.blankNames.map (blankRemark path)⟩

/-- The settings in the document at a path. -/
def loadFrom (files : String → FileEntry) (path : String) : Except LoadError Loaded :=
  match (files path).read with
  | .error fault => .error (.unreadable path fault)
  | .ok text => ofText path text

/-- The place of the settings: the given path, or the first place where something exists. -/
def place? (files : String → FileEntry) (env : Environment) (given : Option String) :
    Option String :=
  match given with
  | some path => some path
  | none => env.places.find? fun path => (files path).isPresent

/-- Loads the settings. -/
def load (files : String → FileEntry) (env : Environment) (given : Option String) :
    Except LoadError Loaded :=
  match place? files env given with
  | none => .ok ⟨empty, none, []⟩
  | some path => loadFrom files path

end HgToGit.Settings
