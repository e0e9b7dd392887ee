/-
# HgToGit.FileTree -- files under one directory

A file tree is given by the files in it and by directories that have to exist without holding
any. A path is followed name by name from the top of the tree: `.` stays, `..` goes up, any
other name goes down, and only a directory can be gone through. A path that ends in a slash
names a directory. Paths that begin with a slash lead outside, where nothing is found but the
directories that `..` leads to. A path of 4096 bytes or more is too long, and so is a name of more
than 255 bytes where it is looked for in a directory.
-/
import HgToGit.Settings.Source

namespace HgToGit

open HgToGit.Settings (FileEntry)

/-- What is put at a place of a tree. -/
inductive FileContent where
  /-- A directory. -/
  | directory
  /-- A file with these bytes. -/
  | file (bytes : ByteArray)

/-- The files of a tree, each under the names that lead to it from the top. The directories on
the way exist too. -/
structure FileTree where
  /-- The names on the way to each file or directory, and what it is. -/
  contents : List (List String × FileContent)

namespace FileTree

/-- The part of a path up to its first slash, and the parts after that slash. -/
def parts : List Char → List Char × List (List Char)
  | [] => ([], [])
  | c :: cs =>
    let (part, more) := parts cs
    if c = '/' then ([], part :: more) else (c :: part, more)

/-- The parts of a path between its slashes. -/
def names (path : String) : List String :=
  let (first, more) := parts path.toList
  (first :: more).map String.ofList

/-- Puts something at a place; the path is one from the top with plain names. -/
def put (t : FileTree) (path : String) (content : FileContent) : FileTree :=
  ⟨t.contents ++ [((names path).filter fun name => name ≠ "" ∧ name ≠ ".", content)]⟩

/-- What stands at a place given by the names that lead to it. The top is a directory. -/
def at? (t : FileTree) (place : List String) : FileEntry :=
  match t.contents.find? fun entry => entry.1 = place with
  | some (_, .file bytes) => .file bytes
  | some (_, .directory) => .directory
  | none =>
    if place.isEmpty ∨ t.contents.any fun entry => place.isPrefixOf entry.1 then .directory
    else .missing

/-- The most bytes that a path can have. -/
def maxPathBytes : Nat := 4095

/-- The most bytes that a name in a path can have. -/
def maxNameBytes : Nat := 255

/-- What is found where a name leads to nothing. -/
def nothingAt (name : String) : FileEntry :=
  if maxNameBytes < name.utf8ByteSize then .nameTooLong else .missing

/-- What a list of names leads to outside the tree. -/
def outside : List String → FileEntry
  | [] => .directory
  | name :: more =>
    if name = "" ∨ name = "." ∨ name = ".." then outside more else nothingAt name

/-- What a list of names leads to from a place, given by its names with the last one first. -/
def follow (t : FileTree) (place : List String) : List String → FileEntry
  | [] => t.at? place.reverse
  | name :: more =>
    match t.at? place.reverse with
    | .directory =>
      if name = "" ∨ name = "." then t.follow place more
      else if name = ".." then
        match place with
        | [] => outside more
        | _ :: outer => t.follow outer more
      else if maxNameBytes < name.utf8ByteSize then .nameTooLong
      else t.follow (name :: place) more
    | .file _ => .pastFile
    | other => other

/-- What is found at a path. -/
def entry (t : FileTree) (path : String) : FileEntry :=
  if maxPathBytes < path.utf8ByteSize then .nameTooLong
  else
    match names path with
    | [""] => .missing
    | "" :: more => outside more
    | more => t.follow [] more

end FileTree

end HgToGit
