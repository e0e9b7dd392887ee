/-
# HgToGit.Transcript -- what a program writes

A transcript is what is written, in order, each piece to one of the two outputs. The two
outputs are views of it, and both turn one transcript after another into one text after
another.
-/

namespace HgToGit

/-- A piece of output. -/
inductive Chunk where
  /-- Written to the standard output. -/
  | out (text : String)
  /-- Written to the standard error output. -/
  | err (text : String)
  deriving DecidableEq, Repr

namespace Chunk

/-- What a piece adds to the standard output. -/
def stdout : Chunk → String
  | out text => text
  | err _ => ""

/-- What a piece adds to the standard error output. -/
def stderr : Chunk → String
  | out _ => ""
  | err text => text

/-- A line on the standard output. -/
def outLine (text : String) : Chunk := out (text ++ "\n")

/-- A line on the standard error output. -/
def errLine (text : String) : Chunk := err (text ++ "\n")

/-- The line that says why something failed. -/
def error (text : String) : Chunk := errLine ("error: " ++ text)

/-- The line that gives advice. -/
def warning (text : String) : Chunk := errLine ("warning: " ++ text)

end Chunk

/-- What is written, in order. -/
abbrev Transcript := List Chunk

namespace Transcript

/-- The standard output. -/
def stdout (t : Transcript) : String := t.foldr (fun c rest => c.stdout ++ rest) ""

/-- The standard error output. -/
def stderr (t : Transcript) : String := t.foldr (fun c rest => c.stderr ++ rest) ""

@[simp] theorem stdout_append (a b : Transcript) :
    stdout (a ++ b) = stdout a ++ stdout b := by
  induction a with
  | nil => simp [stdout]
  | cons c cs ih =>
    simp only [stdout, List.cons_append, List.foldr_cons] at ih ⊢
    rw [ih, String.append_assoc]

@[simp] theorem stderr_append (a b : Transcript) :
    stderr (a ++ b) = stderr a ++ stderr b := by
  induction a with
  | nil => simp [stderr]
  | cons c cs ih =>
    simp only [stderr, List.cons_append, List.foldr_cons] at ih ⊢
    rw [ih, String.append_assoc]

end Transcript

end HgToGit
