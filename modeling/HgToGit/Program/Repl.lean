/-
# HgToGit.Program.Repl -- converting the lines of a stream

Every line of the input is converted on its own. A refused line is told and the next one is
tried. Blank lines and lines that begin with a number sign are left out. The input is read
line by line, so what is written for the lines before one that is no text stays written.
-/
import HgToGit.Program.Line
import HgToGit.Settings.Source

namespace HgToGit.Program

/-! ## Lines of bytes -/

/-- The byte that ends a line. -/
def lineFeed : UInt8 := 10

/-- The lines of a stream, of which `reversed` is the part of the first line that has been read,
last byte first. The last line need not be ended. -/
def byteLines (reversed : List UInt8) : List UInt8 → List (List UInt8)
  | [] => if reversed.isEmpty then [] else [reversed.reverse]
  | b :: bs =>
    if b = lineFeed then reversed.reverse :: byteLines [] bs else byteLines (b :: reversed) bs

/-- The text of a line, if its bytes are one. -/
def decode (bytes : List UInt8) : Option String := String.fromUTF8? bytes.toByteArray

/-- Whether a trimmed line is left out. -/
def isSkipped (line : String) : Bool :=
  match line.toList with
  | [] => true
  | c :: _ => c = '#'

/-! ## Processing -/

/-- How many lines were converted and how many refused. -/
structure Summary where
  /-- The lines that were converted. -/
  converted : Nat
  /-- The lines that were refused. -/
  failed : Nat
  deriving DecidableEq, Repr

namespace Summary

/-- No line at all. -/
def zero : Summary := ⟨0, 0⟩

/-- The lines of two inputs. -/
def add (a b : Summary) : Summary := ⟨a.converted + b.converted, a.failed + b.failed⟩

/-- One line. -/
def ofReport (report : LineReport) : Summary := if report.ok then ⟨1, 0⟩ else ⟨0, 1⟩

end Summary

/-- What came of an input. -/
structure ReplRun where
  /-- What was written. -/
  transcript : Transcript
  /-- The count of the lines, unless one of them was no text. -/
  summary? : Option Summary
  deriving DecidableEq

/-- What is written about a line: as for a line alone, and in text mode why it was refused. -/
def showInTurn (ctx : Context) (report : LineReport) : Transcript :=
  showReport ctx report ++
    if ctx.json then [] else report.error?.toList.map Chunk.error

/-- Converts lines one after the other, with one engine for all of them. -/
def processLines (ctx : Context) (engine : Engine) : List (List UInt8) → ReplRun
  | [] => ⟨[], some .zero⟩
  | bytes :: more =>
    match decode bytes with
    | none => ⟨[], none⟩
    | some text =>
      let line := Text.trim text
      if isSkipped line then processLines ctx engine more
      else
        let reported := LineReport.ofLine ctx.catalog engine line
        let later := processLines ctx reported.2 more
        ⟨showInTurn ctx reported.1 ++ later.transcript,
          later.summary?.map (Summary.ofReport reported.1).add⟩

/-- Converts the lines of an input. -/
def process (ctx : Context) (input : List UInt8) : ReplRun :=
  processLines ctx .new (byteLines [] input)

/-- Converts the lines of the standard input. -/
def repl (ctx : Context) (input : List UInt8) : Result :=
  let run := process ctx input
  match run.summary? with
  | some _ => .success run.transcript
  | none =>
    .failure run.transcript ("failed to read standard input: " ++ Settings.notTextMessage)

end HgToGit.Program
