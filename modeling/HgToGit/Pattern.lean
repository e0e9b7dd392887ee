/-
# HgToGit.Pattern -- patterns over the characters of a text

A command is recognized by a pattern: symbols, the two ends of the text, sequence, alternatives
and repetition. A symbol stands for one character of the text. Alternatives and repetitions have
a preference: of two alternatives the first is preferred, and a repetition prefers to go on.

What a pattern matches is said in `HgToGit.Pattern.Remainder`, and how a match is found in a
text in `HgToGit.Pattern.Search`.
-/
import HgToGit.Text.Blank

namespace HgToGit

/-- What stands for one character of a text. -/
inductive Symbol where
  /-- A character, for itself. -/
  | char (c : Char)
  /-- Any blank character. -/
  | blank
  deriving DecidableEq, Repr

/-- Whether a symbol stands for a character. -/
def Symbol.fits : Symbol → Char → Bool
  | char x, c => x = c
  | blank, c => Text.isBlank c

/-- A pattern over the characters of a text. -/
inductive Pattern where
  /-- Matches everywhere and takes nothing. -/
  | empty
  /-- One character. -/
  | symbol (s : Symbol)
  /-- The very beginning of the text. -/
  | start
  /-- The very end of the text. -/
  | finish
  /-- One pattern and then the other. -/
  | seq (first second : Pattern)
  /-- Either pattern, the first one preferred. -/
  | alt (first second : Pattern)
  /-- The pattern any number of times, as often as possible preferred. -/
  | star (body : Pattern)
  /-- The pattern at least once, as often as possible preferred. -/
  | plus (body : Pattern)
  deriving DecidableEq, Repr

end HgToGit
