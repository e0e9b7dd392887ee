/-
# HgToGit.Matcher -- what finds a match in a text

All that a table of commands asks of a pattern is where the match that it prefers in a text ends.
The table asks this of a matcher, whatever the matcher looks at, and a written pattern is one way
to make a matcher (`Pattern.matcher?`).
-/
import HgToGit.Pattern.Parser
import HgToGit.Pattern.Search

namespace HgToGit

/-- What finds a match in a text. -/
structure Matcher where
  /-- The place where the preferred match in a text ends, if there is a match. -/
  find? : String → Option Cursor
  /-- It is a place of the text. -/
  reaches : ∀ {text : String} {place : Cursor}, find? text = some place →
    Cursor.Reaches ⟨0, text.toList⟩ place

namespace Pattern

/-- A pattern finds the match that a search for it prefers. -/
def toMatcher (p : Pattern) : Matcher := ⟨p.find?, reaches_of_find?⟩

/-- The matcher of the pattern that a text writes, if it writes one. -/
def matcher? (text : String) : Option Matcher := (parse? text).map toMatcher

end Pattern

end HgToGit
