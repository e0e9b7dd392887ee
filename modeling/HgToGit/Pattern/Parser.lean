/-
# HgToGit.Pattern.Parser -- the written form of a pattern

A pattern is written with `^` and `$` for the two ends of the text, `\s` for a blank, round
brackets for a group, `|` between alternatives, and `*` or `+` after what is repeated; a
backslash before any other mark stands for the mark itself. Every other character stands for
itself, except `.`, `?`, `[` and the opening brace, for which there is no pattern.

A text is no pattern if its brackets do not pair up, if a repetition has nothing in front of it
to repeat, or if it nests more than two hundred and fifty levels deep. Groups, repetitions,
sequences of two items or more and choices of two branches or more are a level each.
-/
import HgToGit.Pattern

namespace HgToGit.Pattern

/-- The patterns of a list, one after the other. -/
def sequence (items : List Pattern) : Pattern := items.foldr .seq .empty

/-- Any of the branches, earlier ones preferred. -/
def choice (first : Pattern) : List Pattern → Pattern
  | [] => first
  | second :: more => .alt first (choice second more)

/-- A pattern as it is written. -/
structure Written where
  /-- The pattern. -/
  pattern : Pattern
  /-- The number of levels that it nests. -/
  depth : Nat

namespace Written

/-- The largest depth in a list. -/
def deepest (items : List Written) : Nat := items.foldr (fun w d => max w.depth d) 0

/-- Something that nests nothing. -/
def leaf (p : Pattern) : Written := ⟨p, 0⟩

/-- Items one after the other. -/
def sequence (items : List Written) : Written :=
  ⟨Pattern.sequence (items.map pattern),
    if 2 ≤ items.length then deepest items + 1 else deepest items⟩

/-- Any of the branches. -/
def choice (first : Written) : List Written → Written
  | [] => first
  | more => ⟨Pattern.choice first.pattern (more.map pattern), deepest (first :: more) + 1⟩

/-- One level around something. -/
def around (change : Pattern → Pattern) (w : Written) : Written := ⟨change w.pattern, w.depth + 1⟩

end Written

/-- The most levels that a pattern can nest. -/
def maxDepth : Nat := 250

/-- A group that is being read. -/
structure Frame where
  /-- The branches before the current one, in order. -/
  branches : List Written
  /-- The items of the current branch, in order. -/
  items : List Written

namespace Frame

/-- A group of which nothing has been read. -/
def blank : Frame := ⟨[], []⟩

/-- The group with one more item. -/
def push (f : Frame) (w : Written) : Frame := { f with items := f.items ++ [w] }

/-- The group with one more item that nests nothing. -/
def pushLeaf (f : Frame) (p : Pattern) : Frame := f.push (.leaf p)

/-- The group with its current branch complete and another begun. -/
def branch (f : Frame) : Frame := ⟨f.branches ++ [.sequence f.items], []⟩

/-- What a complete group holds. -/
def toWritten (f : Frame) : Written :=
  match f.branches with
  | [] => .sequence f.items
  | first :: more => .choice first (more ++ [.sequence f.items])

/-- The group with its last item repeated, if it has an item. -/
def repeatLast? (f : Frame) (repetition : Pattern → Pattern) : Option Frame :=
  f.items.getLast?.map fun last => { f with items := f.items.dropLast ++ [last.around repetition] }

end Frame

/-- The marks that a backslash turns into themselves. -/
def isMark (c : Char) : Bool :=
  c ∈ ['\\', '.', '+', '*', '?', '(', ')', '|', '[', ']', '\x7b', '\x7d', '^', '$', '#', '&',
    '-', '~']

/-- Marks that have no meaning here and do not stand for themselves either. -/
def isRefused (c : Char) : Bool := c ∈ ['.', '?', '[', '\x7b']

/-- A character that stands for itself. -/
def literal (c : Char) : Pattern := .symbol (.char c)

/-- Reads the rest of a written pattern, with the innermost open group first. -/
def read (inner : Frame) (outer : List Frame) : List Char → Option Written
  | [] => if outer.isEmpty then some inner.toWritten else none
  | '\\' :: 's' :: cs => read (inner.pushLeaf (.symbol .blank)) outer cs
  | '\\' :: c :: cs => if isMark c then read (inner.pushLeaf (literal c)) outer cs else none
  | ['\\'] => none
  | '^' :: cs => read (inner.pushLeaf .start) outer cs
  | '$' :: cs => read (inner.pushLeaf .finish) outer cs
  | '(' :: cs => read .blank (inner :: outer) cs
  | ')' :: cs =>
    match outer with
    | [] => none
    | next :: more => read (next.push (inner.toWritten.around id)) more cs
  | '|' :: cs => read inner.branch outer cs
  | '*' :: cs =>
    match inner.repeatLast? .star with
    | some inner => read inner outer cs
    | none => none
  | '+' :: cs =>
    match inner.repeatLast? .plus with
    | some inner => read inner outer cs
    | none => none
  | c :: cs => if isRefused c then none else read (inner.pushLeaf (literal c)) outer cs

/-- The pattern that a text writes, if it writes one. -/
def parse? (text : String) : Option Pattern :=
  match read .blank [] text.toList with
  | some w => if w.depth ≤ maxDepth then some w.pattern else none
  | none => none

end HgToGit.Pattern
