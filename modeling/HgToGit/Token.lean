/-
# HgToGit.Token -- the words of a line

Blanks separate the tokens of a line, except inside a quoted run. A quote character opens a
run only where a token begins; the run lasts to the next character of the same kind, the
token goes on after it to the next blank, and the quotes stay part of the token. A run that
is never closed lasts to the end of the line.

`scan` reads a text from any point of a token, so reading one text after another is reading
their concatenation (`scan_append`). `Token.Splits` states the same division of a text into
blanks and tokens without a scanner.
-/
import HgToGit.Text.Blank

namespace HgToGit.Token

open HgToGit.Text (isBlank)

/-- The characters that open and close a quoted run: the apostrophe and the double quote. -/
def isQuote (c : Char) : Bool := c = '\x27' || c = '\x22'

/-! ## Scanning -/

/-- Where a scan stands between two characters. The text of a token that has begun is kept
with its last character first. -/
inductive Pending where
  /-- No token has begun. -/
  | gap
  /-- Inside a token and outside a quoted run. -/
  | bare (reversed : List Char)
  /-- Inside a quoted run that ends at the next `quote`. -/
  | quoted (quote : Char) (reversed : List Char)
  deriving DecidableEq, Repr

/-- The token that ends where the text ends, if one has begun. -/
def Pending.flush : Pending → List (List Char)
  | .gap => []
  | .bare reversed => [reversed.reverse]
  | .quoted _ reversed => [reversed.reverse]

/-- Reads one character: the token that it completes, if it does, and where the scan then stands. -/
def Pending.next (p : Pending) (c : Char) : Option (List Char) × Pending :=
  match p with
  | .gap =>
    if isBlank c then (none, .gap)
    else if isQuote c then (none, .quoted c [c])
    else (none, .bare [c])
  | .bare reversed =>
    if isBlank c then (some reversed.reverse, .gap) else (none, .bare (c :: reversed))
  | .quoted quote reversed =>
    if c = quote then (none, .bare (c :: reversed)) else (none, .quoted quote (c :: reversed))

/-- Reads a text: the tokens completed on the way, and where the scan stands at its end. -/
def scan (p : Pending) : List Char → List (List Char) × Pending
  | [] => ([], p)
  | c :: cs =>
    let (done, q) := p.next c
    let (more, last) := scan q cs
    (done.toList ++ more, last)

/-- The tokens of a text. -/
def split (cs : List Char) : List (List Char) :=
  let (tokens, last) := scan .gap cs
  tokens ++ last.flush

/-- The tokens of a line, in order. -/
def tokenize (line : String) : List String := (split line.toList).map String.ofList

/-- Tokens in one text, with single spaces between them. -/
def join (tokens : List String) : String := " ".intercalate tokens

/-- Scanning a text in two parts is scanning it at once. -/
theorem scan_append (p : Pending) (a b : List Char) :
    scan p (a ++ b) =
      ((scan p a).1 ++ (scan (scan p a).2 b).1, (scan (scan p a).2 b).2) := by
  induction a generalizing p with
  | nil => simp [scan]
  | cons c cs ih => simp [scan, ih]

/-! ## The division of a text into blanks and tokens -/

/-- A token outside quotes: no blank in it, and no quote character in front. -/
def IsBare (t : List Char) : Prop :=
  t ≠ [] ∧ (∀ c ∈ t, isBlank c = false) ∧ ∀ c ∈ t.head?, isQuote c = false

/-- A token that begins with a closed quoted run: the quote character, anything but it, the
quote character again, and then anything but blanks. -/
def IsClosed (t : List Char) : Prop :=
  ∃ q inner tail, t = q :: inner ++ q :: tail ∧ isQuote q = true ∧ q ∉ inner ∧
    ∀ c ∈ tail, isBlank c = false

/-- A token that is a quoted run without end: the quote character and anything but it. -/
def IsUnterminated (t : List Char) : Prop :=
  ∃ q inner, t = q :: inner ∧ isQuote q = true ∧ q ∉ inner

/-- A run of blanks. -/
def IsGap (w : List Char) : Prop := ∀ c ∈ w, isBlank c = true

/-- The tokens of a text that begins at a token: each but the last is followed by at least one
blank, and a quoted run without end is followed by nothing at all. -/
inductive SplitsAtToken : List Char → List (List Char) → Prop where
  /-- The last token, and blanks after it. -/
  | last (t w : List Char) : IsBare t ∨ IsClosed t → IsGap w → SplitsAtToken (t ++ w) [t]
  /-- A quoted run without end is the last token, and nothing follows it. -/
  | unterminated (t : List Char) : IsUnterminated t → SplitsAtToken t [t]
  /-- A token, at least one blank, and more tokens. -/
  | cons (t w rest : List Char) (ts : List (List Char)) : IsBare t ∨ IsClosed t → IsGap w →
      w ≠ [] → SplitsAtToken rest ts → SplitsAtToken (t ++ w ++ rest) (t :: ts)

/-- The tokens of a text: blanks in front, then nothing or tokens separated by blanks. -/
inductive Splits : List Char → List (List Char) → Prop where
  /-- A text of blanks has no token. -/
  | blank (w : List Char) : IsGap w → Splits w []
  /-- Blanks, and then the first token. -/
  | tokens (w rest : List Char) (ts : List (List Char)) : IsGap w → SplitsAtToken rest ts →
      Splits (w ++ rest) ts

end HgToGit.Token
