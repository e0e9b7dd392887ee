/-
# HgToGit.Settings.Quoted -- quoted texts in a settings document

A text stands between two quotation marks of one kind. Between double quotes a backslash
introduces an escape; between apostrophes every character stands for itself. Between three
quotation marks on either side a text can run over several lines: a line break directly after
the opening marks does not count, up to two marks in a row belong to the text, and between
double quotes a backslash at the end of a line takes the blanks and line breaks after it away.

No control character but the tab is allowed in a text.
-/

namespace HgToGit.Settings.Quoted

/-- How a text is quoted. -/
structure Style where
  /-- The quotation mark. -/
  mark : Char
  /-- Whether a backslash introduces an escape. -/
  escapes : Bool
  /-- Whether the text can run over several lines. -/
  multiline : Bool

/-- The double quotation mark, between which escapes count. -/
def doubleMark : Char := '\x22'

/-- The apostrophe, between which every character stands for itself. -/
def apostrophe : Char := '\x27'

/-- A character that can stand in a line of a text or a comment. -/
def isPrintable (c : Char) : Bool := c = '\t' || (' ' ≤ c && c ≠ '\x7f')

/-- The value of a hexadecimal digit. -/
def hexDigit? (c : Char) : Option Nat :=
  if '0' ≤ c ∧ c ≤ '9' then some (c.toNat - '0'.toNat)
  else if 'a' ≤ c ∧ c ≤ 'f' then some (c.toNat - 'a'.toNat + 10)
  else if 'A' ≤ c ∧ c ≤ 'F' then some (c.toNat - 'A'.toNat + 10)
  else none

/-- The character of a one-letter escape. -/
def escaped? (c : Char) : Option Char :=
  if c = doubleMark ∨ c = '\\' then some c
  else if c = 'b' then some '\x08'
  else if c = 't' then some '\t'
  else if c = 'n' then some '\n'
  else if c = 'f' then some '\x0c'
  else if c = 'r' then some '\r'
  else none

/-- Where a reader stands inside a text. -/
inductive Mode where
  /-- Between two characters. -/
  | plain
  /-- After a backslash. -/
  | escape
  /-- In a numeric escape that still needs this many digits, with the number read so far. -/
  | digits (missing : Nat) (value : Nat)
  /-- In the blanks after a backslash, and whether a line has ended in them. -/
  | fold (lineEnded : Bool)
  /-- After this many quotation marks in a row. -/
  | marks (count : Nat)

/-- What one character does. -/
inductive Effect where
  /-- The text goes on. -/
  | more (mode : Mode) (reversed : List Char)
  /-- The text ends with this character. -/
  | stop (reversed : List Char)
  /-- The text has ended before this character. -/
  | stopBefore (reversed : List Char)
  /-- The character is not allowed here. -/
  | refuse

/-- Quotation marks in front of a reversed text. -/
def Style.pushMarks (s : Style) (count : Nat) (reversed : List Char) : List Char :=
  List.replicate count s.mark ++ reversed

/-- A character between two characters of a text. -/
def Style.plainEffect (s : Style) (reversed : List Char) (c : Char) : Effect :=
  if c = s.mark then if s.multiline then .more (.marks 1) reversed else .stop reversed
  else if c = '\\' ∧ s.escapes then .more .escape reversed
  else if isPrintable c ∨ (c = '\n' ∧ s.multiline) then .more .plain (c :: reversed)
  else .refuse

/-- One character of a text, which is kept with its last character first. -/
def Style.effect (s : Style) (mode : Mode) (reversed : List Char) (c : Char) : Effect :=
  match mode with
  | .plain => s.plainEffect reversed c
  | .escape =>
    match escaped? c with
    | some x => .more .plain (x :: reversed)
    | none =>
      if c = 'u' then .more (.digits 4 0) reversed
      else if c = 'U' then .more (.digits 8 0) reversed
      else if s.multiline ∧ (c = ' ' ∨ c = '\t') then .more (.fold false) reversed
      else if s.multiline ∧ c = '\n' then .more (.fold true) reversed
      else .refuse
  | .digits missing value =>
    match hexDigit? c with
    | none => .refuse
    | some digit =>
      let value := value * 16 + digit
      if 1 < missing then .more (.digits (missing - 1) value) reversed
      else if value.isValidChar then .more .plain (Char.ofNat value :: reversed)
      else .refuse
  | .fold lineEnded =>
    if c = ' ' ∨ c = '\t' then .more (.fold lineEnded) reversed
    else if c = '\n' then .more (.fold true) reversed
    else if lineEnded then s.plainEffect reversed c
    else .refuse
  | .marks count =>
    if c = s.mark then
      if count = 4 then .stop (s.pushMarks 2 reversed) else .more (.marks (count + 1)) reversed
    else if 3 ≤ count then .stopBefore (s.pushMarks (count - 3) reversed)
    else s.plainEffect (s.pushMarks count reversed) c

/-- The rest of a text after its opening marks, and what follows its closing marks. -/
def Style.read? (s : Style) (mode : Mode) (reversed : List Char) :
    List Char → Option (List Char × List Char)
  | [] =>
    match mode with
    | .marks count =>
      if 3 ≤ count then some ((s.pushMarks (count - 3) reversed).reverse, []) else none
    | _ => none
  | c :: cs =>
    match s.effect mode reversed c with
    | .more mode reversed => s.read? mode reversed cs
    | .stop reversed => some (reversed.reverse, cs)
    | .stopBefore reversed => some (reversed.reverse, c :: cs)
    | .refuse => none

/-- A text without the line break that it begins with, if it does. -/
def skipLineBreak : List Char → List Char
  | '\n' :: cs => cs
  | cs => cs

/-- A quoted text. -/
structure Quotation where
  /-- The text. -/
  content : String
  /-- Whether it is written between threefold marks. -/
  multiline : Bool

/-- The text after an opening quotation mark, and what follows it. -/
def read? (mark : Char) (cs : List Char) : Option (Quotation × List Char) :=
  let escapes := mark == doubleMark
  let threefold := cs.take 2 == [mark, mark]
  let body := if threefold then skipLineBreak (cs.drop 2) else cs
  (Style.read? ⟨mark, escapes, threefold⟩ .plain [] body).map fun (content, rest) =>
    (⟨String.ofList content, threefold⟩, rest)

end HgToGit.Settings.Quoted
