/-
# HgToGit.Settings.Statement -- the lines of a settings document

A settings document holds truth values, texts, dates and times, and tables of texts. A line is
a key path and its value, or the path of a table in square brackets, which the lines after it
belong to. A table can also be written in braces on one line. Blanks between the parts of a line
do not count, and neither does what follows a number sign.

A document with any other kind of value has no reading here: there is no setting that could
take it.
-/
import HgToGit.Settings.Moment
import HgToGit.Settings.Quoted

namespace HgToGit.Settings

/-! ## Lexemes -/

/-- The smallest parts of a document. -/
inductive Lexeme where
  /-- A word of letters, digits, hyphens and underscores. -/
  | word (text : String)
  /-- A quoted text. -/
  | quoted (text : Quoted.Quotation)
  /-- A date or a time, as it is written. -/
  | moment (text : String)
  /-- A mark that stands for itself. -/
  | mark (c : Char)
  /-- The end of a line. -/
  | lineEnd

/-- A character of a word. -/
def isWordChar (c : Char) : Bool := c.isAlphanum || c = '-' || c = '_'

/-- The marks with a meaning: brackets, braces, the equals sign, the dot and the comma. -/
def isMark (c : Char) : Bool := c ∈ ['[', ']', '\x7b', '\x7d', '=', '.', ',']

/-- Whether a character is a blank within a line. -/
def isLineBlank (c : Char) : Bool := c = ' ' || c = '\t'

/-- The text with a line feed for each carriage return and line feed. A carriage return alone
is allowed nowhere. -/
def unifyLineEnds : List Char → Option (List Char)
  | [] => some []
  | '\r' :: '\n' :: cs => (unifyLineEnds cs).map ('\n' :: ·)
  | c :: cs => if c = '\r' then none else (unifyLineEnds cs).map (c :: ·)

/-- The lexemes of a text. A moment is looked for after an equals sign only; elsewhere its digits
are a word. Each lexeme takes at least one character, so a budget of the length of the text is
enough. -/
def lexemes : Nat → List Char → Option (List Lexeme)
  | _, [] => some []
  | 0, _ => none
  | budget + 1, c :: cs =>
    if isLineBlank c then lexemes budget cs
    else if c = '\n' then (lexemes budget cs).map (.lineEnd :: ·)
    else if c = '#' then lexemes budget (cs.dropWhile Quoted.isPrintable)
    else if c = '=' then
      match Moment.read? (cs.dropWhile isLineBlank) with
      | some (text, rest) => (lexemes budget rest).map (.mark c :: .moment text :: ·)
      | none => (lexemes budget cs).map (.mark c :: ·)
    else if isMark c then (lexemes budget cs).map (.mark c :: ·)
    else if isWordChar c then
      (lexemes budget (cs.dropWhile isWordChar)).map
        (.word (String.ofList (c :: cs.takeWhile isWordChar)) :: ·)
    else if c = Quoted.doubleMark ∨ c = Quoted.apostrophe then
      match Quoted.read? c cs with
      | some (text, rest) => (lexemes budget rest).map (.quoted text :: ·)
      | none => none
    else none

/-- The lexemes of the first line, and those of each line after it. -/
def splitLines : List Lexeme → List Lexeme × List (List Lexeme)
  | [] => ([], [])
  | .lineEnd :: rest =>
    let (line, more) := splitLines rest
    ([], line :: more)
  | l :: rest =>
    let (line, more) := splitLines rest
    (l :: line, more)

/-! ## Statements -/

/-- A value. -/
inductive Value where
  /-- A truth value. -/
  | truth (value : Bool)
  /-- A text. -/
  | text (value : String)
  /-- A date or a time, as written. -/
  | moment (value : String)
  /-- A table of texts, as written. -/
  | table (entries : List (String × String))
  deriving DecidableEq, Repr

/-- What a line says. -/
inductive Statement where
  /-- The lines from here on belong to a table. -/
  | table (path : List String)
  /-- A key path has a value. -/
  | assign (path : List String) (value : Value)
  deriving DecidableEq, Repr

/-- A key: a word, or a quoted text on one line. -/
def key? : Lexeme → Option String
  | .word text => some text
  | .quoted q => if q.multiline then none else some q.content
  | _ => none

/-- A path of keys with dots between them, and what follows it. -/
def path? : List Lexeme → Option (List String × List Lexeme)
  | [] => none
  | l :: .mark '.' :: rest => do
    let key ← key? l
    let (keys, rest) ← path? rest
    some (key :: keys, rest)
  | l :: rest => (key? l).map fun key => ([key], rest)

/-- The entries of a table in braces, after the opening brace. -/
def entries? : List Lexeme → Option (List (String × String))
  | [l, .mark '=', .quoted q, .mark '\x7d'] => (key? l).map fun key => [(key, q.content)]
  | l :: .mark '=' :: .quoted q :: .mark ',' :: rest => do
    let key ← key? l
    let more ← entries? rest
    some ((key, q.content) :: more)
  | _ => none

/-- The value at the end of a line. -/
def value? : List Lexeme → Option Value
  | [.word "true"] => some (.truth true)
  | [.word "false"] => some (.truth false)
  | [.quoted q] => some (.text q.content)
  | [.moment text] => some (.moment text)
  | [.mark '\x7b', .mark '\x7d'] => some (.table [])
  | .mark '\x7b' :: rest => (entries? rest).map .table
  | _ => none

/-- What a line says, if it says anything. -/
def statement? : List Lexeme → Option (Option Statement)
  | [] => some none
  | .mark '[' :: rest =>
    match path? rest with
    | some (path, [.mark ']']) => some (some (.table path))
    | _ => none
  | line =>
    match path? line with
    | some (path, .mark '=' :: rest) => (value? rest).map fun value => some (.assign path value)
    | _ => none

/-- A text without the byte order mark that it may begin with. -/
def skipByteOrderMark : List Char → List Char
  | '\ufeff' :: cs => cs
  | cs => cs

/-- What the lines of a document say, if every line can be read. -/
def statements? (document : String) : Option (List Statement) := do
  let cs ← unifyLineEnds (skipByteOrderMark document.toList)
  let (first, more) := splitLines (← lexemes cs.length cs)
  let lines ← (first :: more).mapM statement?
  some (lines.filterMap id)

end HgToGit.Settings
