/-
# HgToGit.Report.Json -- values in JSON, written on one line

Reports are written as JSON without blanks, with the members of an object in the order in
which they are given. In a text the quotation mark, the backslash and the control characters
below the space are escaped, by one letter where there is one; all else stands as it is.
-/

namespace HgToGit.Report

/-- A value in JSON. -/
inductive Json where
  /-- A truth value. -/
  | bool (value : Bool)
  /-- A text. -/
  | text (value : String)
  /-- A list. -/
  | list (items : List Json)
  /-- An object, its members in order. -/
  | object (members : List (String × Json))

namespace Json

/-- A hexadecimal digit. -/
def hexDigit (n : Nat) : Char := if n < 10 then Char.ofNat (n + '0'.toNat)
  else Char.ofNat (n - 10 + 'a'.toNat)

/-- A character inside a text. -/
def escape (c : Char) : List Char :=
  if c = '\x22' ∨ c = '\\' then ['\\', c]
  else if c = '\x08' then ['\\', 'b']
  else if c = '\t' then ['\\', 't']
  else if c = '\n' then ['\\', 'n']
  else if c = '\x0c' then ['\\', 'f']
  else if c = '\r' then ['\\', 'r']
  else if c < ' ' then ['\\', 'u', '0', '0', hexDigit (c.toNat / 16), hexDigit (c.toNat % 16)]
  else [c]

/-- A text between quotation marks. -/
def quote (text : String) : String :=
  "\x22" ++ String.ofList (text.toList.flatMap escape) ++ "\x22"

mutual

/-- A value as it is written. -/
def render : Json → String
  | .bool true => "true"
  | .bool false => "false"
  | .text value => quote value
  | .list items => "[" ++ ",".intercalate (renderItems items) ++ "]"
  | .object members => "\x7b" ++ ",".intercalate (renderMembers members) ++ "\x7d"

/-- The items of a list as they are written. -/
def renderItems : List Json → List String
  | [] => []
  | item :: more => render item :: renderItems more

/-- The members of an object as they are written. -/
def renderMembers : List (String × Json) → List String
  | [] => []
  | (name, value) :: more => (quote name ++ ":" ++ render value) :: renderMembers more

end

/-- A list of texts. -/
def texts (values : List String) : Json := .list (values.map .text)

end Json

end HgToGit.Report
