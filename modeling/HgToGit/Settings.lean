/-
# HgToGit.Settings -- what the user can configure

The settings are two switches and texts for messages. A document gives each of them at most
once, and the texts in one table: in braces, under a header, or key path by key path. A date or
a time in place of the table counts as a table of one text. Anything else in a document is a
mistake.

A text for a message that does not exist is refused. A text that is blank is not used, and the
user is told so; every other text replaces the English one as it is.
-/
import HgToGit.Message
import HgToGit.Settings.Statement
import HgToGit.Text.Blank

namespace HgToGit

/-- The settings in a document; what it does not mention is absent. -/
structure Settings where
  /-- Whether reports are written as JSON. -/
  json : Option Bool
  /-- Whether advisories are shown. -/
  showWarnings : Option Bool
  /-- Texts for messages, by the name of the message. -/
  messages : Option (TextMap String)
  deriving DecidableEq

namespace Settings

/-- Settings that mention nothing. -/
def empty : Settings := ⟨none, none, none⟩

/-! ## Reading a document -/

/-- How far a document has been read. -/
structure Reading where
  /-- The settings so far. -/
  settings : Settings
  /-- Whether the lines belong to the table of texts. -/
  inMessages : Bool
  /-- Whether the table of texts can still grow by key paths: it has been written in no other
  way so far. -/
  growing : Bool

/-- The name of the switch for reports. -/
def jsonName : String := "json"

/-- The name of the switch for advisories. -/
def showWarningsName : String := "show_warnings"

/-- The name of the table of texts. -/
def messagesName : String := "messages"

/-- The name of the one text that a date or a time counts as. No message has it. -/
def momentName : String := "$__toml_private_datetime"

/-- A table with one more entry, unless the key is taken. -/
def addNew? (m : TextMap String) (entry : String × String) : Option (TextMap String) :=
  if m.contains entry.1 then none else some (m.insert entry.1 entry.2)

/-- The texts of the settings, with one more. -/
def Reading.addText? (r : Reading) (name text : String) : Option Reading :=
  (addNew? (r.settings.messages.getD .empty) (name, text)).map fun m =>
    { r with settings := { r.settings with messages := some m } }

/-- A value in the document, outside the table of texts. -/
def Reading.assign? (r : Reading) (path : List String) (value : Value) : Option Reading :=
  let s := r.settings
  match path, value with
  | [name], .truth b =>
    if name = jsonName ∧ s.json = none then some { r with settings := { s with json := some b } }
    else if name = showWarningsName ∧ s.showWarnings = none then
      some { r with settings := { s with showWarnings := some b } }
    else none
  | [name], .table entries =>
    if name = messagesName ∧ s.messages = none then
      (entries.foldlM addNew? .empty).map fun m =>
        { r with settings := { s with messages := some m }, growing := false }
    else none
  | [name], .moment text =>
    if name = messagesName ∧ s.messages = none then
      some { r with
        settings := { s with messages := some (.singleton momentName text) }
        growing := false }
    else none
  | [table, name], .text text =>
    if table = messagesName ∧ r.growing then r.addText? name text else none
  | _, _ => none

/-- One line of a document. -/
def Reading.next? (r : Reading) : Statement → Option Reading
  | .table path =>
    if path = [messagesName] ∧ r.settings.messages = none then
      some { r with
        settings := { r.settings with messages := some .empty }
        inMessages := true
        growing := false }
    else none
  | .assign path value =>
    if r.inMessages then
      match path, value with
      | [name], .text text => r.addText? name text
      | _, _ => none
    else r.assign? path value

/-- The settings in a document, if it has no mistake. -/
def ofDocument? (document : String) : Option Settings := do
  let lines ← statements? document
  let r ← lines.foldlM Reading.next? ⟨empty, false, true⟩
  some r.settings

/-! ## What the settings mean -/

/-- The texts for messages, if there are any. -/
def texts (s : Settings) : TextMap String := s.messages.getD .empty

/-- The first name, in the order of names, that no message has. -/
def unknownName? (s : Settings) : Option String :=
  s.texts.keys.find? fun name => (MessageKey.ofText? name).isNone

/-- The names of the messages whose text is blank, in the order of names. -/
def blankNames (s : Settings) : List String :=
  (s.texts.entries.filter fun e => Text.isBlankText e.2).map Prod.fst

/-- The text that replaces the English one of a message. -/
def override? (s : Settings) (key : MessageKey) : Option String :=
  (s.texts.get? key.text).filter fun text => !Text.isBlankText text

/-- The wording of messages under the settings. -/
def catalog (s : Settings) : Catalog := .overriding s.override?

/-- Reports are written as text unless the settings say otherwise. -/
def writesJson (s : Settings) : Bool := s.json.getD false

/-- Advisories are shown unless the settings say otherwise. -/
def showsWarnings (s : Settings) : Bool := s.showWarnings.getD true

end Settings

end HgToGit
