/-
# HgToGit.Message.Template -- texts with slots

A template is text in which names in braces are slots. A slot runs from an opening brace to
the next closing brace, whatever stands between them; an opening brace that no closing brace
follows is text, and so is all that stands after it.

Filling goes once from left to right. A slot takes the value of its name, or stays as it is
written if the name has none, and a value is never read again as a template.
-/
import HgToGit.TextMap

namespace HgToGit

/-- A text divided at its slots. -/
structure Template where
  /-- Each slot's name, after the text in front of the slot. -/
  slots : List (List Char × List Char)
  /-- The text after the last slot. -/
  last : List Char
  /-- The text from an opening brace that is never closed, or nothing. -/
  tail : List Char
  deriving DecidableEq, Repr

namespace Template

/-- What opens a slot. -/
def opening : Char := '\x7b'

/-- What closes a slot. -/
def closing : Char := '\x7d'

/-- A slot as it is written. -/
def written (name : List Char) : List Char := opening :: name ++ [closing]

/-- Divides a text of which the part `literal` in front and, inside a slot, the part `name` of
its name have been read. Both are kept with their last character first. -/
def divide (literal : List Char) (name : Option (List Char)) : List Char → Template
  | [] =>
    match name with
    | none => ⟨[], literal.reverse, []⟩
    | some name => ⟨[], literal.reverse, opening :: name.reverse⟩
  | c :: cs =>
    match name with
    | none => if c = opening then divide literal (some []) cs else divide (c :: literal) none cs
    | some name =>
      if c = closing then
        let later := divide [] none cs
        { later with slots := (literal.reverse, name.reverse) :: later.slots }
      else divide literal (some (c :: name)) cs

/-- The division of a text at its slots. -/
def ofText (text : String) : Template := divide [] none text.toList

/-- The text that a template divides. -/
def text (t : Template) : List Char :=
  t.slots.flatMap (fun slot => slot.1 ++ written slot.2) ++ t.last ++ t.tail

/-- No text in front of a slot holds an opening brace, no name a closing one, and what is never
closed begins with an opening brace and holds no closing one. -/
def WellFormed (t : Template) : Prop :=
  (∀ slot ∈ t.slots, opening ∉ slot.1 ∧ closing ∉ slot.2) ∧ opening ∉ t.last ∧
    (t.tail = [] ∨ t.tail.head? = some opening) ∧ closing ∉ t.tail

/-- The names of the slots, in order. -/
def names (t : Template) : List String := t.slots.map fun slot => String.ofList slot.2

/-- What stands for a slot: the value of its name, or the slot as written. -/
def value (params : TextMap String) (name : List Char) : List Char :=
  match params.get? (String.ofList name) with
  | some text => text.toList
  | none => written name

/-- The text with its slots filled. -/
def fill (t : Template) (params : TextMap String) : String :=
  String.ofList (t.slots.flatMap (fun slot => slot.1 ++ value params slot.2) ++ t.last ++ t.tail)

end Template

end HgToGit
