/-
# HgToGit.Pattern.Remainder -- what is left of a pattern, and where its matches end

While a pattern is matched, a remainder says what is left of it: patterns that follow one
another, and repetitions that have had an iteration and may have more. `moves` lists what can
come next at a place of a text, the preferred move first: a character is taken, or nothing is
left. `ends` lists the places where a match can end, the preferred one first.

Between two characters a pattern can be gone through in circles, as in `(a*)*`. A way through
it comes to each choice once: where it comes back to a choice that is still open, it is given
up, and what the choice has besides is tried in its turn. That keeps the moves finite, and it
decides the preference: in `(a*|b)*` an iteration that takes nothing is given up, and the next
alternative is tried before the repetition ends.
-/
import HgToGit.Pattern

namespace HgToGit

/-- A place in a text: how many bytes of UTF-8 stand before it, and the characters after it. -/
structure Cursor where
  /-- The byte offset of the place. -/
  offset : Nat
  /-- What follows. -/
  rest : List Char
  deriving DecidableEq, Repr

/-- The bytes of UTF-8 that characters take. -/
def byteLength : List Char → Nat
  | [] => 0
  | c :: cs => c.utf8Size + byteLength cs

/-- The second place lies after the first in one text: between them stand some characters,
and the offset grows by their bytes. -/
def Cursor.Reaches (a b : Cursor) : Prop :=
  ∃ taken, a.rest = taken ++ b.rest ∧ b.offset = a.offset + byteLength taken

theorem Cursor.Reaches.refl (a : Cursor) : a.Reaches a := ⟨[], rfl, rfl⟩

/-- What is reached from behind a character is reached from in front of it. -/
theorem Cursor.Reaches.of_behind {offset : Nat} {c : Char} {cs : List Char} {b : Cursor}
    (h : Reaches ⟨offset + c.utf8Size, cs⟩ b) : Reaches ⟨offset, c :: cs⟩ b := by
  obtain ⟨taken, rfl, hoffset⟩ := h
  exact ⟨c :: taken, rfl, by rw [hoffset, byteLength, Nat.add_assoc]⟩

/-- An item of what is left of a pattern. -/
inductive Item where
  /-- A pattern of which nothing has been matched. -/
  | whole (p : Pattern)
  /-- A repetition after an iteration. -/
  | again (body : Pattern)
  deriving DecidableEq, Repr

/-- What is left of a pattern: items that follow one another. -/
abbrev Remainder := List Item

/-- What can come next in a match. -/
inductive Move where
  /-- Nothing is left, so the match ends here. -/
  | done
  /-- A character is taken, and then something is left. -/
  | take (s : Symbol) (left : Remainder)
  deriving DecidableEq, Repr

/-- Which ends of the text a place is at. -/
structure Edges where
  /-- Nothing stands before the place. -/
  atStart : Bool
  /-- Nothing stands after the place. -/
  atFinish : Bool
  deriving DecidableEq, Repr

/-- The moves into a pattern, or through it to what comes `after` it, whose moves are those of
`through`. Both depend on the choices that are open on the way. A first iteration that takes
nothing leads on to what comes after the repetition, since the choices of a second one would all
be open. -/
def Pattern.moves (edges : Edges) :
    Pattern → Remainder → (List Remainder → List Move) → List Remainder → List Move
  | .empty, _, through, opened => through opened
  | .symbol s, after, _, _ => [.take s after]
  | .start, _, through, opened => if edges.atStart then through opened else []
  | .finish, _, through, opened => if edges.atFinish then through opened else []
  | .seq first second, after, through, opened =>
    first.moves edges (.whole second :: after) (second.moves edges after through) opened
  | .alt first second, after, through, opened =>
    let here := .whole (.alt first second) :: after
    if here ∈ opened then []
    else
      first.moves edges after through (here :: opened) ++
        second.moves edges after through (here :: opened)
  | .star body, after, through, opened =>
    let here := .whole (.star body) :: after
    if here ∈ opened then []
    else
      body.moves edges (.again body :: after) through (here :: opened) ++ through (here :: opened)
  | .plus body, after, through, opened =>
    body.moves edges (.again body :: after) through opened

namespace Remainder

/-- The moves of what is left, of which the choices `opened` are open. An iteration that takes
nothing comes back to its repetition, which is then open, so it has no moves. -/
def moves (edges : Edges) : Remainder → List Remainder → List Move
  | [], _ => [.done]
  | .whole p :: after, opened => p.moves edges after (moves edges after) opened
  | .again body :: after, opened =>
    let here := .again body :: after
    if here ∈ opened then []
    else body.moves edges here (fun _ => []) (here :: opened) ++ moves edges after (here :: opened)

/-- The moves of what is left at a place with so many bytes before it and these characters
after it. -/
def movesAt (r : Remainder) (offset : Nat) (rest : List Char) : List Move :=
  moves ⟨offset = 0, rest.isEmpty⟩ r []

/-- The places where a match of what is left can end, the preferred one first. -/
def ends (r : Remainder) (offset : Nat) : List Char → List Cursor
  | [] =>
    (movesAt r offset []).flatMap fun m =>
      match m with
      | .done => [⟨offset, []⟩]
      | .take _ _ => []
  | c :: cs =>
    (movesAt r offset (c :: cs)).flatMap fun m =>
      match m with
      | .done => [⟨offset, c :: cs⟩]
      | .take s left => if s.fits c then ends left (offset + c.utf8Size) cs else []

end Remainder

/-- Where a match can end if this move comes next. -/
def Move.ends (offset : Nat) (rest : List Char) : Move → List Cursor
  | .done => [⟨offset, rest⟩]
  | .take s left =>
    match rest with
    | [] => []
    | c :: cs => if s.fits c then left.ends (offset + c.utf8Size) cs else []

/-- A match ends where its next move leads it. -/
theorem Remainder.ends_eq_flatMap (r : Remainder) (offset : Nat) (rest : List Char) :
    r.ends offset rest = (r.movesAt offset rest).flatMap (Move.ends offset rest) := by
  cases rest <;> rw [ends] <;> rfl

/-- A match goes forward in its text. -/
theorem Remainder.reaches_of_mem_ends {r : Remainder} {offset : Nat} {rest : List Char}
    {b : Cursor} (h : b ∈ r.ends offset rest) : Cursor.Reaches ⟨offset, rest⟩ b := by
  induction rest generalizing r offset with
  | nil =>
    rw [ends_eq_flatMap] at h
    obtain ⟨move, -, hb⟩ := List.mem_flatMap.mp h
    cases move with
    | done =>
      obtain rfl := List.mem_singleton.mp hb
      exact .refl _
    | take s left => cases hb
  | cons c cs ih =>
    rw [ends_eq_flatMap] at h
    obtain ⟨move, -, hb⟩ := List.mem_flatMap.mp h
    cases move with
    | done =>
      obtain rfl := List.mem_singleton.mp hb
      exact .refl _
    | take s left =>
      rw [Move.ends] at hb
      split at hb
      · exact (ih hb).of_behind
      · cases hb

/-- Where a match that begins at a place can end, the preferred place first. -/
def Pattern.ends (p : Pattern) (offset : Nat) (cs : List Char) : List Cursor :=
  Remainder.ends [.whole p] offset cs

end HgToGit
