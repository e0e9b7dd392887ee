/-
# HgToGit.Pattern.Search -- finding a match in a text

A search prefers the leftmost start, and among the matches from there the preferred one. It
goes through the text once, with all remainders that are still in play in order of preference:
those from an earlier start come first. A remainder that is in play twice is kept where it is
preferred.

`find?_eq_first?` says that this is the first place of `Pattern.ends` at the first start that
has any, and `reaches_of_find?` that it is a place of the text.
-/
import HgToGit.Pattern.Remainder

namespace HgToGit.Pattern

/-! ## The preferred match -/

/-- Where the preferred match ends, the leftmost start preferred. -/
def first? (p : Pattern) (offset : Nat) : List Char → Option Cursor
  | [] => (p.ends offset []).head?
  | c :: cs => (p.ends offset (c :: cs)).head? <|> first? p (offset + c.utf8Size) cs

/-! ## The search -/

/-- The moves that take a character and are preferred to the end of the match, and whether the
match can end. -/
def untilDone : List Move → List (Symbol × Remainder) × Bool
  | [] => ([], false)
  | .done :: _ => ([], true)
  | .take s left :: more => ((s, left) :: (untilDone more).1, (untilDone more).2)

/-- What is in play: a new match can begin as long as none has been found. -/
def inPlay (p : Pattern) (found : Option Cursor) (live : List Remainder) : List Remainder :=
  if found.isNone then live ++ [[.whole p]] else live

/-- The moves of what is in play, each where it is preferred. -/
def playMoves (p : Pattern) (found : Option Cursor) (live : List Remainder) (offset : Nat)
    (rest : List Char) : List (Symbol × Remainder) × Bool :=
  untilDone ((inPlay p found live).flatMap fun r => r.movesAt offset rest).eraseDups

/-- What is left after a character has been taken. -/
def afterChar (c : Char) (takes : List (Symbol × Remainder)) : List Remainder :=
  takes.filterMap fun t => if t.1.fits c then some t.2 else none

/-- Where the preferred match ends, of the remainders that are live and of the starts from here
on, if no match has been `found` that is preferred to the latter. -/
def search (p : Pattern) (found : Option Cursor) (live : List Remainder) (offset : Nat) :
    List Char → Option Cursor
  | [] => if (playMoves p found live offset []).2 then some ⟨offset, []⟩ else found
  | c :: cs =>
    let (takes, isDone) := playMoves p found live offset (c :: cs)
    let found := if isDone then some ⟨offset, c :: cs⟩ else found
    let live := afterChar c takes
    if live.isEmpty && found.isSome then found
    else search p found live (offset + c.utf8Size) cs

/-- Where the preferred match in a text ends. -/
def find? (p : Pattern) (text : String) : Option Cursor := p.search none [] 0 text.toList

/-! ## The search finds the preferred match -/

/-- What comes first in a list does not depend on repetitions. -/
theorem head?_flatMap_eraseDups {α β : Type} [BEq α] [LawfulBEq α] (f : α → List β)
    (l : List α) : (l.eraseDups.flatMap f).head? = (l.flatMap f).head? := by
  match l with
  | [] => rfl
  | a :: as =>
    have hlt : (as.filter fun b => !b == a).length < (a :: as).length :=
      Nat.lt_succ_of_le (List.length_filter_le _ as)
    have ih := head?_flatMap_eraseDups f (as.filter fun b => !b == a)
    rw [List.eraseDups_cons, List.flatMap_cons, List.flatMap_cons]
    cases ha : f a with
    | cons x xs => rfl
    | nil =>
      rw [List.nil_append, List.nil_append, ih]
      clear ih hlt
      congr 1
      induction as with
      | nil => rfl
      | cons b bs ih =>
        by_cases hb : b = a
        · subst hb
          simpa [ha] using ih
        · simp [hb, ih]
termination_by l.length
decreasing_by exact hlt

/-- The moves up to the end of the match lead where all moves lead. -/
theorem head?_flatMap_ends (offset : Nat) (c : Char) (cs : List Char) (ms : List Move) :
    (ms.flatMap (Move.ends offset (c :: cs))).head? =
      (((afterChar c (untilDone ms).1).flatMap fun r =>
          r.ends (offset + c.utf8Size) cs).head? <|>
        if (untilDone ms).2 then some ⟨offset, c :: cs⟩ else none) := by
  induction ms with
  | nil => rfl
  | cons m ms ih =>
    cases m with
    | done => rfl
    | take s left =>
      rw [List.flatMap_cons, List.head?_append, ih]
      by_cases hs : s.fits c
      · simp [Move.ends, untilDone, afterChar, hs, List.head?_append, Option.or_assoc]
        rfl
      · simp [Move.ends, untilDone, afterChar, hs]
        rfl

theorem head?_flatMap_ends_nil (offset : Nat) (ms : List Move) :
    (ms.flatMap (Move.ends offset [])).head? =
      if (untilDone ms).2 then some ⟨offset, []⟩ else none := by
  induction ms with
  | nil => rfl
  | cons m ms ih =>
    cases m with
    | done => rfl
    | take s left =>
      rw [List.flatMap_cons, Move.ends, List.nil_append, ih]
      rfl

/-- Where the matches of what is in play end. -/
theorem head?_flatMap_inPlay (p : Pattern) (found : Option Cursor) (live : List Remainder)
    (offset : Nat) (rest : List Char) :
    ((inPlay p found live).flatMap fun r => r.ends offset rest).head? =
      ((live.flatMap fun r => r.ends offset rest).head? <|>
        if found.isNone then (p.ends offset rest).head? else none) := by
  cases found <;> simp [inPlay, Pattern.ends, List.head?_append]

/-- The moves of what is in play lead where its matches end. -/
theorem head?_flatMap_moves (l : List Remainder) (offset : Nat) (rest : List Char) :
    ((l.flatMap fun r => r.movesAt offset rest).eraseDups.flatMap
        (Move.ends offset rest)).head? =
      (l.flatMap fun r => r.ends offset rest).head? := by
  rw [head?_flatMap_eraseDups, List.flatMap_assoc]
  simp only [Remainder.ends_eq_flatMap]

/-- A search finds the preferred match of the live remainders, or else the match found before,
or else the preferred match from here on. -/
theorem search_eq (p : Pattern) (found : Option Cursor) (live : List Remainder) (offset : Nat)
    (rest : List Char) :
    p.search found live offset rest =
      ((live.flatMap fun r => r.ends offset rest).head? <|> found <|>
        if found.isNone then p.first? offset rest else none) := by
  induction rest generalizing found live offset with
  | nil =>
    have hmoves := head?_flatMap_moves (inPlay p found live) offset []
    rw [head?_flatMap_ends_nil, head?_flatMap_inPlay] at hmoves
    rw [search, playMoves, first?]
    generalize (live.flatMap fun r => r.ends offset []).head? = ofLive at hmoves ⊢
    generalize (p.ends offset []).head? = ofStart at hmoves ⊢
    generalize (untilDone _).2 = isDone at hmoves ⊢
    cases found <;> cases isDone <;> cases ofLive <;> simp_all
  | cons c cs ih =>
    have hmoves := head?_flatMap_moves (inPlay p found live) offset (c :: cs)
    rw [head?_flatMap_ends, head?_flatMap_inPlay, ← playMoves] at hmoves
    rw [search, first?]
    generalize p.playMoves found live offset (c :: cs) = play at hmoves ⊢
    obtain ⟨takes, isDone⟩ := play
    simp only at hmoves ⊢
    generalize afterChar c takes = left at hmoves ⊢
    have hstep (found : Option Cursor) :
        (if (left.isEmpty && found.isSome) = true then found
          else p.search found left (offset + c.utf8Size) cs) =
          ((left.flatMap fun r => r.ends (offset + c.utf8Size) cs).head? <|> found <|>
            if found.isNone then p.first? (offset + c.utf8Size) cs else none) := by
      split
      · rename_i h
        rw [Bool.and_eq_true, List.isEmpty_iff, Option.isSome_iff_exists] at h
        obtain ⟨rfl, e, rfl⟩ := h
        rfl
      · exact ih ..
    rw [hstep]
    clear hstep ih
    generalize (live.flatMap fun r => r.ends offset (c :: cs)).head? = ofLive at hmoves ⊢
    generalize (left.flatMap fun r => r.ends (offset + c.utf8Size) cs).head? = ofLeft
      at hmoves ⊢
    generalize (p.ends offset (c :: cs)).head? = ofStart at hmoves ⊢
    cases found <;> cases isDone <;> cases ofLive <;> cases ofLeft <;> cases ofStart <;> simp_all

/-- A search of a text finds the preferred match at the leftmost start that has one. -/
theorem find?_eq_first? (p : Pattern) (text : String) : p.find? text = p.first? 0 text.toList := by
  rw [find?, search_eq]
  rfl

theorem reaches_of_first? {p : Pattern} {offset : Nat} {cs : List Char} {b : Cursor}
    (h : p.first? offset cs = some b) : Cursor.Reaches ⟨offset, cs⟩ b := by
  -- The match begins here or behind the next character.
  induction cs generalizing offset with
  | nil => exact Remainder.reaches_of_mem_ends (List.mem_of_head? h)
  | cons c cs ih =>
    rw [first?] at h
    cases hhere : (p.ends offset (c :: cs)).head? with
    | some e =>
      rw [hhere] at h
      cases h
      exact Remainder.reaches_of_mem_ends (List.mem_of_head? hhere)
    | none =>
      rw [hhere] at h
      exact (ih h).of_behind

/-- A search ends at a place of its text. -/
theorem reaches_of_find? {p : Pattern} {text : String} {b : Cursor} (h : p.find? text = some b) :
    Cursor.Reaches ⟨0, text.toList⟩ b := by
  rw [find?_eq_first?] at h
  exact reaches_of_first? h

end HgToGit.Pattern
