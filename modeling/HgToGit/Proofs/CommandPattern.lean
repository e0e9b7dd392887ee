/-
# HgToGit.Proofs.CommandPattern -- the patterns of the table read as words

Every pattern of the table has one shape: the beginning of the text, `hg`, spaces, one of the
command's words, and then either a blank or the end of the text, or nothing but spaces up to the
end. `Pattern.command` builds that shape from the words, and `parse?_pattern` says that the twelve
written patterns are the ones it builds from the vocabulary.

Where such a pattern leads is then a statement about the text alone (`leadsTo_command`), with no
pattern in it.
-/
import HgToGit.Proofs.PatternMeaning
import HgToGit.Registry.Vocabulary

namespace HgToGit

/-! ## Places after a text -/

theorem byteLength_append (cs cs' : List Char) :
    byteLength (cs ++ cs') = byteLength cs + byteLength cs' := by
  induction cs with
  | nil => simp [byteLength]
  | cons c cs ih =>
      rw [List.cons_append, byteLength, byteLength, ih, Nat.add_assoc]

namespace Cursor

/-- The place after some characters. -/
def skip (a : Cursor) (taken rest : List Char) : Cursor :=
  ⟨a.offset + byteLength taken, rest⟩

@[simp] theorem skip_rest (a : Cursor) (taken rest : List Char) : (a.skip taken rest).rest = rest :=
  rfl

theorem skip_nil {a : Cursor} {rest : List Char} (h : a.rest = rest) : a.skip [] rest = a := by
  simp [skip, byteLength, ← h]

theorem skip_skip (a : Cursor) (t t' r r' : List Char) :
    (a.skip t r).skip t' r' = a.skip (t ++ t') r' := by
  simp [skip, byteLength_append, Nat.add_assoc]

theorem past_eq_skip (a : Cursor) (c : Char) (cs : List Char) :
    past a.offset c cs = a.skip [c] cs := by
  simp [past, skip, byteLength]

end Cursor

/-! ## Texts, choices and spaces in a pattern -/

namespace Remainder

variable {after : Remainder} {a b : Cursor}

theorem leadsTo_literal {c : Char} :
    LeadsTo (.whole (Pattern.literal c) :: after) a b ↔
      ∃ rest, a.rest = c :: rest ∧ after.LeadsTo (a.skip [c] rest) b := by
  rw [Pattern.literal, leadsTo_symbol]
  constructor
  · rintro ⟨d, rest, hrest, hfits, h⟩
    obtain rfl : c = d := of_decide_eq_true hfits
    exact ⟨rest, hrest, Cursor.past_eq_skip a c rest ▸ h⟩
  · rintro ⟨rest, hrest, h⟩
    exact ⟨c, rest, hrest, decide_eq_true rfl, (Cursor.past_eq_skip a c rest).symm ▸ h⟩

/-- A sequence leads where its items lead one after the other. -/
theorem leadsTo_sequence {items : List Pattern} :
    LeadsTo (.whole (Pattern.sequence items) :: after) a b ↔
      LeadsTo (items.map .whole ++ after) a b := by
  induction items generalizing a with
  | nil => exact leadsTo_empty
  | cons p items ih =>
      rw [Pattern.sequence, List.foldr_cons, leadsTo_seq]
      exact leadsTo_append_congr [.whole p] fun _ => ih

/-- A text in a pattern leads past itself. -/
theorem leadsTo_text {word : List Char} :
    LeadsTo (word.map (.whole ∘ Pattern.literal) ++ after) a b ↔
      ∃ rest, a.rest = word ++ rest ∧ after.LeadsTo (a.skip word rest) b := by
  induction word generalizing a with
  | nil =>
      constructor
      · intro h
        exact ⟨a.rest, rfl, (Cursor.skip_nil rfl).symm ▸ h⟩
      · rintro ⟨rest, hrest, h⟩
        rwa [Cursor.skip_nil (by simpa using hrest)] at h
  | cons c word ih =>
      rw [List.map_cons, List.cons_append, Function.comp_apply, leadsTo_literal]
      simp only [ih, Cursor.skip_rest, Cursor.skip_skip]
      constructor
      · rintro ⟨_, hrest, rest, rfl, h⟩
        exact ⟨rest, hrest, h⟩
      · rintro ⟨rest, hrest, h⟩
        exact ⟨word ++ rest, hrest, rest, rfl, h⟩

/-- A choice leads where one of its branches leads. -/
theorem leadsTo_choice {first : Pattern} {more : List Pattern} :
    LeadsTo (.whole (Pattern.choice first more) :: after) a b ↔
      ∃ p ∈ first :: more, LeadsTo (.whole p :: after) a b := by
  induction more generalizing first with
  | nil => simp [Pattern.choice]
  | cons second more ih =>
      rw [Pattern.choice, leadsTo_alt, ih]
      simp

/-- A repeated character that has been met leads past any number of its occurrences. -/
theorem leadsTo_again_literal {c : Char} :
    LeadsTo (.again (Pattern.literal c) :: after) a b ↔
      ∃ run rest, (∀ x ∈ run, x = c) ∧ a.rest = run ++ rest ∧
        after.LeadsTo (a.skip run rest) b := by
  -- Every occurrence takes a character, so the induction is on the text that is left.
  induction htext : a.rest generalizing a with
  | nil =>
      rw [leadsTo_again, leadsTo_literal, htext]
      constructor
      · rintro (h | ⟨rest, hrest, _⟩)
        · exact ⟨[], [], by simp, rfl, (Cursor.skip_nil htext).symm ▸ h⟩
        · exact absurd hrest (by simp)
      · rintro ⟨run, rest, _, hrest, h⟩
        obtain ⟨rfl, rfl⟩ := List.append_eq_nil_iff.mp hrest.symm
        rw [Cursor.skip_nil htext] at h
        exact Or.inl h
  | cons d text ih =>
      rw [leadsTo_again, leadsTo_literal, htext]
      constructor
      · rintro (h | ⟨rest, hrest, h⟩)
        · exact ⟨[], d :: text, by simp, rfl, (Cursor.skip_nil htext).symm ▸ h⟩
        · obtain ⟨rfl, rfl⟩ := List.cons.inj hrest
          obtain ⟨run, rest, hrun, hrest, h⟩ := (ih (a.skip_rest [d] text)).mp h
          rw [Cursor.skip_skip] at h
          exact ⟨d :: run, rest, by simpa using hrun, congrArg (d :: ·) hrest, h⟩
      · rintro ⟨run, rest, hrun, hrest, h⟩
        cases run with
        | nil =>
            rw [Cursor.skip_nil (by simpa using htext.trans hrest)] at h
            exact Or.inl h
        | cons x run =>
            obtain rfl : x = c := hrun x (by simp)
            obtain ⟨rfl, rfl⟩ := List.cons.inj hrest
            have hmore : ∀ y ∈ run, y = d := fun y hy => hrun y (List.mem_cons_of_mem _ hy)
            refine Or.inr ⟨run ++ rest, rfl, (ih (a.skip_rest _ _)).mpr ⟨run, rest, hmore, rfl, ?_⟩⟩
            rwa [Cursor.skip_skip]

end Remainder

/-! ## The patterns of the table -/

namespace Pattern

/-- A word. -/
def word (text : String) : Pattern := sequence (text.toList.map literal)

/-- Any of some words. One word stands for itself, several are a group. -/
def anyWord : List String → List Pattern
  | [] => []
  | [only] => only.toList.map literal
  | first :: second :: more => [choice (word first) ((second :: more).map word)]

/-- What follows the word: a blank or the end of the text if the command takes arguments, and
otherwise nothing but spaces. -/
def ending (takesArguments : Bool) : List Pattern :=
  if takesArguments then [choice (sequence [.finish]) [sequence [.symbol .blank]]]
  else [.star (literal ' '), .finish]

/-- The pattern of a command with these words. -/
def command (words : List String) (takesArguments : Bool) : Pattern :=
  sequence (.start :: (Registry.system.toList.map literal ++
    .plus (literal ' ') :: (anyWord words ++ ending takesArguments)))

end Pattern

/-- The patterns of the table are built from the vocabulary. -/
theorem Registry.parse?_pattern : ∀ d ∈ Registry.declarations,
    Pattern.parse? d.pattern =
      some (.command (Registry.words d.handler) (Registry.takesArguments d.handler)) := by
  decide +kernel

/-! ## What they match -/

/-- What may stand after the word of a command. -/
def Registry.GoesOn (takesArguments : Bool) (rest : List Char) : Prop :=
  if takesArguments then ∀ c ∈ rest.head?, Text.isBlank c = true else ∀ c ∈ rest, c = ' '

/-- The place where the match ends if the word ends here: after the blank, or at the end. -/
def Cursor.afterWord (takesArguments : Bool) (a : Cursor) : Cursor :=
  if takesArguments then a.skip (a.rest.take 1) a.rest.tail else a.skip a.rest []

namespace Remainder

open Registry (GoesOn)

variable {after : Remainder} {a b : Cursor}

theorem leadsTo_word {text : String} :
    LeadsTo (.whole (Pattern.word text) :: after) a b ↔
      ∃ rest, a.rest = text.toList ++ rest ∧ after.LeadsTo (a.skip text.toList rest) b := by
  rw [Pattern.word, leadsTo_sequence, List.map_map, leadsTo_text]

theorem leadsTo_anyWord {words : List String} (hwords : words ≠ []) :
    LeadsTo ((Pattern.anyWord words).map .whole ++ after) a b ↔
      ∃ word ∈ words, ∃ rest, a.rest = word.toList ++ rest ∧
        after.LeadsTo (a.skip word.toList rest) b := by
  match words with
  | [] => exact absurd rfl hwords
  | [only] =>
      rw [Pattern.anyWord, List.map_map, leadsTo_text]
      simp
  | first :: second :: more =>
      rw [Pattern.anyWord, List.map_singleton, List.singleton_append, leadsTo_choice]
      simp only [List.mem_cons, List.map_cons, List.mem_map, exists_eq_or_imp, leadsTo_word]
      simp [leadsTo_word]

theorem leadsTo_ending {takesArguments : Bool} :
    LeadsTo ((Pattern.ending takesArguments).map .whole) a b ↔
      GoesOn takesArguments a.rest ∧ a.afterWord takesArguments = b := by
  cases takesArguments with
  | true =>
      simp only [Pattern.ending, GoesOn, Cursor.afterWord, if_true, List.map_singleton]
      rw [leadsTo_choice]
      simp only [List.mem_cons, List.not_mem_nil, or_false, exists_eq_or_imp, exists_eq_left,
        leadsTo_sequence, List.map_singleton, List.singleton_append, leadsTo_finish,
        leadsTo_symbol, leadsTo_nil]
      cases hrest : a.rest with
      | nil => simp [Cursor.skip_nil hrest]
      | cons c cs =>
          constructor
          · rintro (⟨hnil, _⟩ | ⟨_, _, hcons, hblank, h⟩)
            · exact absurd hnil (by simp)
            · cases hcons
              exact ⟨fun x hx => by cases hx; exact hblank, Cursor.past_eq_skip a c cs ▸ h⟩
          · rintro ⟨hblank, h⟩
            exact Or.inr ⟨c, cs, rfl, hblank c rfl, (Cursor.past_eq_skip a c cs).symm ▸ h⟩
  | false =>
      simp only [Pattern.ending, GoesOn, Cursor.afterWord, Bool.false_eq_true, if_false,
        List.map_cons, List.map_nil]
      rw [leadsTo_star, leadsTo_again_literal]
      simp only [leadsTo_finish, leadsTo_nil, Cursor.skip_rest]
      constructor
      · rintro ⟨run, rest, hrun, hrest, rfl, rfl⟩
        rw [List.append_nil] at hrest
        exact ⟨hrest ▸ hrun, hrest ▸ rfl⟩
      · rintro ⟨hrun, h⟩
        exact ⟨a.rest, [], hrun, (List.append_nil _).symm, rfl, h⟩

theorem leadsTo_spaces :
    LeadsTo (.whole (.plus (Pattern.literal ' ')) :: after) a b ↔
      ∃ gap rest, gap ≠ [] ∧ (∀ c ∈ gap, c = ' ') ∧ a.rest = gap ++ rest ∧
        after.LeadsTo (a.skip gap rest) b := by
  rw [leadsTo_plus, leadsTo_literal]
  simp only [leadsTo_again_literal, Cursor.skip_rest, Cursor.skip_skip]
  constructor
  · rintro ⟨_, htext, run, rest, hrun, rfl, h⟩
    exact ⟨' ' :: run, rest, by simp, by simpa using hrun, htext, h⟩
  · rintro ⟨gap, rest, hne, hgap, htext, h⟩
    obtain ⟨c, run, rfl⟩ := List.exists_cons_of_ne_nil hne
    obtain rfl : c = ' ' := hgap c (by simp)
    exact ⟨run ++ rest, htext, run, rest, fun x hx => hgap x (List.mem_cons_of_mem _ hx), rfl, h⟩

/-- A pattern of the table leads past `hg`, spaces, a word and what may follow it. -/
theorem leadsTo_command {words : List String} (hwords : words ≠ []) {takesArguments : Bool} :
    LeadsTo [.whole (Pattern.command words takesArguments)] a b ↔
      a.offset = 0 ∧ ∃ gap, ∃ word ∈ words, ∃ rest, gap ≠ [] ∧ (∀ c ∈ gap, c = ' ') ∧
        a.rest = Registry.system.toList ++ (gap ++ (word.toList ++ rest)) ∧
        GoesOn takesArguments rest ∧
        (a.skip (Registry.system.toList ++ gap ++ word.toList) rest).afterWord
          takesArguments = b := by
  -- The parts are read from the left, each at the place where the one before it ends.
  rw [Pattern.command, leadsTo_sequence, List.append_nil, List.map_cons, leadsTo_start,
    List.map_append, List.map_map, leadsTo_text, List.map_cons, List.map_append]
  simp only [leadsTo_spaces, leadsTo_anyWord hwords, leadsTo_ending, Cursor.skip_rest,
    Cursor.skip_skip]
  constructor
  · rintro ⟨hstart, _, htext, gap, _, hne, hgap, rfl, word, hword, rest, rfl, hgoes, h⟩
    exact ⟨hstart, gap, word, hword, rest, hne, hgap, htext, hgoes, by simpa using h⟩
  · rintro ⟨hstart, gap, word, hword, rest, hne, hgap, htext, hgoes, h⟩
    exact ⟨hstart, _, htext, gap, _, hne, hgap, rfl, word, hword, rest, rfl, hgoes, by simpa using h⟩

end Remainder

end HgToGit
