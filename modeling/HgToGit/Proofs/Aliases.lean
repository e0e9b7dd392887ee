/-
# HgToGit.Proofs.Aliases -- the words of a command are interchangeable

Five of the commands have more than one word. A line that begins with `hg` and a word of a command,
and goes on with a blank, if it goes on, is recognized from what follows the word alone: which of
the words it was has no part in it (`recognize_wordLine`). So two such lines have one result, and
leave the engine in one state.

The two commands that take nothing more refuse every other continuation, whichever the word is.
The refusal quotes the line, and that is all by which the words can be told apart.
-/
import HgToGit.Conversion
import HgToGit.Proofs.QuotedArgument
import Mathlib.Data.List.TakeWhile

namespace HgToGit

open HgToGit.Text (isBlank isBlankText trim trimLeft trimRight)
open HgToGit.Token (IsBare IsGap split tokenize)

/-! ## Blanks at the end of a text -/

namespace Text

theorem trimRight_eq_nil_iff {cs : List Char} : trimRight cs = [] ↔ IsGap cs := by
  rw [trimRight, List.reverse_eq_nil_iff, List.dropWhile_eq_nil_iff]
  simp [IsGap]

theorem mem_head?_of_trimRight {cs : List Char} : ∀ c ∈ (trimRight cs).head?, c ∈ cs.head? := by
  intro c hc
  obtain ⟨w, -, hcs⟩ := exists_eq_trimRight_append cs
  rw [hcs, List.head?_append, Option.mem_def.mp hc]
  rfl

end Text

/-! ## Lines that begin with a word of a command -/

namespace Registry

/-- The line that begins with a word and goes on with `rest`. -/
def wordLine (word rest : String) : String := system ++ " " ++ word ++ rest

/-- Whether a line of the command can go on with `rest`. -/
def Accepts (command : Handler) (rest : String) : Prop :=
  takesArguments command = true ∨ isBlankText rest = true

theorem isBlankText_iff {text : String} : isBlankText text = true ↔ IsGap text.toList :=
  List.all_eq_true

variable {command : Handler} {word rest : String}

/-- Nothing is trimmed but what follows the word. -/
theorem toList_trim_wordLine (hword : IsBare word.toList) :
    (trim (wordLine word rest)).toList =
      system.toList ++ ([' '] ++ (word.toList ++ trimRight rest.toList)) := by
  obtain ⟨front, c, hlast⟩ : ∃ front c, word.toList = front ++ [c] :=
    ⟨_, _, (List.dropLast_append_getLast hword.1).symm⟩
  have hc : isBlank c = false := hword.2.1 c (by simp [hlast])
  have hline : (wordLine word rest).toList = ('h' :: 'g' :: ' ' :: front) ++ c :: rest.toList := by
    simp [wordLine, system, hlast]
  have hleft : trimLeft (wordLine word rest).toList = (wordLine word rest).toList := by
    rw [hline]
    exact List.dropWhile_cons_of_neg (by decide)
  rw [trim, String.toList_ofList, Text.trimChars, hleft, hline, Text.trimRight_append_cons hc, hlast]
  simp [system]

theorem opens_wordLine (hword : IsBare word.toList)
    (hrest : ∀ c ∈ rest.toList.head?, isBlank c = true) :
    Opens (trim (wordLine word rest)).toList word (trimRight rest.toList) :=
  ⟨[' '], by simp, by simp, toList_trim_wordLine hword,
    fun c hc => hrest c (Text.mem_head?_of_trimRight c hc)⟩

theorem goesOn_trimRight (hrest : ∀ c ∈ rest.toList.head?, isBlank c = true)
    (h : Accepts command rest) : GoesOn (takesArguments command) (trimRight rest.toList) := by
  cases htakes : takesArguments command with
  | true => exact fun c hc => hrest c (Text.mem_head?_of_trimRight c hc)
  | false =>
      have hblank : isBlankText rest = true := h.resolve_left (by simp [htakes])
      rw [Text.trimRight_eq_nil_iff.mpr (isBlankText_iff.mp hblank)]
      exact fun c hc => absurd hc (List.not_mem_nil)

/-- A line is recognized from what follows its word, whichever of the words it is. -/
theorem recognize_wordLine {d : Definition} (hd : d ∈ builtin.definitions)
    (hword : word ∈ words d.handler) (hrest : ∀ c ∈ rest.toList.head?, isBlank c = true)
    (h : Accepts d.handler rest) :
    builtin.recognize (wordLine word rest) =
      .ok (d, .parse d.flags ((split (trimRight rest.toList)).map String.ofList)) :=
  recognize_eq_ok_iff.mpr ⟨hd, _,
    names_of_opens hword (opens_wordLine (isBare_of_mem_words hword) hrest)
      (goesOn_trimRight hrest h), rfl⟩

/-- A word belongs to one command. -/
theorem command_eq_of_mem_words {command' : Handler} (h : word ∈ words command)
    (h' : word ∈ words command') : command = command' := by
  obtain ⟨d, hd, rfl⟩ := exists_mem_declarations command
  obtain ⟨d', hd', rfl⟩ := exists_mem_declarations command'
  rw [eq_of_mem_words d hd d' hd' word h h']

/-- A line that goes on as its command does not take it is refused, whichever of the words it
begins with. -/
theorem recognize_wordLine_refused (hword : word ∈ words command)
    (hrest : ∀ c ∈ rest.toList.head?, isBlank c = true) (h : ¬ Accepts command rest) :
    builtin.recognize (wordLine word rest) = .error (.unrecognized (trim (wordLine word rest))) := by
  refine recognize_eq_error_iff.mpr ⟨fun command' args hnames => h ?_, rfl⟩
  obtain ⟨⟨word', hword', htokens⟩, -, htakes⟩ := hnames
  have hbare := isBare_of_mem_words hword
  -- The line has the tokens of its word, so it can name the command of the word only.
  rw [(opens_wordLine hbare hrest).tokenize_eq hbare] at htokens
  obtain ⟨rfl, rfl⟩ := List.cons.inj (List.cons.inj htokens).2
  obtain rfl := command_eq_of_mem_words hword hword'
  refine htakes.imp_right fun hnone => ?_
  obtain ⟨w, hw, hsplit⟩ := Text.exists_eq_trimRight_append rest.toList
  have hgap : IsGap (trimRight rest.toList) :=
    Token.split_eq_nil_iff.mp (List.map_eq_nil_iff.mp hnone)
  rw [isBlankText_iff, hsplit]
  exact fun c hc => (List.mem_append.mp hc).elim (hgap c) (hw c)

/-! ## Two words of one command -/

/-- **The words of a command are interchangeable.** Two lines that begin with words of one command,
and go on alike, are recognized alike and have the same result with every engine, if the command
takes what follows. Only `status` and `summary` do not take everything; if they do not, both lines
are unrecognized, the engine is left alone, and the messages differ in the quoted line. -/
theorem words_interchangeable {a b : String} (ha : a ∈ words command) (hb : b ∈ words command)
    (hrest : ∀ c ∈ rest.toList.head?, isBlank c = true) (engine : Engine) :
    (Accepts command rest →
      (∃ d args, d.handler = command ∧ builtin.recognize (wordLine a rest) = .ok (d, args) ∧
        builtin.recognize (wordLine b rest) = .ok (d, args)) ∧
      builtin.convert (wordLine a rest) engine = builtin.convert (wordLine b rest) engine) ∧
    (¬ Accepts command rest →
      (command = .status ∨ command = .summary) ∧ isBlankText rest = false ∧
      ∀ word ∈ [a, b], builtin.convert (wordLine word rest) engine =
          (.error (.unrecognized (trim (wordLine word rest))), engine) ∧
        (Failure.unrecognized (trim (wordLine word rest))).kind = .unrecognizedCommand ∧
        (Failure.unrecognized (trim (wordLine word rest))).message =
          ⟨.commandNotSupported, .singleton "command" (trim (wordLine word rest))⟩) := by
  constructor
  · intro h
    obtain ⟨d, hd, rfl⟩ := exists_mem_builtin command
    have hrecognizeA := recognize_wordLine hd ha hrest h
    have hrecognizeB := recognize_wordLine hd hb hrest h
    exact ⟨⟨d, _, rfl, hrecognizeA, hrecognizeB⟩, by rw [convert, convert, hrecognizeA, hrecognizeB]⟩
  · intro h
    have hcommand : takesArguments command = false :=
      Bool.eq_false_iff.mpr fun htakes => h (.inl htakes)
    refine ⟨?_, Bool.eq_false_iff.mpr fun hblank => h (.inr hblank), fun word hmem => ?_⟩
    · cases command with
      | status => exact .inl rfl
      | summary => exact .inr rfl
      | _ => cases hcommand
    · have hword : word ∈ words command := by
        rcases List.mem_pair.mp hmem with rfl | rfl
        · exact ha
        · exact hb
      rw [convert, recognize_wordLine_refused hword hrest h]
      exact ⟨rfl, rfl, rfl⟩

/-- After a wide blank a flag is read behind `bookmarks` as it is behind `book`, and `summary` and
`sum` take none. -/
theorem words_interchangeable_wide_blank :
    let rest := "\u3000-d x"
    Accepts .bookmark rest ∧
      builtin.convert (wordLine "bookmarks" rest) .new =
        builtin.convert (wordLine "book" rest) .new ∧
      ¬ Accepts .summary rest ∧
      builtin.convert (wordLine "summary" rest) .new =
        (.error (.unrecognized "hg summary\u3000-d x"), .new) ∧
      builtin.convert (wordLine "sum" rest) .new =
        (.error (.unrecognized "hg sum\u3000-d x"), .new) := by
  intro rest
  have hhead : rest.toList.head? = some '\u3000' := by decide +kernel
  have hrest : ∀ c ∈ rest.toList.head?, isBlank c = true := by
    intro c hc
    obtain rfl : '\u3000' = c := Option.some.inj (hhead.symm.trans hc)
    decide
  have hbookmark : Accepts .bookmark rest := .inl rfl
  have hsummary : ¬ Accepts .summary rest := by
    rintro (htakes | hblank)
    · cases htakes
    · exact absurd hblank (by decide +kernel)
  have hbookmarks : "bookmarks" ∈ words .bookmark ∧ "book" ∈ words .bookmark := by decide
  have hsummaries : "summary" ∈ words .summary ∧ "sum" ∈ words .summary := by decide
  have hquoted : trim (wordLine "summary" rest) = "hg summary\u3000-d x" ∧
      trim (wordLine "sum" rest) = "hg sum\u3000-d x" := by
    decide +kernel
  obtain ⟨-, halike⟩ :=
    (words_interchangeable hbookmarks.1 hbookmarks.2 hrest .new).1 hbookmark
  obtain ⟨-, -, hrefused⟩ :=
    (words_interchangeable hsummaries.1 hsummaries.2 hrest .new).2 hsummary
  refine ⟨hbookmark, halike, hsummary, ?_, ?_⟩
  · rw [← hquoted.1]
    exact (hrefused "summary" (by simp)).1
  · rw [← hquoted.2]
    exact (hrefused "sum" (by simp)).1

end Registry

end HgToGit
