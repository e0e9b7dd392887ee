/-
# HgToGit.Proofs.Recognition -- the table recognizes exactly its vocabulary

The registry tries twelve patterns over the characters of a line. `Registry.Names` reads the line
as tokens instead. The two readings agree (`recognize_builtin_exact`): the match of a pattern stops
where the second token stops, so its word is that token, and what follows the match has the other
tokens.

Since the word is a token of the text and no word belongs to two commands, no text is matched by
two patterns, and the order of the table does not count.
-/
import HgToGit.Proofs.CommandPattern
import HgToGit.Proofs.RegistryTable
import HgToGit.Proofs.TokenScan
import Mathlib.Data.List.Nodup

namespace HgToGit.Registry

open HgToGit.Text (isBlank)
open HgToGit.Token (IsBare IsGap split tokenize)

/-! ## The vocabulary -/

theorem isBare_system : IsBare system.toList := by
  decide

theorem isBare_of_mem_words {command : Handler} {word : String} (h : word ∈ words command) :
    IsBare word.toList := by
  have hall : ∀ word ∈ words command, IsBare word.toList := by
    cases command <;> decide
  exact hall word h

theorem words_ne_nil (command : Handler) : words command ≠ [] := by
  cases command <;> decide

/-- No word belongs to two commands of the table. -/
theorem eq_of_mem_words : ∀ d ∈ declarations, ∀ d' ∈ declarations,
    ∀ word ∈ words d.handler, word ∈ words d'.handler → d = d' := by
  decide +kernel

/-- Every handler has a command of the table. -/
theorem exists_mem_declarations (command : Handler) : ∃ d ∈ declarations, d.handler = command := by
  cases command <;> simp [declarations]

theorem mem_declarations {d : Definition} (hd : d ∈ builtin.definitions) :
    d.toDeclaration ∈ declarations := by
  rw [← declared_builtin]
  exact List.mem_map_of_mem hd

theorem exists_mem_builtin (command : Handler) :
    ∃ d ∈ builtin.definitions, d.handler = command := by
  obtain ⟨declaration, hmem, hhandler⟩ := exists_mem_declarations command
  rw [← declared_builtin] at hmem
  obtain ⟨d, hd, rfl⟩ := List.mem_map.mp hmem
  exact ⟨d, hd, hhandler⟩

/-- A command of the table is determined by its declaration. -/
theorem eq_of_toDeclaration_eq {d d' : Definition} (hd : d ∈ builtin.definitions)
    (hd' : d' ∈ builtin.definitions) (h : d.toDeclaration = d'.toDeclaration) : d = d' :=
  List.inj_on_of_nodup_map builtin.distinct hd hd' (congrArg Declaration.name h)

theorem matcher_eq_command {d : Definition} (hd : d ∈ builtin.definitions) :
    d.matcher = (Pattern.command (words d.handler) (takesArguments d.handler)).toMatcher := by
  have hread := isReadBy_builtin d hd
  rw [Pattern.matcher?, parse?_pattern _ (mem_declarations hd)] at hread
  exact (Option.some.inj hread).symm

theorem find?_eq_command {d : Definition} (hd : d ∈ builtin.definitions) (text : String) :
    d.find? text =
      (Pattern.command (words d.handler) (takesArguments d.handler)).find? text := by
  rw [Definition.find?, matcher_eq_command hd]
  rfl

/-! ## The opening of a command line -/

/-- A text begins with `hg`, spaces and a word, and goes on with a blank, if it goes on. -/
def Opens (text : List Char) (word : String) (rest : List Char) : Prop :=
  ∃ gap, gap ≠ [] ∧ (∀ c ∈ gap, c = ' ') ∧
    text = system.toList ++ (gap ++ (word.toList ++ rest)) ∧ ∀ c ∈ rest.head?, isBlank c = true

theorem isGap_of_spaces {cs : List Char} (h : ∀ c ∈ cs, c = ' ') : IsGap cs := by
  intro c hc
  rw [h c hc]
  decide

/-- What an opened text has as its tokens. -/
theorem Opens.split_eq {text rest : List Char} {word : String} (h : Opens text word rest)
    (hword : IsBare word.toList) :
    split text = system.toList :: word.toList :: split rest := by
  obtain ⟨gap, hne, hgap, rfl, hrest⟩ := h
  obtain ⟨c, run, rfl⟩ := List.exists_cons_of_ne_nil hne
  have hbreak : ∀ x ∈ (c :: run ++ (word.toList ++ rest)).head?, isBlank x = true := by
    intro x hx
    obtain rfl : c = x := Option.some.inj hx
    exact isGap_of_spaces hgap c (by simp)
  rw [Token.split_bare_append isBare_system hbreak, Token.split_gap_append (isGap_of_spaces hgap),
    Token.split_bare_append hword hrest]

theorem Opens.tokenize_eq {text : String} {rest : List Char} {word : String}
    (h : Opens text.toList word rest) (hword : IsBare word.toList) :
    tokenize text = system :: word :: (split rest).map String.ofList := by
  rw [tokenize, h.split_eq hword]
  simp

theorem GoesOn.isBlank_head? {takesArguments : Bool} {rest : List Char}
    (h : GoesOn takesArguments rest) : ∀ c ∈ rest.head?, isBlank c = true := by
  cases takesArguments with
  | true => exact h
  | false =>
      intro c hc
      exact isGap_of_spaces h c (List.mem_of_mem_head? hc)

/-- What follows the match of a command has the tokens of what follows its word. -/
theorem split_afterWord {takesArguments : Bool} {a : Cursor} (h : GoesOn takesArguments a.rest) :
    split (a.afterWord takesArguments).rest = split a.rest := by
  cases takesArguments with
  | true =>
      cases hrest : a.rest with
      | nil => simp [Cursor.afterWord, hrest]
      | cons c cs =>
          have hc : isBlank c = true := h.isBlank_head? c (by simp [hrest])
          simp [Cursor.afterWord, hrest, Token.split_blank_cons hc]
  | false =>
      rw [Token.split_eq_nil_iff.mpr (isGap_of_spaces h)]
      rfl

/-! ## A pattern of the table finds its words -/

theorem leadsTo_command_iff {d : Definition} {a b : Cursor} :
    Remainder.LeadsTo [.whole (.command (words d.handler) (takesArguments d.handler))] a b ↔
      a.offset = 0 ∧ ∃ gap, ∃ word ∈ words d.handler, ∃ rest, gap ≠ [] ∧ (∀ c ∈ gap, c = ' ') ∧
        a.rest = system.toList ++ (gap ++ (word.toList ++ rest)) ∧
        GoesOn (takesArguments d.handler) rest ∧
        (a.skip (system.toList ++ gap ++ word.toList) rest).afterWord
          (takesArguments d.handler) = b :=
  Remainder.leadsTo_command (words_ne_nil d.handler)

/-- A match says how the text opens, and what follows it has the tokens after the word. -/
theorem opens_of_find? {d : Definition} (hd : d ∈ builtin.definitions) {text : String}
    {b : Cursor} (h : d.find? text = some b) :
    ∃ word ∈ words d.handler, ∃ rest, Opens text.toList word rest ∧
      GoesOn (takesArguments d.handler) rest ∧ split b.rest = split rest := by
  rw [find?_eq_command hd] at h
  have hlead := Pattern.leadsTo_of_find? (fun _ _ h => (leadsTo_command_iff.mp h).1) h
  obtain ⟨-, gap, word, hword, rest, hne, hgap, htext, hgoes, rfl⟩ :=
    leadsTo_command_iff.mp hlead
  exact ⟨word, hword, rest, ⟨gap, hne, hgap, htext, hgoes.isBlank_head?⟩, hgoes,
    split_afterWord hgoes⟩

/-- A text that opens with a word of a command is matched by its pattern. -/
theorem find?_isSome_of_opens {d : Definition} (hd : d ∈ builtin.definitions) {text : String}
    {word : String} {rest : List Char} (hword : word ∈ words d.handler)
    (h : Opens text.toList word rest) (hgoes : GoesOn (takesArguments d.handler) rest) :
    (d.find? text).isSome := by
  obtain ⟨gap, hne, hgap, htext, -⟩ := h
  rw [find?_eq_command hd]
  exact Pattern.find?_isSome_of_leadsTo (fun _ _ h => (leadsTo_command_iff.mp h).1)
    (leadsTo_command_iff.mpr ⟨rfl, gap, word, hword, rest, hne, hgap, htext, hgoes, rfl⟩)

/-- No text is matched by two patterns of the table. -/
theorem eq_of_find?_isSome {d d' : Definition} (hd : d ∈ builtin.definitions)
    (hd' : d' ∈ builtin.definitions) {text : String} (h : (d.find? text).isSome)
    (h' : (d'.find? text).isSome) : d = d' := by
  obtain ⟨b, hb⟩ := Option.isSome_iff_exists.mp h
  obtain ⟨b', hb'⟩ := Option.isSome_iff_exists.mp h'
  obtain ⟨word, hword, rest, hopens, -⟩ := opens_of_find? hd hb
  obtain ⟨word', hword', rest', hopens', -⟩ := opens_of_find? hd' hb'
  -- Both patterns stop at the second token of the text, so they have one word.
  have htokens := (hopens.tokenize_eq (isBare_of_mem_words hword)).symm.trans
    (hopens'.tokenize_eq (isBare_of_mem_words hword'))
  obtain rfl : word = word' := (List.cons.inj (List.cons.inj htokens).2).1
  exact eq_of_toDeclaration_eq hd hd'
    (eq_of_mem_words _ (mem_declarations hd) _ (mem_declarations hd') word hword hword')

/-! ## The same in tokens -/

theorem names_of_opens {line word : String} {rest : List Char} {command : Handler}
    (hword : word ∈ words command) (h : Opens line.toList word rest)
    (hgoes : GoesOn (takesArguments command) rest) :
    Names line command ((split rest).map String.ofList) := by
  have hbare := isBare_of_mem_words hword
  refine ⟨⟨word, hword, h.tokenize_eq hbare⟩, ?_, ?_⟩
  · obtain ⟨gap, -, hgap, htext, -⟩ := h
    refine ⟨gap, word.toList ++ rest, by rw [htext, List.append_assoc], hgap, ?_⟩
    intro c hc
    rw [List.head?_append_of_ne_nil _ hbare.1] at hc
    exact hbare.2.1 c (List.mem_of_mem_head? hc)
  · cases htakes : takesArguments command with
    | true => exact Or.inl rfl
    | false =>
        rw [htakes] at hgoes
        rw [Token.split_eq_nil_iff.mpr (isGap_of_spaces hgoes)]
        exact Or.inr rfl

/-- A trimmed line that names a command opens with one of its words. -/
theorem opens_of_names {line : String} {command : Handler} {args : List String}
    (hfirst : ∀ c ∈ line.toList.head?, isBlank c = false)
    (hlast : ∀ c ∈ line.toList.getLast?, isBlank c = false) (h : Names line command args) :
    ∃ word ∈ words command, ∃ rest, Opens line.toList word rest ∧
      GoesOn (takesArguments command) rest ∧ (split rest).map String.ofList = args := by
  obtain ⟨⟨word, hword, htokens⟩, ⟨gap, after, hline, hgap, hafter⟩, htakes⟩ := h
  have hsplit : split line.toList = system.toList :: word.toList :: args.map String.toList :=
    Token.tokenize_eq_iff.mp htokens
  have hbare := isBare_of_mem_words hword
  obtain ⟨behind, hbehind, hbreak, hmore⟩ :=
    Token.exists_eq_append_of_split hfirst isBare_system.2.2 hsplit
  rw [List.append_assoc] at hline
  obtain rfl : gap ++ after = behind := List.append_cancel_left (hline.symm.trans hbehind)
  rw [Token.split_gap_append (isGap_of_spaces hgap)] at hmore
  obtain ⟨rest, rfl, hrest, hts⟩ :=
    Token.exists_eq_append_of_split hafter hbare.2.2 hmore
  -- Without a space the word would go on the token before it.
  have hne : gap ≠ [] := by
    rintro rfl
    obtain ⟨c, t, hcons⟩ := List.exists_cons_of_ne_nil hbare.1
    have hblank : isBlank c = true := hbreak c (by simp [hcons])
    have hnot : isBlank c = false := hbare.2.1 c (by simp [hcons])
    exact absurd (hblank.symm.trans hnot) (by decide)
  refine ⟨word, hword, rest, ⟨gap, hne, hgap, hline, hrest⟩, ?_, by simp [hts]⟩
  cases hcommand : takesArguments command with
  | true => exact hrest
  | false =>
      have hnil : args = [] := htakes.resolve_left (by simp [hcommand])
      have hblank : IsGap rest := by
        rw [← Token.split_eq_nil_iff, hts, hnil, List.map_nil]
      -- Blanks at the end of the line would have been trimmed.
      intro c hc
      have hrestne : rest ≠ [] := List.ne_nil_of_mem hc
      have hend : line.toList.getLast? = some (rest.getLast hrestne) := by
        rw [hline, ← List.append_assoc, ← List.append_assoc,
          List.getLast?_append_of_ne_nil _ hrestne, List.getLast?_eq_some_getLast hrestne]
      have hnot : isBlank (rest.getLast hrestne) = false := hlast _ hend
      exact absurd ((hblank _ (List.getLast_mem hrestne)).symm.trans hnot) (by decide)

/-! ## Recognition -/

theorem names_of_recognize {line : String} {d : Definition} {a : Arguments}
    (h : builtin.recognize line = .ok (d, a)) :
    d ∈ builtin.definitions ∧ ∃ args, Names (Text.trim line) d.handler args ∧
      a = Arguments.parse d.flags args := by
  obtain ⟨place, hfirst, rfl⟩ := recognize_eq_ok_iff_found.mp h
  obtain ⟨hd, hfind⟩ := find?_of_firstMatch? hfirst
  obtain ⟨word, hword, rest, hopens, hgoes, hsplit⟩ := opens_of_find? hd hfind
  refine ⟨hd, _, names_of_opens hword hopens hgoes, ?_⟩
  rw [Definition.parseArguments, tokenize, String.toList_ofList, hsplit]

theorem find?_isSome_of_names {d : Definition} (hd : d ∈ builtin.definitions) {line : String}
    {args : List String} (h : Names (Text.trim line) d.handler args) :
    (d.find? (Text.trim line)).isSome := by
  have hchars : (Text.trim line).toList = Text.trimChars line.toList := String.toList_ofList
  obtain ⟨word, hword, rest, hopens, hgoes, -⟩ := opens_of_names
    (hchars ▸ Text.isBlank_head?_trimChars) (hchars ▸ Text.isBlank_getLast?_trimChars) h
  exact find?_isSome_of_opens hd hword hopens hgoes

/-- A line names one command of the table at most, and with one list of arguments. -/
theorem Names.unique {d d' : Definition} (hd : d ∈ builtin.definitions)
    (hd' : d' ∈ builtin.definitions) {line : String} {args args' : List String}
    (h : Names line d.handler args) (h' : Names line d'.handler args') :
    d = d' ∧ args = args' := by
  obtain ⟨⟨word, hword, htokens⟩, -⟩ := h
  obtain ⟨⟨word', hword', htokens'⟩, -⟩ := h'
  obtain ⟨rfl, rfl⟩ := List.cons.inj (List.cons.inj (htokens.symm.trans htokens')).2
  exact ⟨eq_of_toDeclaration_eq hd hd'
    (eq_of_mem_words _ (mem_declarations hd) _ (mem_declarations hd') word hword hword'), rfl⟩

theorem exists_recognize_of_names {d : Definition} (hd : d ∈ builtin.definitions) {line : String}
    {args : List String} (h : Names (Text.trim line) d.handler args) :
    ∃ found, builtin.recognize line = .ok found := by
  cases hrecognize : builtin.recognize line with
  | ok found => exact ⟨found, rfl⟩
  | error e =>
      have hnone := (recognize_eq_error_iff_unmatched.mp hrecognize).1 d hd
      exact absurd (find?_isSome_of_names hd h) (by simp [hnone])

theorem recognize_eq_ok_iff {line : String} {d : Definition} {a : Arguments} :
    builtin.recognize line = .ok (d, a) ↔
      d ∈ builtin.definitions ∧ ∃ args, Names (Text.trim line) d.handler args ∧
        a = Arguments.parse d.flags args := by
  refine ⟨names_of_recognize, ?_⟩
  rintro ⟨hd, args, hnames, rfl⟩
  obtain ⟨⟨d', a'⟩, h⟩ := exists_recognize_of_names hd hnames
  obtain ⟨hd', args', hnames', rfl⟩ := names_of_recognize h
  obtain ⟨rfl, rfl⟩ := hnames.unique hd hd' hnames'
  exact h

theorem recognize_eq_error_iff {line : String} {e : Failure} :
    builtin.recognize line = .error e ↔
      (∀ command args, ¬ Names (Text.trim line) command args) ∧
        e = .unrecognized (Text.trim line) := by
  constructor
  · intro h
    refine ⟨fun command args hnames => ?_, (recognize_eq_error_iff_unmatched.mp h).2⟩
    obtain ⟨d, hd, rfl⟩ := exists_mem_builtin command
    obtain ⟨found, hfound⟩ := exists_recognize_of_names hd hnames
    cases hfound.symm.trans h
  · rintro ⟨hnot, rfl⟩
    cases h : builtin.recognize line with
    | ok found =>
        obtain ⟨-, args, hnames, -⟩ := names_of_recognize h
        exact absurd hnames (hnot _ args)
    | error e => rw [(recognize_eq_error_iff_unmatched.mp h).2]

theorem length_filter_matchEnd?_le_one (text : String) :
    (builtin.definitions.filter fun d => (d.matchEnd? text).isSome).length ≤ 1 := by
  have hnodup : (builtin.definitions.filter fun d => (d.matchEnd? text).isSome).Nodup :=
    (List.Nodup.of_map _ builtin.distinct).filter _
  have hsame : ∀ d ∈ builtin.definitions.filter fun d => (d.matchEnd? text).isSome,
      ∀ d' ∈ builtin.definitions.filter fun d => (d.matchEnd? text).isSome, d = d' := by
    intro d hd d' hd'
    simp only [List.mem_filter, Definition.matchEnd?, Option.isSome_map] at hd hd'
    exact eq_of_find?_isSome hd.1 hd'.1 hd.2 hd'.2
  generalize builtin.definitions.filter (fun d => (d.matchEnd? text).isSome) = found
    at hnodup hsame ⊢
  match found with
  | [] => exact Nat.zero_le 1
  | [_] => exact le_rfl
  | d :: d' :: more =>
      obtain rfl : d = d' := hsame d (by simp) d' (by simp)
      exact absurd hnodup (by simp)

/-- **The table recognizes exactly its vocabulary.** A line is recognized if and only if its
tokens name a command, and then the command and its arguments are those named. Any other line is
told back, trimmed. No text, trimmed or not, is matched by two patterns, so every order of the
table compiles and recognizes the same. -/
theorem recognize_builtin_exact :
    (∀ line d a, builtin.recognize line = .ok (d, a) ↔
      d ∈ builtin.definitions ∧ ∃ args, Names (Text.trim line) d.handler args ∧
        a = Arguments.parse d.flags args) ∧
    (∀ line e, builtin.recognize line = .error e ↔
      (∀ command args, ¬ Names (Text.trim line) command args) ∧
        e = .unrecognized (Text.trim line)) ∧
    (∀ line, (Failure.unrecognized line).kind = .unrecognizedCommand ∧
      (Failure.unrecognized line).message = ⟨.commandNotSupported, .singleton "command" line⟩) ∧
    (∀ text, (builtin.definitions.filter fun d => (d.matchEnd? text).isSome).length ≤ 1) ∧
    (∀ table, table.Perm declarations →
      ∃ r, compile table = .ok r ∧ ∀ line, r.recognize line = builtin.recognize line) := by
  refine ⟨fun _ _ _ => recognize_eq_ok_iff, fun _ _ => recognize_eq_error_iff,
    fun _ => ⟨rfl, rfl⟩, length_filter_matchEnd?_le_one, fun table htable => ?_⟩
  rw [← declared_builtin] at htable
  obtain ⟨r, hcompile, hperm⟩ := exists_compileWith_of_perm htable isReadBy_builtin
  exact ⟨r, hcompile, fun line => recognize_eq_of_perm hperm fun _ hd _ hd' =>
    eq_of_find?_isSome hd hd'⟩

theorem recognize_builtin_exact_reversed :
    declarations.reverse.Perm declarations ∧
      ∃ r, compile declarations.reverse = .ok r ∧
        r.recognize "hg st" = builtin.recognize "hg st" := by
  obtain ⟨r, hcompile, hsame⟩ :=
    recognize_builtin_exact.2.2.2.2 declarations.reverse (List.reverse_perm _)
  exact ⟨List.reverse_perm _, r, hcompile, hsame "hg st"⟩

end HgToGit.Registry
