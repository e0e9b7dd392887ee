/-
# HgToGit.Proofs.Rendering -- the written form of a command keeps its words

A canonical command is written with single spaces between its words, whatever the words are. Read
back as tokens, the text has these words exactly if no quoted run without end stands before another
word (`Registry.tokenize_commandLine_iff`).

The handlers reorder, merge and rewrite the words of a line, but they make none of another kind:
whatever holds of the tokens of a line and is kept by moving a revision from the dot to the head
holds of every word of the outcome (`Handler.Delegates.allWords`). It is used twice, for what every
token is and for tokens that are complete.
-/
import HgToGit.Proofs.ArgumentGroups
import HgToGit.Proofs.Delegation
import HgToGit.Proofs.DotRevision
import HgToGit.Proofs.Recognition
import HgToGit.Proofs.TokenComposition

namespace HgToGit

open HgToGit.Token (IsBare IsComplete IsUnterminated tokenize)

/-! ## Words that handlers keep -/

/-- All flags and all arguments of a line have a property. -/
structure Invocation.AllWords (P : String → Prop) (inv : Invocation) : Prop where
  option : ∀ flag args, inv.options.get? flag = some args → P flag ∧ ∀ arg ∈ args, P arg
  general : ∀ arg ∈ inv.general, P arg

namespace Invocation.AllWords

variable {P : String → Prop} {inv : Invocation}

theorem dropOption (h : AllWords P inv) (flag : String) : AllWords P (inv.dropOption flag) := by
  refine ⟨?_, h.general⟩
  intro flag' args hargs
  have hget : (inv.options.erase flag).get? flag' = some args := hargs
  rw [TextMap.get?_erase] at hget
  split at hget
  · cases hget
  · exact h.option flag' args hget

theorem setOption (h : AllWords P inv) {flag : String} {args : List String} (hflag : P flag)
    (hargs : ∀ arg ∈ args, P arg) : AllWords P (inv.setOption flag args) := by
  refine ⟨?_, h.general⟩
  intro flag' args' hargs'
  have hget : (inv.options.insert flag args).get? flag' = some args' := hargs'
  rw [TextMap.get?_insert] at hget
  split at hget
  · rename_i heq
    cases hget
    exact ⟨heq ▸ hflag, hargs⟩
  · exact h.option flag' args' hget

theorem setGeneral (h : AllWords P inv) {args : List String} (hargs : ∀ arg ∈ args, P arg) :
    AllWords P (inv.setGeneral args) :=
  ⟨h.option, hargs⟩

theorem warn (h : AllWords P inv) (m : Message) : AllWords P (inv.warn m) := ⟨h.option, h.general⟩

theorem singleton {flag : String} {args : List String} (hflag : P flag)
    (hargs : ∀ arg ∈ args, P arg) :
    AllWords P ((inv.setOptions (.singleton flag args)).setGeneral []) := by
  refine ⟨?_, by simp [Invocation.setGeneral]⟩
  intro flag' args' hargs'
  have hget : (TextMap.empty.insert flag args).get? flag' = some args' := hargs'
  rw [TextMap.get?_insert, TextMap.get?_empty] at hget
  split at hget
  · rename_i heq
    cases hget
    exact ⟨heq ▸ hflag, hargs⟩
  · cases hget

theorem resolveDots (h : AllWords P inv) (hresolve : ∀ arg, P arg → P (Revision.resolve arg)) :
    AllWords P inv.resolveDots := by
  have hall : ∀ args : List String, (∀ arg ∈ args, P arg) →
      ∀ arg ∈ args.map Revision.resolve, P arg := by
    intro args hargs arg harg
    obtain ⟨arg', harg', rfl⟩ := List.mem_map.mp harg
    exact hresolve arg' (hargs arg' harg')
  refine ⟨?_, hall _ h.general⟩
  intro flag args hargs
  have hget : (inv.options.mapValues (List.map Revision.resolve)).get? flag = some args := hargs
  rw [TextMap.get?_mapValues, Option.map_eq_some_iff] at hget
  obtain ⟨args', hargs', rfl⟩ := hget
  exact ⟨(h.option flag args' hargs').1, hall _ (h.option flag args' hargs').2⟩

/-- The flags and arguments of a line are tokens of it. -/
theorem ofTokens {known tokens : List String} (h : ∀ token ∈ tokens, P token) (name : String) :
    AllWords P (.ofArguments name (Arguments.parse known tokens)) := by
  constructor
  · intro flag args hargs
    have hget : (Arguments.parse known tokens).options.get? flag = some args := hargs
    rw [Arguments.get?_parse] at hget
    split at hget
    · rename_i hgiven
      cases hget
      exact ⟨h flag hgiven.2, fun arg harg => h arg (Arguments.mem_of_mem_absorbed harg)⟩
    · cases hget
  · intro arg harg
    have hmem : arg ∈ (Arguments.parse known tokens).general := harg
    rw [Arguments.general_parse] at hmem
    exact h arg ((List.takeWhile_prefix _).subset hmem)

end Invocation.AllWords

namespace Handler

/-- The flags that handlers put on a line. -/
def ownFlags : List String := ["-m", "-D", "-b", "-i"]

/-- **A handler makes no word of its own** but its flags and revisions at the head. -/
theorem Delegates.allWords {P : String → Prop} {h : Handler} {inv line : Invocation}
    {command : Canonical} (hd : h.Delegates inv command line) (hinv : inv.AllWords P)
    (hflags : ∀ flag ∈ ownFlags, P flag) (hresolve : ∀ arg, P arg → P (Revision.resolve arg)) :
    line.AllWords P := by
  have hnil : ∀ arg ∈ ([] : List String), P arg := by simp
  cases hd with
  | commit | bookmarkListed | update | backout | pull | summary => exact hinv
  | commitAdding => exact (hinv.dropOption "-A").warn _
  | exportCommits => exact hinv.resolveDots hresolve
  | graft hrevisions =>
      exact (hinv.dropOption "-r").setGeneral (hinv.option _ _ hrevisions).2
  | graftIgnoring hrevisions =>
      exact ((hinv.warn _).dropOption "-r").setGeneral (hinv.option _ _ hrevisions).2
  | log _ hrevisions =>
      exact ((hinv.dropOption "-f").setGeneral (hinv.option _ _ hrevisions).2).resolveDots hresolve
  | bookmarkRenamed hnames =>
      refine (hinv.setOption (hflags "-m" (by decide)) ?_).setGeneral hnil
      intro arg harg
      rcases List.mem_append.mp harg with harg | harg
      · exact (hinv.option _ _ hnames).2 arg harg
      · exact hinv.general arg harg
  | bookmarkDeleted _ hnames =>
      exact (hinv.dropOption "-d").setOption (hflags "-D" (by decide)) (hinv.option _ _ hnames).2
  | @bookmarkPlaced values revision name _ _ hvalues hboth =>
      have hall : ∀ arg ∈ values ++ inv.general, P arg := by
        intro arg harg
        rcases List.mem_append.mp harg with harg | harg
        · exact (hinv.option _ _ hvalues).2 arg harg
        · exact hinv.general arg harg
      rw [hboth] at hall
      refine (hinv.dropOption "-r").setGeneral ?_
      intro arg harg
      exact hall arg (by simpa [or_comm] using harg)
  | @bookmarkHere name others _ _ _ hgeneral =>
      have hname : P name := hinv.general name (by simp [hgeneral])
      unfold Handler.bookmarkHere
      exact .singleton (hflags "-b" (by decide)) (by simpa using hname)
  | @histedit root hgeneral =>
      have hroot : P root := hinv.general root (by simp [hgeneral])
      exact .singleton (hflags "-i" (by decide)) (by simpa using hroot)

end Handler

/-! ## Words are tokens -/

namespace Revision

theorem isBare_head : IsBare head.toList := by
  decide

theorem isComplete_resolve {arg : String} (h : IsComplete arg.toList) :
    IsComplete (resolve arg).toList := by
  rcases resolve_eq_self_or arg with hself | ⟨suffix, harg, hresolved⟩
  · rw [hself]
    exact h
  · rw [harg] at h
    rcases h with ⟨-, hblank, -⟩ | ⟨q, inner, tail, heq, hquote, -, -⟩
    · rw [hresolved]
      refine Or.inl ⟨by simp [head], ?_, ?_⟩
      · intro c hc
        rcases List.mem_append.mp hc with hc | hc
        · exact isBare_head.2.1 c hc
        · exact hblank c (List.mem_cons_of_mem _ hc)
      · intro c hc
        obtain rfl : 'H' = c := Option.some.inj hc
        decide
    · -- A quote is no dot.
      obtain rfl : '.' = q := (List.cons.inj heq).1
      exact absurd hquote (by decide)

theorem isToken_resolve {arg : String} (h : IsComplete arg.toList ∨ IsUnterminated arg.toList) :
    IsComplete (resolve arg).toList ∨ IsUnterminated (resolve arg).toList := by
  rcases h with h | h
  · exact Or.inl (isComplete_resolve h)
  · rcases resolve_eq_self_or arg with hself | ⟨suffix, harg, -⟩
    · rw [hself]
      exact Or.inr h
    · obtain ⟨q, inner, heq, hquote, -⟩ := h
      obtain rfl : '.' = q := (List.cons.inj (harg.symm.trans heq)).1
      exact absurd hquote (by decide)

end Revision

theorem Vcs.isComplete_text (vcs : Vcs) : IsComplete vcs.text.toList := by
  cases vcs
  exact Or.inl (by decide)

theorem Canonical.isComplete_text (command : Canonical) : IsComplete command.text.toList := by
  cases command <;> exact Or.inl (by decide)

theorem Handler.isComplete_ownFlags : ∀ flag ∈ Handler.ownFlags, IsComplete flag.toList := by
  have hbare : ∀ flag ∈ Handler.ownFlags, IsBare flag.toList := by decide
  exact fun flag hflag => Or.inl (hbare flag hflag)

/-- The words of an outcome have a property that the words of the line have. -/
theorem Outcome.forall_mem_words {P : String → Prop} {vcs : Vcs} {command : Canonical}
    {line : Invocation} (hvcs : P vcs.text) (hcommand : P command.text)
    (hline : line.AllWords P) :
    ∀ word ∈ vcs.text :: command.text ::
      (line.options.entries.flatMap fun e => e.1 :: e.2) ++ line.general, P word := by
  intro word hword
  simp only [List.cons_append, List.mem_cons, List.mem_append, List.mem_flatMap] at hword
  rcases hword with rfl | rfl | ⟨⟨flag, args⟩, hentry, hword⟩ | hword
  · exact hvcs
  · exact hcommand
  · obtain ⟨hflag, hargs⟩ := hline.option flag args (TextMap.get?_eq_some_iff.mpr hentry)
    rcases hword with rfl | hword
    · exact hflag
    · exact hargs word hword
  · exact hline.general word hword

/-! ## Written commands -/

namespace Registry

/-- The tokens of a line that are its arguments: those of the text after the match. -/
def argumentTokens (r : Registry) (line : String) : List String :=
  match r.firstMatch? (Text.trim line) with
  | some (_, place) => tokenize (String.ofList place.rest)
  | none => []

theorem parse_argumentTokens_of_recognize {r : Registry} {line : String} {d : Definition}
    {a : Arguments} (h : r.recognize line = .ok (d, a)) :
    a = Arguments.parse d.flags (r.argumentTokens line) := by
  obtain ⟨place, hfirst, rfl⟩ := recognize_eq_ok_iff_found.mp h
  rw [argumentTokens, hfirst]
  rfl

theorem isToken_of_mem_argumentTokens {r : Registry} {line token : String}
    (h : token ∈ r.argumentTokens line) :
    IsComplete token.toList ∨ IsUnterminated token.toList := by
  unfold argumentTokens at h
  split at h
  · exact Token.isToken_of_mem_tokenize h
  · simp at h

/-- In a line of the table the arguments are tokens of the line. -/
theorem exists_tokens_of_recognize {line : String} {d : Definition} {a : Arguments}
    (h : builtin.recognize line = .ok (d, a)) :
    ∃ args, a = Arguments.parse d.flags args ∧ ∀ arg ∈ args, arg ∈ tokenize (Text.trim line) := by
  obtain ⟨-, args, ⟨⟨word, -, htokens⟩, -⟩, hparse⟩ := names_of_recognize h
  refine ⟨args, hparse, ?_⟩
  intro arg harg
  rw [htokens]
  exact List.mem_cons_of_mem _ (List.mem_cons_of_mem _ harg)

theorem not_isUnterminated_of_mem_tokenize_trim {line : String}
    (h : ∀ token ∈ tokenize line, ¬ IsUnterminated token.toList) :
    ∀ token ∈ tokenize (Text.trim line), ¬ IsUnterminated token.toList := by
  have hchars : ∀ t ∈ Token.split line.toList, ¬ IsUnterminated t := by
    intro t ht
    have htoken := h (String.ofList t) (List.mem_map_of_mem ht)
    rwa [String.toList_ofList] at htoken
  intro token htoken
  obtain ⟨t, ht, rfl⟩ := List.mem_map.mp htoken
  rw [String.toList_ofList]
  apply Text.not_isUnterminated_of_mem_split_trimChars hchars
  rwa [Text.trim, String.toList_ofList] at ht

/-- **The written form of a command keeps its words.** A line that becomes a canonical command is
written as the words of the command with single spaces between them: the system, the command, each
flag in order and its arguments, and the general arguments. Read back, the text has these words if
and only if no quoted run without end stands before another word. So it has them whenever the
arguments of the line have every quoted run closed, and, for the known commands, whenever the line
has. -/
theorem tokenize_commandLine_iff {r : Registry} {line : String} {engine : Engine} {c : Conversion}
    {vcs : Vcs} {command : Canonical} {options : Options} {general : List String}
    (h : (r.convert line engine).1 = .ok c)
    (hout : c.outcome = .delegated vcs command options general) :
    let words := vcs.text :: command.text ::
      (options.entries.flatMap fun e => e.1 :: e.2) ++ general
    ∃ text, c.commandLine? = some text ∧
      (tokenize text = words ↔ ∀ word ∈ words.dropLast, ¬ IsUnterminated word.toList) ∧
      ((∀ token ∈ r.argumentTokens line, ¬ IsUnterminated token.toList) →
        tokenize text = words) ∧
      (r = builtin → (∀ token ∈ tokenize line, ¬ IsUnterminated token.toList) →
        tokenize text = words) := by
  obtain ⟨d, a, line', hrecognize, -, -, hd, rfl, rfl, -⟩ := delegates_of_convert h hout
  intro words
  have hparse := parse_argumentTokens_of_recognize hrecognize
  have hresult : c.commandLine? = some (Token.join words) := by
    rw [Conversion.commandLine?, hout]
    rfl
  -- Every word is a token, because the tokens of the line are.
  have hwords : ∀ word ∈ words, IsComplete word.toList ∨ IsUnterminated word.toList := by
    refine Outcome.forall_mem_words (Or.inl vcs.isComplete_text)
      (Or.inl command.isComplete_text) (hd.allWords ?_ ?_ fun _ => Revision.isToken_resolve)
    · rw [hparse]
      exact .ofTokens (fun _ => isToken_of_mem_argumentTokens) _
    · exact fun flag hflag => Or.inl (Handler.isComplete_ownFlags flag hflag)
  have hread := Token.tokenize_join_iff hwords
  -- If the line's tokens are complete, then so are the words.
  have hclosed : ∀ tokens, a = Arguments.parse d.flags tokens →
      (∀ token ∈ tokens, IsComplete token.toList) → Token.tokenize (Token.join words) = words := by
    intro tokens htokens hcomplete
    rw [hread]
    intro word hword
    have hall : ∀ word ∈ words, IsComplete word.toList := by
      refine Outcome.forall_mem_words vcs.isComplete_text command.isComplete_text
        (hd.allWords ?_ Handler.isComplete_ownFlags fun _ => Revision.isComplete_resolve)
      rw [htokens]
      exact .ofTokens hcomplete _
    exact (hall word (List.dropLast_subset _ hword)).not_isUnterminated
  refine ⟨Token.join words, hresult, hread, ?_, ?_⟩
  · intro hnot
    refine hclosed _ hparse ?_
    intro token htoken
    exact (isToken_of_mem_argumentTokens htoken).resolve_right (hnot token htoken)
  · rintro rfl hnot
    obtain ⟨args, hargs, hmem⟩ := exists_tokens_of_recognize hrecognize
    refine hclosed args hargs ?_
    intro arg harg
    exact (Token.isToken_of_mem_tokenize (hmem arg harg)).resolve_right
      (not_isUnterminated_of_mem_tokenize_trim hnot arg (hmem arg harg))

/-- A bookmark name whose quote is never closed is moved in front of the revision, and read back it
takes the revision in. -/
theorem tokenize_commandLine_iff_moved_quote :
    ∃ c, (builtin.convert "hg book -r C1 'a b" .new).1 = .ok c ∧
      c.outcome = .delegated .git .branch .empty ["'a b", "C1"] ∧
      ∃ text, c.commandLine? = some text ∧ tokenize text ≠ ["git", "branch", "'a b", "C1"] := by
  have hresult : (builtin.convert "hg book -r C1 'a b" .new).1.toOption.map (·.outcome) =
      some (.delegated .git .branch .empty ["'a b", "C1"]) := by
    decide +kernel
  obtain ⟨c, hconvert, hout⟩ := Handler.exists_of_toOption_map_eq_some hresult
  obtain ⟨text, htext, hread, -⟩ := tokenize_commandLine_iff hconvert hout
  refine ⟨c, hconvert, hout, text, htext, ?_⟩
  intro hsame
  have hopen : IsUnterminated "'a b".toList := ⟨'\x27', "a b".toList, by decide⟩
  exact hread.mp hsame "'a b" (by decide) hopen

end Registry

end HgToGit
