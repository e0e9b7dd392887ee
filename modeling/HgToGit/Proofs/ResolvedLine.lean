/-
# HgToGit.Proofs.ResolvedLine -- lines with their dots resolved beforehand

Three of the handlers resolve the dots of a line, in its flags and in its general arguments, after the
line has been sorted. It could be done before: a line whose tokens have been resolved where they stand
has the same fate (`Registry.dots_resolved`). What the other handlers hand on stands on the line as it
is.

That there is such a line is shown on its division. A token that is resolved is a token again, because
the head is no quote and has no blank in it, and the blanks around it are left alone. So the
line names the command that it named before, with the resolved arguments.
-/
import HgToGit.Proofs.Accounting
import HgToGit.Proofs.Effect
import HgToGit.Proofs.QuotedArgument
import HgToGit.Proofs.Rendering
import HgToGit.Proofs.Rewording
import HgToGit.Proofs.TokenDivision

namespace HgToGit

open HgToGit.Text (isBlank)
open HgToGit.Token (Separates partsText tokenize)
open Revision (Resolves resolve)

/-! ## Tokens that change where they stand -/

namespace Token

/-- A change of tokens that does not change where they end. -/
structure InPlace (f : List Char → List Char) : Prop where
  /-- A complete token stays one. -/
  complete : ∀ {t}, IsComplete t → IsComplete (f t)
  /-- A quoted run without end is kept. -/
  unterminated : ∀ {t}, IsUnterminated t → f t = t

variable {f : List Char → List Char} {parts : List (List Char × List Char)}

theorem Separates.map (hf : InPlace f) (h : Separates parts) :
    Separates (parts.map (Prod.map f id)) := by
  refine ⟨?_, ?_, ?_⟩
  · intro changed hmem
    obtain ⟨part, hpart, rfl⟩ := List.mem_map.mp hmem
    exact h.isGap part hpart
  · intro changed hmem
    rw [← List.map_dropLast] at hmem
    obtain ⟨part, hpart, rfl⟩ := List.mem_map.mp hmem
    exact (h.separated part hpart).imp_left hf.complete
  · intro changed hmem
    rw [List.getLast?_map] at hmem
    obtain ⟨part, hpart, rfl⟩ := Option.map_eq_some_iff.mp hmem
    rcases h.ended part hpart with ht | ⟨ht, hnone⟩
    · exact Or.inl (hf.complete ht)
    · refine Or.inr ⟨?_, hnone⟩
      show IsUnterminated (f part.1)
      rwa [hf.unterminated ht]

/-- A text that does not end with a blank still does not. -/
theorem Separates.isBlank_getLast?_map (hf : InPlace f) (h : Separates parts)
    (hlast : ∀ c ∈ (partsText parts).getLast?, isBlank c = false) :
    ∀ c ∈ (partsText (parts.map (Prod.map f id))).getLast?, isBlank c = false := by
  induction parts with
  | nil => exact hlast
  | cons part parts ih =>
      obtain ⟨t, w⟩ := part
      cases parts with
      | nil =>
          have hw : w = [] := by
            by_contra hne
            obtain ⟨c, hc⟩ := Option.isSome_iff_exists.mp (List.getLast?_isSome.mpr hne)
            have hblank : isBlank c = true :=
              h.isGap (t, w) List.mem_cons_self c (List.mem_of_getLast? hc)
            have hnot : isBlank c = false := by
              apply hlast
              simp [partsText, List.getLast?_append_of_ne_nil _ hne, hc]
            exact absurd (hblank.symm.trans hnot) (by decide)
          subst hw
          simp only [partsText, List.map_cons, List.map_nil, List.flatMap_singleton, Prod.map, id,
            List.append_nil] at hlast ⊢
          rcases h.isToken with ht | ht
          · exact (hf.complete ht).isBlank_getLast?
          · rwa [hf.unterminated ht]
      | cons next parts =>
          have hne := h.tail.partsText_ne_nil
          have hne' : partsText ((next :: parts).map (Prod.map f id)) ≠ [] :=
            (h.map hf).tail.partsText_ne_nil
          rw [partsText_cons, List.getLast?_append_of_ne_nil _ hne] at hlast
          rw [List.map_cons, partsText_cons, List.getLast?_append_of_ne_nil _ hne']
          exact ih h.tail hlast

/-- A text that begins with a token is the token, blanks, and the other tokens. -/
theorem exists_parts_of_tokenize {line token : String} {tokens : List String}
    (hfirst : ∀ c ∈ line.toList.head?, isBlank c = false) (h : tokenize line = token :: tokens) :
    ∃ w parts, Separates ((token.toList, w) :: parts) ∧
      line.toList = partsText ((token.toList, w) :: parts) ∧
      parts.map Prod.fst = tokens.map String.toList := by
  obtain ⟨d, hd⟩ := exists_division line.toList
  have htokens : d.tokens = (token :: tokens).map String.toList := by
    rw [← d.split_text, hd]
    exact tokenize_eq_iff.mp h
  have hlead : d.lead = [] := by
    cases hlead : d.lead with
    | nil => rfl
    | cons c lead =>
        have hblank : isBlank c = true := d.isGap_lead c (by simp [hlead])
        have hnot : isBlank c = false := hfirst c (by simp [← hd, Division.text, hlead])
        exact absurd (hblank.symm.trans hnot) (by decide)
  obtain ⟨⟨t, w⟩, parts, hparts, rfl, hmore⟩ := List.map_eq_cons_iff.mp htokens
  refine ⟨w, parts, hparts ▸ d.separates, ?_, hmore⟩
  rw [← hd, Division.text, hlead, hparts, List.nil_append]

end Token

/-! ## The line with resolved arguments -/

namespace Revision

/-- An argument resolved, as characters. -/
def resolveChars (t : List Char) : List Char := (resolve (String.ofList t)).toList

theorem inPlace_resolveChars : Token.InPlace resolveChars where
  complete := by
    intro t ht
    apply isComplete_resolve
    rwa [String.toList_ofList]
  unterminated := by
    rintro t ⟨q, inner, rfl, hq, -⟩
    have hquoted : Token.isQuoted (String.ofList (q :: inner)) = true := by
      simpa [Token.isQuoted] using hq
    rw [resolveChars, resolve_of_isQuoted hquoted, String.toList_ofList]

end Revision

namespace Registry

open Revision (resolveChars inPlace_resolveChars)

theorem spacesAfterSystem_partsText {w : List Char} {parts : List (List Char × List Char)}
    (h : Separates ((system.toList, w) :: parts)) {line : String}
    (hline : line.toList = partsText ((system.toList, w) :: parts)) :
    SpacesAfterSystem line ↔ ∀ c ∈ w, c = ' ' := by
  have htake : (w ++ partsText parts).takeWhile isBlank = w := by
    rw [Text.takeWhile_append_of_head? h.tail.isBlank_head?, List.takeWhile_eq_self_iff]
    exact h.isGap _ List.mem_cons_self
  rw [spacesAfterSystem_iff, hline, Token.partsText_cons, List.append_assoc]
  constructor
  · rintro ⟨behind, hbehind, hspaces⟩
    rwa [← List.append_cancel_left hbehind, htake] at hspaces
  · intro hspaces
    exact ⟨_, rfl, by rwa [htake]⟩

theorem resolve_of_mem_words {command : Handler} {word : String} (h : word ∈ words command) :
    resolve word = word := by
  have hall : ∀ word ∈ words command, resolve word = word := by
    cases command <;> decide
  exact hall word h

/-- For every line that names a command there is one that names it with the arguments resolved. -/
theorem exists_names_resolve {line : String} {command : Handler} {args : List String}
    (h : Names (Text.trim line) command args) :
    ∃ line', Names (Text.trim line') command (args.map resolve) := by
  obtain ⟨⟨word, hword, htokens⟩, hspaces, htakes⟩ := h
  have hchars : (Text.trim line).toList = Text.trimChars line.toList := String.toList_ofList
  obtain ⟨w, parts, hparts, htext, hmore⟩ :=
    Token.exists_parts_of_tokenize (hchars ▸ Text.isBlank_head?_trimChars) htokens
  have hlast : ∀ c ∈ (partsText ((system.toList, w) :: parts)).getLast?, isBlank c = false := by
    rw [← htext, hchars]
    exact Text.isBlank_getLast?_trimChars
  -- The first word is no revision, so only the parts behind it change.
  have hsystem : Prod.map resolveChars id (system.toList, w) = (system.toList, w) := by
    have hkept : resolveChars system.toList = system.toList := by decide
    rw [Prod.map_apply, hkept, id]
  have hparts' := hparts.map inPlace_resolveChars
  have hlast' := hparts.isBlank_getLast?_map inPlace_resolveChars hlast
  rw [List.map_cons, hsystem] at hparts' hlast'
  let changed := parts.map (Prod.map resolveChars id)
  let line' := String.ofList (partsText ((system.toList, w) :: changed))
  have hline' : line'.toList = partsText ((system.toList, w) :: changed) := String.toList_ofList
  have htrim : Text.trim line' = line' := by
    rw [Text.trim, hline', Text.trimChars_eq_self hparts'.isBlank_head? hlast']
  have htokens' : tokenize line' = system :: word :: args.map resolve := by
    have hchanged : changed.map Prod.fst = (parts.map Prod.fst).map resolveChars := by
      simp [changed]
    rw [tokenize, hline', hparts'.split_partsText, List.map_cons, hchanged, hmore]
    simp [resolveChars, resolve_of_mem_words hword]
  refine ⟨line', ?_⟩
  rw [htrim]
  refine ⟨⟨word, hword, htokens'⟩, ?_, htakes.imp_right fun hnone => by rw [hnone, List.map_nil]⟩
  rw [spacesAfterSystem_partsText hparts' hline']
  exact (spacesAfterSystem_partsText hparts htext).mp hspaces

end Registry

/-! ## Handlers that resolve dots -/

namespace Handler

/-- Whether a handler resolves the dots of its lines. -/
def resolvesDots : Handler → Bool
  | exportCommits | log | rebase => true
  | _ => false

theorem logLine_resolveDots (inv : Invocation) : logLine inv.resolveDots = logLine inv := by
  have hgeneral : inv.resolveDots.refuseGeneral = inv.refuseGeneral := by
    simp [Invocation.refuseGeneral, Invocation.resolveDots]
  rw [logLine, logLine, hgeneral, Invocation.get?_resolveDots]
  cases inv.refuseGeneral with
  | error e => rfl
  | ok =>
      cases inv.options.get? "-f" with
      | none => rfl
      | some revisions =>
          exact congrArg Except.ok (inv.resolveDots_setGeneral_dropOption "-f" revisions)

theorem rebaseCall_resolveDots (inv : Invocation) :
    rebaseCall inv.resolveDots = rebaseCall inv := by
  have hflags : checkRebaseFlags inv.resolveDots = checkRebaseFlags inv := by
    simp only [checkRebaseFlags, Invocation.hasOption_resolveDots]
  rw [rebaseCall, rebaseCall, hflags, Invocation.optionArgs_resolveDots,
    Invocation.optionArgs_resolveDots]
  cases checkRebaseFlags inv with
  | error e => rfl
  | ok =>
      match inv.optionArgs "-d", inv.optionArgs "-b" with
      | [], _ => rfl
      | [_], [] => simp [Revision.resolve_resolve]
      | [_], [_] => simp [Revision.resolve_resolve]
      | [_], _ :: _ :: _ => rfl
      | _ :: _ :: _, _ => rfl

end Handler

namespace Conversion

variable {d : Definition}

/-- A handler that resolves dots makes the same of a line whose dots have been resolved. -/
theorem ofArguments_parse_resolve (hdots : d.handler.resolvesDots = true)
    (hflags : ∀ flag ∈ d.flags, flag.toList.head? = some '-') (args : List String)
    (engine : Engine) :
    ofArguments d (.parse d.flags (args.map resolve)) engine =
      ofArguments d (.parse d.flags args) engine := by
  rw [ofArguments, ofArguments, Invocation.ofArguments_parse_resolve hflags]
  generalize Invocation.ofArguments d.name (.parse d.flags args) = inv
  cases hhandler : d.handler <;> rw [hhandler] at hdots
  case exportCommits =>
    simp only [Handler.resolve, Invocation.resolveDots_resolveDots]
  case log =>
    simp only [Handler.resolve, Handler.logLine_resolveDots]
  case rebase =>
    simp only [Handler.resolve, Handler.rebaseCall_resolveDots]
    cases Handler.rebaseCall inv <;> rfl
  all_goals cases hdots

end Conversion

namespace Registry

theorem head?_of_mem_flags :
    ∀ d ∈ declarations, ∀ flag ∈ d.flags, flag.toList.head? = some '-' := by
  decide

end Registry

namespace Handler

variable {inv line : Invocation} {command : Canonical} {h : Handler}

/-- What a handler hands on that resolves dots is resolved. -/
theorem Delegates.avoidsDot (hdots : h.resolvesDots = true) (hd : h.Delegates inv command line) :
    ∀ arg ∈ line.arguments, Revision.AvoidsDot arg := by
  cases hd with
  | exportCommits | log => exact fun _ => avoidsDot_of_mem_resolveDots
  | _ => cases hdots

theorem rewriting_eq_id (hdots : h.resolvesDots = false) : h.rewriting = id := by
  cases h with
  | exportCommits | log => cases hdots
  | _ => rfl

/-- What another handler hands on are arguments of the line as they are. -/
theorem Delegates.arguments_subperm {d : Declaration} (hd : d ∈ Registry.declarations)
    (hknown : ∀ flag, inv.options.get? flag ≠ none → flag ∈ d.flags)
    (hdots : d.handler.resolvesDots = false) (h : d.handler.Delegates inv command line) :
    line.arguments.Subperm inv.arguments := by
  have hbalance := h.accounts hd hknown
  rw [rewriting_eq_id hdots, List.map_id] at hbalance
  exact (List.sublist_append_left _ _).subperm.trans hbalance.symm.subperm

end Handler

namespace Registry

/-- What a line that names a command hands on comes from the arguments named. -/
theorem delegates_of_names {line : String} {handler : Handler} {args : List String}
    {engine : Engine} {c : Conversion} {vcs : Vcs} {command : Canonical} {options : Options}
    {general : List String} (h : Names (Text.trim line) handler args)
    (hc : (builtin.convert line engine).1 = .ok c)
    (hout : c.outcome = .delegated vcs command options general) :
    ∃ d ∈ builtin.definitions, d.handler = handler ∧ ∃ line',
      d.handler.Delegates (.ofArguments d.name (.parse d.flags args)) command line' ∧
        line'.arguments = TextMap.arguments options ++ general := by
  obtain ⟨d, a, line', hrecognize, -, -, hd, rfl, rfl, -⟩ := delegates_of_convert hc hout
  obtain ⟨hmem, args', hnames, rfl⟩ := names_of_recognize hrecognize
  obtain ⟨d', hd', rfl⟩ := exists_mem_builtin handler
  obtain ⟨rfl, rfl⟩ := hnames.unique hmem hd' h
  exact ⟨d, hmem, rfl, line', hd, rfl⟩

theorem convert_of_names {d : Definition} (hd : d ∈ builtin.definitions) {line : String}
    {args : List String} (h : Names (Text.trim line) d.handler args) (engine : Engine) :
    builtin.convert line engine = Conversion.ofArguments d (.parse d.flags args) engine :=
  convert_of_recognize (recognize_eq_ok_iff.mpr ⟨hd, args, h, rfl⟩) engine

/-- **Dots are resolved where they should be, and nowhere else.** A line of a command that resolves dots
has the fate of every line that has its arguments already resolved, and there is one. Whatever becomes
of it, no argument at the dot is handed on, and no operation at the dot is asked for. A line of another
command hands on arguments as they stand on it, each at most as often. -/
theorem dots_resolved {line : String} {command : Handler} {args : List String}
    (h : Names (Text.trim line) command args) :
    (command.resolvesDots = true →
      (∃ args', List.Forall₂ Resolves args args' ∧
        (∃ line', Names (Text.trim line') command args') ∧
        ∀ line', Names (Text.trim line') command args' →
          ∀ engine, builtin.convert line' engine = builtin.convert line engine) ∧
      ∀ engine,
        (∀ c vcs canonical options general, (builtin.convert line engine).1 = .ok c →
          c.outcome = .delegated vcs canonical options general →
            ∀ arg ∈ TextMap.arguments options ++ general, Revision.AvoidsDot arg) ∧
        ∃ calls, (builtin.convert line engine).2.calls = engine.calls ++ calls ∧
          ∀ call ∈ calls, call.AvoidsDot) ∧
    (command.resolvesDots = false →
      ∀ engine c vcs canonical options general, (builtin.convert line engine).1 = .ok c →
        c.outcome = .delegated vcs canonical options general →
          (TextMap.arguments options ++ general).Subperm args) := by
  refine ⟨?_, ?_⟩
  · intro hdots
    refine ⟨⟨args.map resolve, Revision.forall₂_resolves_iff.mpr rfl, exists_names_resolve h, ?_⟩, ?_⟩
    · intro line' h' engine
      obtain ⟨d, hd, rfl⟩ := exists_mem_builtin command
      rw [convert_of_names hd h, convert_of_names hd h']
      exact Conversion.ofArguments_parse_resolve hdots (head?_of_mem_flags _ (mem_declarations hd))
        args engine
    · intro engine
      refine ⟨?_, exists_calls_avoidsDot builtin line engine⟩
      intro c vcs canonical options general hc hout
      obtain ⟨d, -, rfl, line', hdelegates, harguments⟩ := delegates_of_names h hc hout
      rw [← harguments]
      exact hdelegates.avoidsDot hdots
  · intro hdots engine c vcs canonical options general hc hout
    obtain ⟨d, hd, rfl, line', hdelegates, harguments⟩ := delegates_of_names h hc hout
    rw [← harguments]
    have hgiven : (Invocation.ofArguments d.name (.parse d.flags args)).arguments.Subperm args :=
      (Arguments.parse_perm d.flags args).subperm.trans List.filter_sublist.subperm
    exact (hdelegates.arguments_subperm (mem_declarations hd)
      (fun _ => Arguments.mem_known_of_get?_parse) hdots).trans hgiven

theorem names_of_handler {line : String} (word : String) {command : Handler} {args : List String}
    (h : (builtin.recognize line).toOption.map (·.1.handler) = some command)
    (htokens : tokenize (Text.trim line) = system :: word :: args) :
    Names (Text.trim line) command args := by
  obtain ⟨⟨d, a⟩, hrecognize, rfl⟩ := Handler.exists_of_toOption_map_eq_some h
  obtain ⟨-, args', hnames, -⟩ := names_of_recognize hrecognize
  obtain ⟨⟨word', -, htokens'⟩, -⟩ := id hnames
  obtain ⟨-, rfl⟩ := List.cons.inj (List.cons.inj (htokens.symm.trans htokens')).2
  exact hnames

/-- A rebase may be given its revisions at the dot or at the head, and a graft hands on the dot. -/
theorem dots_resolved_rebase_and_graft :
    (∀ engine, builtin.convert "hg rebase -d HEAD~2 -b HEAD" engine =
      builtin.convert "hg rebase -d .~2 -b ." engine) ∧
    (builtin.convert "hg graft -r ." .new).1.toOption.map (·.outcome) =
      some (.delegated .git .cherryPick .empty ["."]) ∧
    (TextMap.arguments .empty ++ ["."]).Subperm ["-r", "."] := by
  refine ⟨?_, ?_⟩
  · have hnames : Names (Text.trim "hg rebase -d .~2 -b .") .rebase ["-d", ".~2", "-b", "."] :=
      names_of_handler "rebase" (by decide +kernel) (by decide +kernel)
    have hnames' : Names (Text.trim "hg rebase -d HEAD~2 -b HEAD") .rebase
        ["-d", "HEAD~2", "-b", "HEAD"] :=
      names_of_handler "rebase" (by decide +kernel) (by decide +kernel)
    obtain ⟨⟨args', hargs', -, hsame⟩, -⟩ := (dots_resolved hnames).1 rfl
    obtain rfl : ["-d", "HEAD~2", "-b", "HEAD"] = args' := by
      rw [← Revision.forall₂_resolves_iff.mp hargs']
      decide
    exact hsame _ hnames'
  · have hnames : Names (Text.trim "hg graft -r .") .graft ["-r", "."] :=
      names_of_handler "graft" (by decide +kernel) (by decide +kernel)
    have hresult : (builtin.convert "hg graft -r ." .new).1.toOption.map (·.outcome) =
        some (.delegated .git .cherryPick .empty ["."]) := by decide +kernel
    obtain ⟨c, hconvert, hout⟩ := Handler.exists_of_toOption_map_eq_some hresult
    exact ⟨hresult, (dots_resolved hnames).2 rfl .new c _ _ _ _ hconvert hout⟩

end Registry

end HgToGit
