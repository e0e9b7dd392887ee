/-
# HgToGit.Proofs.RevisionLines -- lines that hand revisions on, by their tokens

`log`, `graft`, `histedit` and `export` hand the revisions on a line to a canonical command. Which of
them, and whether the line is refused, is said here by the tokens behind the command word, in a table
(`Registry.TokenRow`). There a flag has its place among the tokens and may stand there again: `log`
wants its flag in front, `graft` takes what stands behind its first one, and the other two know no
flag.

Every list of tokens is on a row (`Registry.exists_tokenRow`), and the row is what becomes of the line
(`Registry.comesTo_iff_tokenRow`). `Registry.convert_by_tokens` reads the rows command by command.
-/
import HgToGit.Proofs.Delegation
import HgToGit.Proofs.DotRevision
import HgToGit.Proofs.Recognition

namespace HgToGit

open Revision (Resolves)

namespace Handler

variable {inv : Invocation}

/-! ## The handlers -/

theorem resolve_log_of_general (h : inv.general ≠ []) :
    log.resolve inv = .error .generalRefused := by
  have hsome : inv.general.isEmpty = false := by simpa using h
  simp [resolve, delegate, logLine, Invocation.refuseGeneral, hsome, Except.map]

theorem resolve_log_of_get?_eq_none (hgeneral : inv.general = [])
    (hflag : inv.options.get? "-f" = none) : log.resolve inv = .error .followMissing := by
  simp [resolve, delegate, logLine, Invocation.refuseGeneral, hgeneral, hflag, Except.map]

theorem resolve_log_of_get? {revisions : List String} (hgeneral : inv.general = [])
    (hflag : inv.options.get? "-f" = some revisions) :
    log.resolve inv =
      .ok (.delegated .log ((inv.dropOption "-f").setGeneral revisions).resolveDots) := by
  simp [resolve, delegate, logLine, Invocation.refuseGeneral, hgeneral, hflag, Except.map]

theorem resolve_graft_of_optionArgs_eq_nil (h : inv.optionArgs "-r" = []) :
    graft.resolve inv = .error (.optionRequired "-r" "graft") := by
  simp only [resolve, delegate, graftLine, h, Except.map]

/-- A graft hands on the revisions of its flag, whatever it says about others. -/
theorem resolve_graft_of_optionArgs_ne_nil (h : inv.optionArgs "-r" ≠ []) :
    ∃ line, graft.resolve inv = .ok (.delegated .cherryPick line) ∧
      line.options = inv.options.erase "-r" ∧ line.general = inv.optionArgs "-r" := by
  have hline : ∃ line, graftLine inv = .ok line ∧ line.options = inv.options.erase "-r" ∧
      line.general = inv.optionArgs "-r" := by
    unfold graftLine
    split
    · exact absurd ‹_› h
    · refine ⟨_, rfl, ?_, rfl⟩
      split <;> rfl
  obtain ⟨line, hline, hparts⟩ := hline
  refine ⟨line, ?_, hparts⟩
  rw [resolve, hline]
  rfl

theorem resolve_histedit_of_singleton {root : String} (h : inv.general = [root]) :
    histedit.resolve inv =
      .ok (.delegated .rebase ((inv.setOptions (.singleton "-i" [root])).setGeneral [])) := by
  simp [resolve, delegate, histeditLine, Invocation.checkGeneral, Failure.checkBounds, h,
    Except.map]

theorem resolve_histedit_of_nil (h : inv.general = []) :
    histedit.resolve inv = .error (.tooFew 1 inv.generalPhrase) := by
  simp [resolve, delegate, histeditLine, Invocation.checkGeneral, Failure.checkBounds, h,
    Except.map]

theorem resolve_histedit_of_length (h : 1 < inv.general.length) :
    histedit.resolve inv = .error (.tooMany 1 inv.generalPhrase) := by
  have hsome : ¬ inv.general.length < 1 := by omega
  simp only [resolve, delegate, histeditLine, Invocation.checkGeneral, Failure.checkBounds,
    if_neg hsome, if_pos h, Except.map]

end Handler

namespace Registry

/-! ## The table -/

/-- The rows of the table, by the tokens behind the command word. -/
inductive TokenRow : Handler → List String → Except Failure Outcome → Prop where
  /-- A log whose flag is in front hands on the other tokens. -/
  | logFollowed {rest general : List String} :
      List.Forall₂ Resolves (rest.filter (· ≠ "-f")) general →
      TokenRow .log ("-f" :: rest) (.ok (.delegated .git .log .empty general))
  /-- Something else is in front, and what is missing does not count. -/
  | logPreceded {token : String} {rest : List String} : token ≠ "-f" →
      TokenRow .log (token :: rest) (.error .generalRefused)
  /-- Nothing follows the word. -/
  | logUnfollowed : TokenRow .log [] (.error .followMissing)
  /-- A graft hands on the tokens behind its first flag. -/
  | grafted {before after : List String} : "-r" ∉ before → (∃ token ∈ after, token ≠ "-r") →
      TokenRow .graft (before ++ "-r" :: after)
        (.ok (.delegated .git .cherryPick .empty (after.filter (· ≠ "-r"))))
  /-- Behind the first flag there is nothing to hand on. -/
  | graftUnnamed {before after : List String} : "-r" ∉ before → (∀ token ∈ after, token = "-r") →
      TokenRow .graft (before ++ "-r" :: after) (.error (.optionRequired "-r" "graft"))
  /-- A graft has no flag. -/
  | graftUnflagged {args : List String} : "-r" ∉ args →
      TokenRow .graft args (.error (.optionRequired "-r" "graft"))
  /-- The history is edited from one token on. -/
  | edited (root : String) :
      TokenRow .histedit [root] (.ok (.delegated .git .rebase (.singleton "-i" [root]) []))
  /-- There is no token to begin at. -/
  | editUnnamed : TokenRow .histedit [] (.error (.tooFew 1 "with hg histedit"))
  /-- There are several. -/
  | editLeft {args : List String} : 1 < args.length →
      TokenRow .histedit args (.error (.tooMany 1 "with hg histedit"))
  /-- An export hands on every token. -/
  | exported {args general : List String} : List.Forall₂ Resolves args general →
      TokenRow .exportCommits args (.ok (.delegated .git .showCommit .empty general))

/-- The commands of the table. -/
def HandsOn : Handler → Prop
  | .log | .graft | .histedit | .exportCommits => True
  | _ => False

/-- Every list of tokens is on a row of these commands. -/
theorem exists_tokenRow {command : Handler} (h : HandsOn command) (args : List String) :
    ∃ decision, TokenRow command args decision := by
  cases command with
  | log =>
      cases args with
      | nil => exact ⟨_, .logUnfollowed⟩
      | cons token rest =>
          by_cases hflag : token = "-f"
          · subst hflag
            exact ⟨_, .logFollowed (Revision.forall₂_resolves_iff.mpr rfl)⟩
          · exact ⟨_, .logPreceded hflag⟩
  | graft =>
      by_cases hflag : "-r" ∈ args
      · obtain ⟨before, after, rfl, hbefore⟩ := List.eq_append_cons_of_mem hflag
        by_cases hnamed : ∃ token ∈ after, token ≠ "-r"
        · exact ⟨_, .grafted hbefore hnamed⟩
        · exact ⟨_, .graftUnnamed hbefore (by simpa using hnamed)⟩
      · exact ⟨_, .graftUnflagged hflag⟩
  | histedit =>
      match args with
      | [] => exact ⟨_, .editUnnamed⟩
      | [root] => exact ⟨_, .edited root⟩
      | _ :: _ :: _ => exact ⟨_, .editLeft (by simp)⟩
  | exportCommits => exact ⟨_, .exported (Revision.forall₂_resolves_iff.mpr rfl)⟩
  | commit | status | bookmark | rebase | update | backout | pull | summary => exact h.elim

/-! ## The row of a line -/

theorem flags_handsOn : ∀ d ∈ declarations,
    (d.handler = .log → d.flags = ["-f"]) ∧ (d.handler = .graft → d.flags = ["-r"]) ∧
      (d.handler = .histedit → d.name = "histedit" ∧ d.flags = []) ∧
      (d.handler = .exportCommits → d.flags = []) := by
  decide

/-- What becomes of a line without looking at its advisories, and that the engine stays as it is. -/
def ComesTo (convert : Engine → Except Failure Conversion × Engine)
    (decision : Except Failure Outcome) : Prop :=
  ∀ engine, (convert engine).1.map (·.outcome) = decision ∧ (convert engine).2 = engine

section Rows

variable {d : Definition} {h : Handler} {args : List String} {decision : Except Failure Outcome}

theorem comesTo_of_refused {a : Arguments} {e : Failure} (hhandler : d.handler = h)
    (hresolve : h.resolve (.ofArguments d.name a) = .error e) :
    ComesTo (Conversion.ofArguments d a) (.error e) := by
  intro engine
  rw [Conversion.ofArguments_of_refused (hhandler ▸ hresolve)]
  exact ⟨rfl, rfl⟩

theorem comesTo_of_delegated {a : Arguments} {command : Canonical} {line : Invocation}
    {options : Options} {general : List String} (hhandler : d.handler = h)
    (hresolve : h.resolve (.ofArguments d.name a) = .ok (.delegated command line))
    (hoptions : line.options = options) (hgeneral : line.general = general) :
    ComesTo (Conversion.ofArguments d a) (.ok (.delegated .git command options general)) := by
  intro engine
  rw [Conversion.ofArguments_of_delegated (hhandler ▸ hresolve), hoptions, hgeneral]
  exact ⟨rfl, rfl⟩

theorem comesTo_log (hlog : d.handler = .log) (hflags : d.flags = ["-f"])
    (hrow : TokenRow .log args decision) :
    ComesTo (Conversion.ofArguments d (.parse d.flags args)) decision := by
  rw [hflags]
  cases hrow with
  | @logFollowed rest general hgeneral =>
      obtain rfl := Revision.forall₂_resolves_iff.mp hgeneral
      have hfront : (Invocation.ofArguments d.name (.parse ["-f"] ("-f" :: rest))).general = [] := by
        rw [Arguments.general_ofArguments]
        simp [Arguments.leading]
      have hflag : (Arguments.parse ["-f"] ("-f" :: rest)).options.get? "-f" =
          some (rest.filter (· ≠ "-f")) := by
        rw [Arguments.get?_parse, if_pos (by simp), ← Arguments.absorbed_of_taking]
        rfl
      refine comesTo_of_delegated hlog (Handler.resolve_log_of_get? hfront hflag) ?_ rfl
      show ((Arguments.parse ["-f"] ("-f" :: rest)).options.erase "-f").mapValues _ = _
      rw [Arguments.erase_options_parse]
      rfl
  | @logPreceded token rest hne =>
      refine comesTo_of_refused hlog (Handler.resolve_log_of_general ?_)
      rw [Arguments.general_ofArguments]
      simp [Arguments.leading, hne]
  | logUnfollowed =>
      exact comesTo_of_refused hlog (Handler.resolve_log_of_get?_eq_none rfl rfl)

theorem comesTo_graft (hgraft : d.handler = .graft) (hflags : d.flags = ["-r"])
    (hrow : TokenRow .graft args decision) :
    ComesTo (Conversion.ofArguments d (.parse d.flags args)) decision := by
  rw [hflags]
  have htaken := fun args => Arguments.optionArgs_ofArguments d.name ["-r"] args "-r"
  cases hrow with
  | @grafted before after hbefore hnamed =>
      have hrevisions := htaken (before ++ "-r" :: after)
      rw [Arguments.absorbed_append hbefore] at hrevisions
      have hsome : (Invocation.ofArguments d.name
          (.parse ["-r"] (before ++ "-r" :: after))).optionArgs "-r" ≠ [] := by
        rw [hrevisions]
        simpa using hnamed
      obtain ⟨line, hline, hoptions, hgeneral⟩ := Handler.resolve_graft_of_optionArgs_ne_nil hsome
      refine comesTo_of_delegated hgraft hline ?_ (hgeneral.trans hrevisions)
      rw [hoptions]
      exact Arguments.erase_options_parse _ _
  | graftUnnamed hbefore hnone =>
      refine comesTo_of_refused hgraft (Handler.resolve_graft_of_optionArgs_eq_nil ?_)
      rw [htaken, Arguments.absorbed_append hbefore]
      simpa using hnone
  | graftUnflagged hnot =>
      refine comesTo_of_refused hgraft (Handler.resolve_graft_of_optionArgs_eq_nil ?_)
      rw [htaken, Arguments.absorbed_of_notMem hnot]

theorem comesTo_histedit (hedit : d.handler = .histedit) (hname : d.name = "histedit")
    (hflags : d.flags = []) (hrow : TokenRow .histedit args decision) :
    ComesTo (Conversion.ofArguments d (.parse d.flags args)) decision := by
  have hgeneral : (Invocation.ofArguments d.name (.parse d.flags args)).general = args := by
    rw [hflags]
    exact Arguments.general_parse_nil args
  have hphrase : (Invocation.ofArguments d.name (.parse d.flags args)).generalPhrase =
      "with hg histedit" := by
    show "with hg " ++ d.name = _
    rw [hname]
    decide
  cases hrow with
  | edited root =>
      exact comesTo_of_delegated hedit (Handler.resolve_histedit_of_singleton hgeneral) rfl rfl
  | editUnnamed =>
      rw [← hphrase]
      exact comesTo_of_refused hedit (Handler.resolve_histedit_of_nil hgeneral)
  | editLeft hmany =>
      rw [← hphrase]
      exact comesTo_of_refused hedit (Handler.resolve_histedit_of_length (hgeneral.symm ▸ hmany))

theorem comesTo_export (hexport : d.handler = .exportCommits) (hflags : d.flags = [])
    (hrow : TokenRow .exportCommits args decision) :
    ComesTo (Conversion.ofArguments d (.parse d.flags args)) decision := by
  rw [hflags]
  cases hrow with
  | exported hgeneral =>
      obtain rfl := Revision.forall₂_resolves_iff.mp hgeneral
      refine comesTo_of_delegated hexport rfl ?_ ?_
      · show (Arguments.parse [] args).options.mapValues _ = _
        rw [Arguments.options_parse_nil]
        rfl
      · show (Arguments.parse [] args).general.map _ = _
        rw [Arguments.general_parse_nil]

theorem TokenRow.comesTo (hd : d.toDeclaration ∈ declarations)
    (hrow : TokenRow d.handler args decision) :
    ComesTo (Conversion.ofArguments d (.parse d.flags args)) decision := by
  obtain ⟨hlog, hgraft, hedit, hexport⟩ := flags_handsOn _ hd
  cases hhandler : d.handler <;> rw [hhandler] at hrow
  case log => exact comesTo_log hhandler (hlog hhandler) hrow
  case graft => exact comesTo_graft hhandler (hgraft hhandler) hrow
  case histedit => exact comesTo_histedit hhandler (hedit hhandler).1 (hedit hhandler).2 hrow
  case exportCommits => exact comesTo_export hhandler (hexport hhandler) hrow
  all_goals cases hrow

/-- **The table is exact.** -/
theorem comesTo_iff_tokenRow (hd : d.toDeclaration ∈ declarations) (h : HandsOn d.handler) :
    ComesTo (Conversion.ofArguments d (.parse d.flags args)) decision ↔
      TokenRow d.handler args decision := by
  constructor
  · intro hcomes
    obtain ⟨decision', hrow⟩ := exists_tokenRow h args
    obtain rfl : decision' = decision :=
      (hrow.comesTo hd .new).1.symm.trans (hcomes .new).1
    exact hrow
  · exact TokenRow.comesTo hd

/-- A line is on one row. -/
theorem TokenRow.unique {command : Handler} {decision' : Except Failure Outcome}
    (hrow : TokenRow command args decision) (hrow' : TokenRow command args decision') :
    decision = decision' := by
  obtain ⟨d, hd, rfl⟩ := exists_mem_builtin command
  have hcomes := hrow.comesTo (mem_declarations hd) .new
  have hcomes' := hrow'.comesTo (mem_declarations hd) .new
  exact hcomes.1.symm.trans hcomes'.1

end Rows

/-! ## What the rows say -/

/-- A line is refused for a reason of this kind. -/
def Refused (result : Except Failure Outcome) (kind : FailureKind) : Prop :=
  ∃ e, result = .error e ∧ e.kind = kind

/-- What becomes of a `log`. -/
structure LogByTokens (args : List String) (result : Except Failure Outcome) : Prop where
  /-- The flag has to be in front. -/
  taken_iff : (∃ outcome, result = .ok outcome) ↔ ∃ rest, args = "-f" :: rest
  /-- All other tokens are handed on. -/
  delegated : ∀ outcome, result = .ok outcome → ∃ general,
    List.Forall₂ Resolves (args.filter (· ≠ "-f")) general ∧
      outcome = .delegated .git .log .empty general
  /-- Another token in front is too much, with or without the flag. -/
  counted_iff : Refused result .argumentCountViolation ↔
    ∃ token rest, args = token :: rest ∧ token ≠ "-f"
  /-- The flag is missing only where nothing else is wrong. -/
  missing_iff : Refused result .missingRequiredOption ↔ args = []

/-- What becomes of a `graft`. -/
structure GraftByTokens (args : List String) (result : Except Failure Outcome) : Prop where
  /-- Another token has to stand behind the first flag. -/
  taken_iff : (∃ outcome, result = .ok outcome) ↔ ∃ before after,
    args = before ++ "-r" :: after ∧ "-r" ∉ before ∧ ∃ token ∈ after, token ≠ "-r"
  /-- The tokens behind the first flag are handed on. -/
  delegated : ∀ outcome, result = .ok outcome → ∀ before after,
    args = before ++ "-r" :: after → "-r" ∉ before →
      outcome = .delegated .git .cherryPick .empty (after.filter (· ≠ "-r"))
  /-- There is no other reason to refuse it. -/
  missing : (¬ ∃ outcome, result = .ok outcome) → Refused result .missingRequiredOption

/-- What becomes of a `histedit`. -/
structure HisteditByTokens (args : List String) (result : Except Failure Outcome) : Prop where
  /-- There has to be one token. -/
  taken_iff : (∃ outcome, result = .ok outcome) ↔ args.length = 1
  /-- The token is handed on to a flag. -/
  delegated : ∀ outcome, result = .ok outcome →
    outcome = .delegated .git .rebase (.singleton "-i" args) []
  /-- There is no other reason to refuse it. -/
  counted : (¬ ∃ outcome, result = .ok outcome) → Refused result .argumentCountViolation

/-- What becomes of an `export`: every token is handed on. -/
def ExportByTokens (args : List String) (result : Except Failure Outcome) : Prop :=
  ∃ general, List.Forall₂ Resolves args general ∧
    result = .ok (.delegated .git .showCommit .empty general)

namespace TokenRow

variable {args : List String} {result : Except Failure Outcome}

theorem logByTokens (h : TokenRow .log args result) : LogByTokens args result := by
  cases h with
  | @logFollowed rest general hgeneral =>
      have hfront : ("-f" :: rest).filter (· ≠ "-f") = rest.filter (· ≠ "-f") := by simp
      rw [← hfront] at hgeneral
      refine ⟨by simp, ?_, by simp [Refused], by simp [Refused]⟩
      rintro outcome ⟨⟩
      exact ⟨general, hgeneral, rfl⟩
  | logPreceded hne =>
      exact ⟨by simp [hne], by simp, by simp [Refused, hne, Failure.kind],
        by simp [Refused, Failure.kind]⟩
  | logUnfollowed =>
      exact ⟨by simp, by simp, by simp [Refused, Failure.kind], by simp [Refused, Failure.kind]⟩

theorem graftByTokens (h : TokenRow .graft args result) : GraftByTokens args result := by
  refine ⟨⟨?_, ?_⟩, ?_, ?_⟩
  · rintro ⟨outcome, rfl⟩
    cases h with
    | grafted hbefore hnamed => exact ⟨_, _, rfl, hbefore, hnamed⟩
  · rintro ⟨before, after, rfl, hbefore, hnamed⟩
    exact ⟨_, h.unique (.grafted hbefore hnamed)⟩
  · -- A list is divided at its first flag in one way, because it is on one row.
    rintro outcome rfl before after rfl hbefore
    by_cases hnamed : ∃ token ∈ after, token ≠ "-r"
    · exact Except.ok.inj (h.unique (.grafted hbefore hnamed))
    · have hnone : ∀ token ∈ after, token = "-r" := by simpa using hnamed
      cases h.unique (.graftUnnamed hbefore hnone)
  · intro hnot
    cases h with
    | grafted => exact absurd ⟨_, rfl⟩ hnot
    | graftUnnamed | graftUnflagged => exact ⟨_, rfl, rfl⟩

theorem histeditByTokens (h : TokenRow .histedit args result) : HisteditByTokens args result := by
  cases h with
  | edited root => exact ⟨by simp, by simp, by simp⟩
  | editUnnamed => exact ⟨by simp, by simp, fun _ => ⟨_, rfl, rfl⟩⟩
  | editLeft hmany => exact ⟨by simpa using hmany.ne', by simp, fun _ => ⟨_, rfl, rfl⟩⟩

theorem exportByTokens (h : TokenRow .exportCommits args result) : ExportByTokens args result := by
  cases h with
  | exported hgeneral => exact ⟨_, hgeneral, rfl⟩

end TokenRow

/-- **The tokens of a line say what is handed on.** Let the tokens behind the command word of a
recognized line be given. A log is taken if its flag is the first of them, and hands on all others; a
graft is taken if another token stands behind its first flag, and hands on those that do; an edit is
taken if there is one token; an export is always taken, and hands on all of them. The reasons for which
a line is refused are told apart. -/
theorem convert_by_tokens {line : String} {d : Definition} {a : Arguments}
    (h : builtin.recognize line = .ok (d, a)) (engine : Engine) :
    ∃ word args, Token.tokenize (Text.trim line) = system :: word :: args ∧
      let result := (builtin.convert line engine).1.map (·.outcome)
      (d.handler = .log → LogByTokens args result) ∧
      (d.handler = .graft → GraftByTokens args result) ∧
      (d.handler = .histedit → HisteditByTokens args result) ∧
      (d.handler = .exportCommits → ExportByTokens args result) := by
  obtain ⟨hd, args, ⟨⟨word, -, htokens⟩, -⟩, rfl⟩ := names_of_recognize h
  refine ⟨word, args, htokens, ?_⟩
  intro result
  have hrow : HandsOn d.handler → TokenRow d.handler args result := by
    intro hhands
    obtain ⟨decision, hrow⟩ := exists_tokenRow hhands args
    have hresult : result = decision := by
      show (builtin.convert line engine).1.map _ = decision
      rw [convert_of_recognize h, (hrow.comesTo (mem_declarations hd) engine).1]
    rwa [hresult]
  refine ⟨?_, ?_, ?_, ?_⟩
  · intro hlog
    rw [hlog] at hrow
    exact (hrow trivial).logByTokens
  · intro hgraft
    rw [hgraft] at hrow
    exact (hrow trivial).graftByTokens
  · intro hedit
    rw [hedit] at hrow
    exact (hrow trivial).histeditByTokens
  · intro hexport
    rw [hexport] at hrow
    exact (hrow trivial).exportByTokens

/-- A flag that stands on a line again is not handed on, and what stands in front of the first one is
left out. -/
theorem convert_by_tokens_repeated_flags :
    (builtin.convert "hg log -f . -f .~2" .new).1.map (·.outcome) =
      .ok (.delegated .git .log .empty ["HEAD", "HEAD~2"]) ∧
    (builtin.convert "hg graft C1 -r -r C2 -r" .new).1.map (·.outcome) =
      .ok (.delegated .git .cherryPick .empty ["C2"]) := by
  constructor
  · have hrecognize : (builtin.recognize "hg log -f . -f .~2").toOption.map (·.1.handler) =
        some .log := by decide +kernel
    have htext : Token.tokenize (Text.trim "hg log -f . -f .~2") =
        [system, "log", "-f", ".", "-f", ".~2"] := by decide +kernel
    obtain ⟨⟨d, a⟩, hfound, hhandler⟩ := Handler.exists_of_toOption_map_eq_some hrecognize
    obtain ⟨word, args, htokens, hlog, -⟩ := convert_by_tokens hfound .new
    obtain ⟨-, rfl⟩ := List.cons.inj (List.cons.inj (htext.symm.trans htokens)).2
    obtain ⟨outcome, houtcome⟩ := (hlog hhandler).taken_iff.mpr ⟨_, rfl⟩
    obtain ⟨general, hgeneral, rfl⟩ := (hlog hhandler).delegated outcome houtcome
    obtain rfl : ["HEAD", "HEAD~2"] = general := by
      rw [← Revision.forall₂_resolves_iff.mp hgeneral]
      decide
    exact houtcome
  · have hrecognize : (builtin.recognize "hg graft C1 -r -r C2 -r").toOption.map (·.1.handler) =
        some .graft := by decide +kernel
    have htext : Token.tokenize (Text.trim "hg graft C1 -r -r C2 -r") =
        [system, "graft", "C1", "-r", "-r", "C2", "-r"] := by decide +kernel
    obtain ⟨⟨d, a⟩, hfound, hhandler⟩ := Handler.exists_of_toOption_map_eq_some hrecognize
    obtain ⟨word, args, htokens, -, hgraft, -⟩ := convert_by_tokens hfound .new
    obtain ⟨-, rfl⟩ := List.cons.inj (List.cons.inj (htext.symm.trans htokens)).2
    obtain ⟨outcome, houtcome⟩ := (hgraft hhandler).taken_iff.mpr
      ⟨["C1"], ["-r", "C2", "-r"], rfl, by decide, "C2", by decide, by decide⟩
    obtain rfl := (hgraft hhandler).delegated outcome houtcome ["C1"] ["-r", "C2", "-r"] rfl
      (by decide)
    exact houtcome

end Registry

end HgToGit
