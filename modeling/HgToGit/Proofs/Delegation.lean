/-
# HgToGit.Proofs.Delegation -- the ways in which a line is delegated

A line becomes a canonical command in sixteen ways. `Handler.Delegates` lists them, each with what it
requires of the line and with the line that the canonical command takes over, and
`Handler.delegates_of_resolve` says that there are no others. What holds of every delegated line is
then shown way by way, and no handler has to be opened again.

The exits of `bookmark` are five of them. Two of its steering flags exclude each other, so a line
that gets as far as its exits has `-m`, `-d` or `-r` at most once in a way that matters.
-/
import HgToGit.Conversion

namespace HgToGit

namespace Handler

/-- What a handler makes of a line that it delegates. -/
inductive Delegates (inv : Invocation) : Handler → Canonical → Invocation → Prop where
  /-- A commit as it stands. -/
  | commit : inv.options.get? "-A" = none → Delegates inv .commit .commit inv
  /-- A commit that names files to add. -/
  | commitAdding {files : List String} : inv.options.get? "-A" = some files →
      Delegates inv .commit .commit ((inv.dropOption "-A").warn (.plain .addFlagUnneeded))
  /-- Commits that are shown. -/
  | exportCommits : Delegates inv .exportCommits .showCommit inv.resolveDots
  /-- Revisions that are copied. -/
  | graft {revisions : List String} : inv.options.get? "-r" = some revisions → revisions ≠ [] →
      inv.general = [] →
      Delegates inv .graft .cherryPick ((inv.dropOption "-r").setGeneral revisions)
  /-- Revisions that are copied, and others that are left out. -/
  | graftIgnoring {revisions : List String} : inv.options.get? "-r" = some revisions →
      revisions ≠ [] → inv.general ≠ [] →
      Delegates inv .graft .cherryPick
        (((inv.warn ((Message.plain .graftExtraRevisions).about "ignored"
          (Token.join inv.general))).dropOption "-r").setGeneral revisions)
  /-- A history that is followed. -/
  | log {revisions : List String} : inv.general = [] → inv.options.get? "-f" = some revisions →
      Delegates inv .log .log ((inv.dropOption "-f").setGeneral revisions).resolveDots
  /-- A bookmark gets another name. -/
  | bookmarkRenamed {names : List String} : inv.options.get? "-m" = some names →
      inv.options.get? "-d" = none → inv.options.get? "-r" = none →
      Delegates inv .bookmark .branch ((inv.setOption "-m" (names ++ inv.general)).setGeneral [])
  /-- Bookmarks are deleted. -/
  | bookmarkDeleted {names : List String} : inv.options.get? "-m" = none →
      inv.options.get? "-d" = some names → inv.options.get? "-r" = none →
      ¬ (names = [] ∧ inv.general = []) →
      Delegates inv .bookmark .branch ((inv.dropOption "-d").setOption "-D" names)
  /-- A bookmark is placed at a revision. -/
  | bookmarkPlaced {values : List String} {revision name : String} :
      inv.options.get? "-m" = none → inv.options.get? "-d" = none →
      inv.options.get? "-r" = some values → values ++ inv.general = [revision, name] →
      Delegates inv .bookmark .branch ((inv.dropOption "-r").setGeneral [name, revision])
  /-- A bookmark is placed here. -/
  | bookmarkHere {name : String} {others : List String} : inv.options.get? "-m" = none →
      inv.options.get? "-d" = none → inv.options.get? "-r" = none →
      inv.general = name :: others →
      Delegates inv .bookmark .checkout (bookmarkHere inv name others)
  /-- Nothing is named, and the bookmarks are listed. -/
  | bookmarkListed : inv.options.get? "-m" = none →
      (inv.options.get? "-d" = none ∨ inv.options.get? "-r" = none) → inv.optionArgs "-d" = [] →
      inv.optionArgs "-r" = [] → inv.general = [] → Delegates inv .bookmark .branch inv
  /-- A revision is switched to. -/
  | update : Delegates inv .update .checkout inv
  /-- A commit is undone. -/
  | backout : Delegates inv .backout .revert inv
  /-- The history is edited from one revision on. -/
  | histedit {root : String} : inv.general = [root] →
      Delegates inv .histedit .rebase ((inv.setOptions (.singleton "-i" [root])).setGeneral [])
  /-- Commits are fetched. -/
  | pull : Delegates inv .pull .pull inv
  /-- The user's place is shown. -/
  | summary : Delegates inv .summary .branch inv

variable {inv line : Invocation} {command : Canonical}

/-! ## One handler at a time -/

theorem hasOption_eq_false_iff {flag : String} :
    inv.hasOption flag = false ↔ inv.options.get? flag = none := by
  simp [Invocation.hasOption]

theorem hasOption_of_get? {flag : String} {args : List String}
    (h : inv.options.get? flag = some args) : inv.hasOption flag = true := by
  show (inv.options.get? flag).isSome = true
  rw [h]
  rfl

theorem optionArgs_of_get? {flag : String} {args : List String}
    (h : inv.options.get? flag = some args) : inv.optionArgs flag = args := by
  rw [Invocation.optionArgs, h]
  rfl

theorem optionArgs_of_get?_eq_none {flag : String} (h : inv.options.get? flag = none) :
    inv.optionArgs flag = [] := by
  rw [Invocation.optionArgs, h]
  rfl

theorem delegates_commitLine : Delegates inv .commit .commit (commitLine inv) := by
  unfold commitLine
  cases hfiles : inv.options.get? "-A" with
  | none =>
      have hnot : inv.hasOption "-A" = false := hasOption_eq_false_iff.mpr hfiles
      rw [hnot]
      exact .commit hfiles
  | some files =>
      rw [if_pos (hasOption_of_get? hfiles)]
      exact .commitAdding hfiles

theorem delegates_of_graftLine (h : graftLine inv = .ok line) :
    Delegates inv .graft .cherryPick line := by
  unfold graftLine at h
  split at h
  · cases h
  · rename_i revisions hne
    cases hrevisions : inv.options.get? "-r" with
    | none =>
        exact absurd (optionArgs_of_get?_eq_none hrevisions) hne
    | some values =>
        rw [optionArgs_of_get? hrevisions] at h hne
        by_cases hgeneral : inv.general = []
        · simp only [hgeneral, List.isEmpty_nil, if_true] at h
          cases h
          exact .graft hrevisions hne hgeneral
        · have hsome : inv.general.isEmpty = false := by simpa using hgeneral
          simp only [hsome, Bool.false_eq_true, if_false] at h
          cases h
          exact .graftIgnoring hrevisions hne hgeneral

theorem delegates_of_logLine (h : logLine inv = .ok line) : Delegates inv .log .log line := by
  unfold logLine Invocation.refuseGeneral at h
  by_cases hgeneral : inv.general = []
  · simp only [hgeneral, List.isEmpty_nil, if_true] at h
    split at h
    · cases h
    · rename_i revisions hrevisions
      cases h
      exact .log hgeneral hrevisions
  · have hsome : inv.general.isEmpty = false := by simpa using hgeneral
    simp [hsome] at h

theorem delegates_of_histeditLine (h : histeditLine inv = .ok line) :
    Delegates inv .histedit .rebase line := by
  unfold histeditLine Invocation.checkGeneral Failure.checkBounds at h
  match hgeneral : inv.general with
  | [] => simp [hgeneral] at h
  | [root] =>
      simp only [hgeneral, List.length_singleton, Nat.lt_irrefl, if_false] at h
      cases h
      exact .histedit hgeneral
  | root :: next :: more => simp [hgeneral] at h

/-- Where no two flags exclude each other, at most one of them is on the line. -/
theorem absent_of_find?_exclusiveFlags
    (h : (exclusiveFlags.find? fun pair => inv.hasOption pair.1 && inv.hasOption pair.2) = none) :
    (inv.options.get? "-m" = none ∨ inv.options.get? "-d" = none) ∧
      (inv.options.get? "-d" = none ∨ inv.options.get? "-r" = none) ∧
      (inv.options.get? "-m" = none ∨ inv.options.get? "-r" = none) := by
  rw [List.find?_eq_none] at h
  have hpair : ∀ first second, (first, second) ∈ exclusiveFlags →
      inv.options.get? first = none ∨ inv.options.get? second = none := by
    intro first second hmem
    have hnot := h (first, second) hmem
    rw [Bool.not_eq_true, Bool.and_eq_false_iff] at hnot
    exact hnot.imp hasOption_eq_false_iff.mp hasOption_eq_false_iff.mp
  exact ⟨hpair "-m" "-d" (by decide), hpair "-d" "-r" (by decide), hpair "-m" "-r" (by decide)⟩

theorem exists_of_map_eq_ok {α β : Type} {decision : Except Failure α} {f : α → β} {b : β}
    (h : decision.map f = .ok b) : ∃ a, decision = .ok a ∧ f a = b := by
  cases decision with
  | error e => cases h
  | ok a => exact ⟨a, rfl, Except.ok.inj h⟩

theorem exists_of_toOption_map_eq_some {α β : Type} {decision : Except Failure α} {f : α → β}
    {b : β} (h : decision.toOption.map f = some b) : ∃ a, decision = .ok a ∧ f a = b := by
  cases decision with
  | error e => cases h
  | ok a => exact ⟨a, rfl, Option.some.inj h⟩

theorem delegates_of_bookmarkAtRevision {values : List String}
    (hrenamed : inv.options.get? "-m" = none) (hdeleted : inv.options.get? "-d" = none)
    (hvalues : inv.options.get? "-r" = some values) (h : bookmarkAtRevision inv = .ok line) :
    Delegates inv .bookmark .branch line := by
  have hargs := optionArgs_of_get? hvalues
  unfold bookmarkAtRevision at h
  rw [hargs] at h
  split at h
  · rename_i hnil
    obtain ⟨hvaluesNil, hgeneral⟩ := List.append_eq_nil_iff.mp hnil
    cases h
    exact .bookmarkListed hrenamed (Or.inl hdeleted) (optionArgs_of_get?_eq_none hdeleted)
      (hargs.trans hvaluesNil) hgeneral
  · cases h
  · rename_i revision name hboth
    cases h
    exact .bookmarkPlaced hrenamed hdeleted hvalues hboth
  · cases h

theorem delegates_of_bookmarkLine (h : bookmarkLine inv = .ok (command, line)) :
    Delegates inv .bookmark command line := by
  unfold bookmarkLine at h
  split at h
  · cases h
  · rename_i hnone
    obtain ⟨hmd, hdr, hmr⟩ := absent_of_find?_exclusiveFlags hnone
    split at h
    · rename_i names hrenamed
      have hdeleted : inv.options.get? "-d" = none := hmd.resolve_left (by simp [hrenamed])
      have hplaced : inv.options.get? "-r" = none := hmr.resolve_left (by simp [hrenamed])
      cases h
      exact .bookmarkRenamed hrenamed hdeleted hplaced
    · rename_i hrenamed
      split at h
      · rename_i names hdeleted
        have hplaced : inv.options.get? "-r" = none := hdr.resolve_left (by simp [hdeleted])
        split at h
        · rename_i hempty
          rw [Bool.and_eq_true, List.isEmpty_iff, List.isEmpty_iff] at hempty
          obtain ⟨hnames, hgeneral⟩ := hempty
          cases h
          exact .bookmarkListed hrenamed (Or.inr hplaced)
            ((optionArgs_of_get? hdeleted).trans hnames) (optionArgs_of_get?_eq_none hplaced) hgeneral
        · rename_i hempty
          rw [Bool.and_eq_true, List.isEmpty_iff, List.isEmpty_iff] at hempty
          cases h
          exact .bookmarkDeleted hrenamed hdeleted hplaced hempty
      · rename_i hdeleted
        cases hplaced : inv.options.get? "-r" with
        | some values =>
            rw [if_pos (hasOption_of_get? hplaced)] at h
            obtain ⟨line', hat, hpair⟩ := exists_of_map_eq_ok h
            obtain ⟨rfl, rfl⟩ := Prod.mk.inj hpair
            exact delegates_of_bookmarkAtRevision hrenamed hdeleted hplaced hat
        | none =>
            have hnot : inv.hasOption "-r" = false := hasOption_eq_false_iff.mpr hplaced
            rw [hnot] at h
            cases hgeneral : inv.general with
            | nil =>
                simp only [hgeneral, Bool.false_eq_true, if_false] at h
                cases h
                exact .bookmarkListed hrenamed (Or.inl hdeleted)
                  (optionArgs_of_get?_eq_none hdeleted) (optionArgs_of_get?_eq_none hplaced) hgeneral
            | cons name others =>
                simp only [hgeneral, Bool.false_eq_true, if_false] at h
                cases h
                exact .bookmarkHere hrenamed hdeleted hplaced hgeneral

/-! ## All handlers -/

theorem eq_ok_of_delegate {command' : Canonical} {decision : Except Failure Invocation}
    (h : delegate command' decision = .ok (.delegated command line)) :
    command' = command ∧ decision = .ok line := by
  obtain ⟨line', hline, hboth⟩ := exists_of_map_eq_ok h
  obtain ⟨rfl, rfl⟩ := Resolution.delegated.inj hboth
  exact ⟨rfl, hline⟩

/-- **There is no other way in which a line is delegated.** -/
theorem delegates_of_resolve {h : Handler} (hr : h.resolve inv = .ok (.delegated command line)) :
    Delegates inv h command line := by
  cases h with
  | commit =>
      cases hr
      exact delegates_commitLine
  | status => cases hr
  | exportCommits =>
      cases hr
      exact .exportCommits
  | graft =>
      obtain ⟨rfl, hline⟩ := eq_ok_of_delegate hr
      exact delegates_of_graftLine hline
  | log =>
      obtain ⟨rfl, hline⟩ := eq_ok_of_delegate hr
      exact delegates_of_logLine hline
  | bookmark =>
      unfold resolve at hr
      obtain ⟨result, hline, hboth⟩ := exists_of_map_eq_ok hr
      obtain ⟨rfl, rfl⟩ := Resolution.delegated.inj hboth
      exact delegates_of_bookmarkLine hline
  | rebase =>
      unfold resolve at hr
      obtain ⟨call, -, hdirect⟩ := exists_of_map_eq_ok hr
      cases hdirect
  | update =>
      cases hr
      exact .update
  | backout =>
      cases hr
      exact .backout
  | histedit =>
      obtain ⟨rfl, hline⟩ := eq_ok_of_delegate hr
      exact delegates_of_histeditLine hline
  | pull =>
      cases hr
      exact .pull
  | summary =>
      cases hr
      exact .summary

end Handler

namespace Registry

/-- A delegated line was recognized, and its handler made of it what the outcome says. -/
theorem delegates_of_convert {r : Registry} {line : String} {engine : Engine} {c : Conversion}
    {vcs : Vcs} {command : Canonical} {options : Options} {general : List String}
    (h : (r.convert line engine).1 = .ok c)
    (hout : c.outcome = .delegated vcs command options general) :
    ∃ d a line', r.recognize line = .ok (d, a) ∧ c.command = d.name ∧ vcs = .git ∧
      d.handler.Delegates (Invocation.ofArguments d.name a) command line' ∧
      line'.options = options ∧ line'.general = general ∧ line'.warnings = c.warnings := by
  rw [convert] at h
  cases hrecognize : r.recognize line with
  | error e =>
      rw [hrecognize] at h
      cases h
  | ok found =>
      obtain ⟨d, a⟩ := found
      simp only [hrecognize, Conversion.ofArguments] at h
      cases hresolve : d.handler.resolve (Invocation.ofArguments d.name a) with
      | error e =>
          rw [hresolve] at h
          cases h
      | ok resolution =>
          rw [hresolve] at h
          cases resolution with
          | delegated command' line' =>
              cases h
              obtain ⟨rfl, rfl, rfl, rfl⟩ := Outcome.delegated.inj hout
              exact ⟨d, a, line', rfl, rfl, rfl, Handler.delegates_of_resolve hresolve, rfl, rfl,
                rfl⟩
          | direct call line' =>
              obtain ⟨calls, refusal⟩ := engine
              cases refusal with
              | some reason => cases h
              | none =>
                  cases h
                  cases hout

end Registry

end HgToGit
