/-
# HgToGit.Proofs.Accounting -- where the arguments of a delegated line end up

A canonical command gets the arguments of the line, moved about and in two commands moved from the
dot to the head, or they are left out. General arguments are left out with an advisory that quotes
them, the arguments of a flag without one. `Registry.accounts_for_arguments` is the balance, with
both sides read off the tokens of the line.

The balance is kept handler by handler (`Handler.Delegates.accounts`), counting each argument on
both sides. Two handlers put a map of their own in place of the flags; that nothing but `-f` is lost
there is because their commands declare no other flag that could be on the line.
-/
import HgToGit.Proofs.ArgumentGroups
import HgToGit.Proofs.Delegation
import HgToGit.Proofs.DotRevision
import HgToGit.Proofs.Recognition
import Mathlib.Data.Multiset.AddSub

namespace HgToGit

open scoped List

/-- All arguments of a line: those of its flags and the general ones. -/
def Invocation.arguments (inv : Invocation) : List String :=
  TextMap.arguments inv.options ++ inv.general

namespace Handler

/-! ## What is left out -/

/-- What a command makes of each of its arguments. -/
def rewriting : Handler → String → String
  | exportCommits | log => Revision.resolve
  | _ => id

/-- The general arguments that a line leaves out. -/
def ignored (h : Handler) (command : Canonical) (general : List String) : List String :=
  match h, command with
  | graft, _ => general
  | bookmark, .checkout => general.tail
  | _, _ => []

/-- The arguments of flags that a line leaves out. -/
def discarded (h : Handler) (command : Canonical) (taken : String → List String) : List String :=
  match h, command with
  | commit, _ => taken "-A"
  | bookmark, .checkout => taken "-f"
  | _, _ => []

/-- What is said about a line: that files need not be added, or what it leaves out. -/
def advisories (h : Handler) (adds : Bool) (ignored : List String) : List Message :=
  match h, ignored with
  | commit, _ => if adds then [⟨.addFlagUnneeded, .empty⟩] else []
  | graft, _ :: _ => [⟨.graftExtraRevisions, .singleton "ignored" (" ".intercalate ignored)⟩]
  | bookmark, _ :: _ => [⟨.bookmarkExtraNames, .singleton "ignored" (" ".intercalate ignored)⟩]
  | _, _ => []

theorem length_advisories_le_one (h : Handler) (adds : Bool) (ignored : List String) :
    (h.advisories adds ignored).length ≤ 1 := by
  unfold advisories
  split
  · split <;> simp
  · exact le_rfl
  · exact le_rfl
  · exact Nat.zero_le 1

/-- Only a commit says that files need not be added. -/
theorem advisories_of_ne_commit {h : Handler} (hne : h ≠ .commit) (adds adds' : Bool)
    (ignored : List String) : h.advisories adds ignored = h.advisories adds' ignored := by
  cases h with
  | commit => exact absurd rfl hne
  | graft | bookmark => cases ignored <;> rfl
  | _ => rfl

variable {inv line : Invocation} {command : Canonical}

/-- The advisories of a line are those that it had and those of what it leaves out. -/
theorem Delegates.warnings_eq {h : Handler} (hd : h.Delegates inv command line) :
    line.warnings = inv.warnings ++
      h.advisories (inv.hasOption "-A") (h.ignored command inv.general) := by
  cases hd with
  | commit hfiles =>
      have hnot : inv.hasOption "-A" = false := hasOption_eq_false_iff.mpr hfiles
      simp [advisories, hnot]
  | commitAdding hfiles =>
      rw [advisories, hasOption_of_get? hfiles]
      rfl
  | graft _ _ hgeneral => simp [Invocation.setGeneral, Invocation.dropOption, ignored, advisories,
      hgeneral]
  | graftIgnoring _ _ hgeneral =>
      obtain ⟨name, others, hcons⟩ := List.exists_cons_of_ne_nil hgeneral
      rw [ignored, hcons]
      rfl
  | @bookmarkHere name others _ _ _ hgeneral =>
      rw [ignored, hgeneral, List.tail_cons]
      cases others with
      | nil => exact (List.append_nil _).symm
      | cons other more => rfl
  | exportCommits | log | bookmarkRenamed | bookmarkDeleted | bookmarkPlaced | bookmarkListed
  | update | backout | histedit | pull | summary => exact (List.append_nil _).symm

/-! ## The balance -/

/-- Taking a flag off a line takes its arguments off it. -/
theorem arguments_perm_dropOption (inv : Invocation) (flag : String) :
    inv.arguments ~ inv.optionArgs flag ++ (inv.dropOption flag).arguments := by
  rw [Invocation.arguments, Invocation.arguments, ← List.append_assoc]
  exact (inv.options.arguments_perm flag).append_right inv.general

/-- A flag gets arguments in place of those that it had. -/
theorem arguments_perm_setOption (inv : Invocation) (flag : String) (args : List String) :
    (inv.setOption flag args).arguments ~ args ++ (inv.dropOption flag).arguments := by
  rw [Invocation.arguments, Invocation.arguments, ← List.append_assoc]
  exact (inv.options.arguments_insert_perm flag args).append_right inv.general

theorem arguments_resolveDots (inv : Invocation) :
    inv.resolveDots.arguments = inv.arguments.map Revision.resolve := by
  rw [Invocation.arguments, Invocation.arguments, List.map_append]
  show TextMap.arguments (inv.options.mapValues (List.map Revision.resolve)) ++ _ = _
  rw [TextMap.arguments_mapValues]
  rfl

/-- Of a resolved line no argument is written relative to the dot. -/
theorem avoidsDot_of_mem_resolveDots {arg : String} (h : arg ∈ inv.resolveDots.arguments) :
    Revision.AvoidsDot arg := by
  rw [arguments_resolveDots] at h
  obtain ⟨given, -, rfl⟩ := List.mem_map.mp h
  exact Revision.avoidsDot_resolve given

theorem arguments_perm_of_get? {flag : String} {args : List String}
    (h : inv.options.get? flag = some args) :
    inv.arguments ~ args ++ (inv.dropOption flag).arguments := by
  rw [← optionArgs_of_get? h]
  exact arguments_perm_dropOption inv flag

/-- A flag's arguments become the general ones of a line that has no others. -/
theorem arguments_perm_setGeneral {flag : String} {args : List String}
    (h : inv.options.get? flag = some args) (hgeneral : inv.general = []) :
    inv.arguments ~ ((inv.dropOption flag).setGeneral args).arguments := by
  refine (arguments_perm_of_get? h).trans ?_
  have hnil : (inv.dropOption flag).general = [] := hgeneral
  rw [Invocation.arguments, hnil, List.append_nil]
  exact List.perm_append_comm

/-- The general arguments of a line become a flag's, after those that it has. -/
theorem arguments_perm_merge {flag : String} {args : List String}
    (h : inv.options.get? flag = some args) :
    inv.arguments ~ ((inv.setOption flag (args ++ inv.general)).setGeneral []).arguments := by
  have hset : ((inv.setOption flag (args ++ inv.general)).setGeneral []).arguments ~
      args ++ inv.general ++ ((inv.dropOption flag).setGeneral []).arguments :=
    arguments_perm_setOption (inv.setGeneral []) flag (args ++ inv.general)
  refine (arguments_perm_of_get? h).trans (List.Perm.trans ?_ hset.symm)
  rw [List.append_assoc]
  refine List.Perm.append_left args ?_
  show TextMap.arguments _ ++ inv.general ~ inv.general ++ (TextMap.arguments _ ++ [])
  rw [List.append_nil]
  exact List.perm_append_comm

/-- A flag's arguments move to a flag that was not given. -/
theorem arguments_perm_rename {flag other : String} {args : List String}
    (h : inv.options.get? flag = some args) (hne : flag ≠ other)
    (hother : inv.options.get? other = none) :
    inv.arguments ~ ((inv.dropOption flag).setOption other args).arguments := by
  have hnone : (inv.dropOption flag).optionArgs other = [] := by
    apply optionArgs_of_get?_eq_none
    rw [Invocation.dropOption, TextMap.get?_erase, if_neg hne, hother]
  have hsame := arguments_perm_dropOption (inv.dropOption flag) other
  rw [hnone, List.nil_append] at hsame
  exact ((arguments_perm_of_get? h).trans (hsame.append_left args)).trans
    (arguments_perm_setOption (inv.dropOption flag) other args).symm

/-- A revision and a name change places, one or both of them taken from a flag. -/
theorem arguments_perm_swap {flag revision name : String} {args : List String}
    (h : inv.options.get? flag = some args) (hboth : args ++ inv.general = [revision, name]) :
    inv.arguments ~ ((inv.dropOption flag).setGeneral [name, revision]).arguments := by
  refine (arguments_perm_of_get? h).trans ?_
  show args ++ (TextMap.arguments (inv.dropOption flag).options ++ inv.general) ~
    TextMap.arguments (inv.dropOption flag).options ++ [name, revision]
  rw [← List.append_assoc]
  refine (List.perm_append_comm.append_right inv.general).trans ?_
  rw [List.append_assoc, hboth]
  exact (List.Perm.swap name revision []).append_left _

theorem flags_bookmark : ∀ d ∈ Registry.declarations, d.handler = .bookmark →
    d.flags = ["-r", "-f", "-d", "-m"] := by
  decide

theorem flags_histedit : ∀ d ∈ Registry.declarations, d.handler = .histedit → d.flags = [] := by
  decide

theorem flag_mem_of_commit : ∀ d ∈ Registry.declarations, d.handler = .commit →
    "-A" ∈ d.flags := by
  decide

/-- **A handler loses and doubles no argument.** What a known command is given is what the canonical
command gets and what is left out. -/
theorem Delegates.accounts {d : Declaration} (hd : d ∈ Registry.declarations)
    (hknown : ∀ flag, inv.options.get? flag ≠ none → flag ∈ d.flags)
    (h : d.handler.Delegates inv command line) :
    inv.arguments.map d.handler.rewriting ~
      line.arguments ++ (d.handler.ignored command inv.general ++
        d.handler.discarded command inv.optionArgs) := by
  generalize hhandler : d.handler = handler at h
  cases h with
  | commit hfiles =>
      simp [rewriting, ignored, discarded, optionArgs_of_get?_eq_none hfiles]
  | commitAdding hfiles =>
      show inv.arguments.map id ~ (inv.dropOption "-A").arguments ++ inv.optionArgs "-A"
      rw [List.map_id]
      exact (arguments_perm_dropOption inv "-A").trans List.perm_append_comm
  | exportCommits =>
      show inv.arguments.map Revision.resolve ~ inv.resolveDots.arguments ++ []
      rw [arguments_resolveDots, List.append_nil]
  | @graft revisions hrevisions _ hgeneral =>
      show inv.arguments.map id ~
        ((inv.dropOption "-r").setGeneral revisions).arguments ++ (inv.general ++ [])
      rw [List.map_id, hgeneral, List.append_nil, List.append_nil]
      exact arguments_perm_setGeneral hrevisions hgeneral
  | @graftIgnoring revisions hrevisions _ _ =>
      show inv.arguments.map id ~
        ((inv.dropOption "-r").setGeneral revisions).arguments ++ (inv.general ++ [])
      rw [List.map_id, List.append_nil]
      refine (arguments_perm_of_get? hrevisions).trans ?_
      rw [Invocation.arguments, Invocation.arguments, ← List.append_assoc]
      exact List.perm_append_comm.append_right inv.general
  | @log revisions hgeneral hrevisions =>
      show inv.arguments.map Revision.resolve ~
        ((inv.dropOption "-f").setGeneral revisions).resolveDots.arguments ++ []
      rw [arguments_resolveDots, List.append_nil]
      exact (arguments_perm_setGeneral hrevisions hgeneral).map _
  | @bookmarkRenamed names hnames _ _ =>
      show inv.arguments.map id ~
        ((inv.setOption "-m" (names ++ inv.general)).setGeneral []).arguments ++ []
      rw [List.map_id, List.append_nil]
      exact arguments_perm_merge hnames
  | @bookmarkDeleted names _ hnames _ _ =>
      show inv.arguments.map id ~ ((inv.dropOption "-d").setOption "-D" names).arguments ++ []
      rw [List.map_id, List.append_nil]
      refine arguments_perm_rename hnames (by decide) ?_
      by_contra hgiven
      have hmem := hknown "-D" hgiven
      rw [flags_bookmark d hd hhandler] at hmem
      exact absurd hmem (by decide)
  | @bookmarkPlaced values revision name _ _ hvalues hboth =>
      show inv.arguments.map id ~
        ((inv.dropOption "-r").setGeneral [name, revision]).arguments ++ []
      rw [List.map_id, List.append_nil]
      exact arguments_perm_swap hvalues hboth
  | @bookmarkHere name others hrenamed hdeleted hplaced hgeneral =>
      show inv.arguments.map id ~ (TextMap.arguments (.singleton "-b" [name]) ++ []) ++
        (inv.general.tail ++ inv.optionArgs "-f")
      have hforce : ∀ other, other ≠ "-f" → inv.options.get? other = none := by
        intro other hne
        by_contra hgiven
        have hmem := hknown other hgiven
        rw [flags_bookmark d hd hhandler] at hmem
        simp only [List.mem_cons, List.not_mem_nil, or_false] at hmem
        rcases hmem with rfl | rfl | rfl | rfl
        · exact hgiven hplaced
        · exact hne rfl
        · exact hgiven hdeleted
        · exact hgiven hrenamed
      rw [List.map_id, TextMap.arguments_singleton, List.append_nil, Invocation.arguments,
        TextMap.arguments_eq_of_get?_eq_none hforce, hgeneral, List.tail_cons]
      exact List.perm_append_comm
  | @histedit root hgeneral =>
      show inv.arguments.map id ~ (TextMap.arguments (.singleton "-i" [root]) ++ []) ++ []
      have hnone : ∀ flag, inv.options.get? flag = none := by
        intro flag
        by_contra hgiven
        have hmem := hknown flag hgiven
        rw [flags_histedit d hd hhandler] at hmem
        cases hmem
      have hempty : inv.options = .empty := TextMap.ext_get? hnone
      rw [List.map_id, Invocation.arguments, hempty, hgeneral, TextMap.arguments_singleton]
      exact List.Perm.refl _
  | bookmarkListed | update | backout | pull | summary => simp [rewriting, ignored, discarded]

end Handler

namespace Registry

/-- **Every argument of a line is accounted for.** The arguments of a line that becomes a canonical
command, rewritten where the command does so, are those of the outcome and those that are left out;
none is lost or doubled. The only advisory is of what is left out or of files that need not be
added. -/
theorem accounts_for_arguments {line : String} {engine : Engine} {c : Conversion}
    {vcs : Vcs} {command : Canonical} {options : Options} {general : List String}
    (h : (builtin.convert line engine).1 = .ok c)
    (hout : c.outcome = .delegated vcs command options general) :
    ∃ d ∈ builtin.definitions, ∃ args, d.name = c.command ∧
      Names (Text.trim line) d.handler args ∧
      let left := d.handler.ignored command (Arguments.leading d.flags args)
      let lost := d.handler.discarded command fun flag => Arguments.absorbed d.flags flag false args
      ((args.filter (· ∉ d.flags)).map d.handler.rewriting : Multiset String) =
        (TextMap.arguments options ++ general : List String) + (left ++ lost : List String) ∧
      c.warnings = d.handler.advisories ("-A" ∈ args) left ∧ c.warnings.length ≤ 1 := by
  obtain ⟨d, a, line', hrecognize, hname, -, hd, rfl, rfl, hwarnings⟩ := delegates_of_convert h hout
  obtain ⟨hmem, args, hnames, rfl⟩ := names_of_recognize hrecognize
  have hgeneral : (Invocation.ofArguments d.name (Arguments.parse d.flags args)).general =
      Arguments.leading d.flags args := Arguments.general_parse d.flags args
  have htaken : (Invocation.ofArguments d.name (Arguments.parse d.flags args)).optionArgs =
      fun flag => Arguments.absorbed d.flags flag false args :=
    funext fun flag => Arguments.getD_get?_parse d.flags args flag
  refine ⟨d, hmem, args, hname.symm, hnames, ?_⟩
  intro left lost
  have hbalance := hd.accounts (mem_declarations hmem) fun _ => Arguments.mem_known_of_get?_parse
  rw [hgeneral, htaken] at hbalance
  have hgiven : (Invocation.ofArguments d.name (Arguments.parse d.flags args)).arguments ~
      args.filter (· ∉ d.flags) := Arguments.parse_perm d.flags args
  have hnotes := hd.warnings_eq
  rw [hgeneral, hwarnings] at hnotes
  refine ⟨?_, ?_, ?_⟩
  · rw [Multiset.coe_add, Multiset.coe_eq_coe]
    exact (hgiven.map _).symm.trans hbalance
  · rw [hnotes]
    by_cases hcommit : d.handler = .commit
    · have hadds : (Invocation.ofArguments d.name (Arguments.parse d.flags args)).hasOption "-A" =
          decide ("-A" ∈ args) := by
        show ((Arguments.parse d.flags args).options.get? "-A").isSome = _
        have hflag := Handler.flag_mem_of_commit _ (mem_declarations hmem) hcommit
        by_cases hgiven : "-A" ∈ args
        · simp [Arguments.get?_parse, hflag, hgiven]
        · simp [Arguments.get?_parse, hgiven]
      rw [hadds]
      rfl
    · exact Handler.advisories_of_ne_commit hcommit _ _ _
  · rw [hnotes]
    exact Handler.length_advisories_le_one _ _ _

/-- Of two names one is taken and the other one left out with an advisory; what `-f` took is left
out without. -/
theorem accounts_for_arguments_two_names :
    ∃ c, (builtin.convert "hg book new other -f old" .new).1 = .ok c ∧
      c.outcome = .delegated .git .checkout (.singleton "-b" ["new"]) [] ∧
      c.warnings = [⟨.bookmarkExtraNames, .singleton "ignored" "other"⟩] := by
  have hresult : (builtin.convert "hg book new other -f old" .new).1.toOption.map
      (fun c => (c.command, c.outcome)) =
        some ("bookmark", .delegated .git .checkout (.singleton "-b" ["new"]) []) := by
    decide +kernel
  obtain ⟨c, hconvert, hboth⟩ := Handler.exists_of_toOption_map_eq_some hresult
  obtain ⟨hcommand, hout⟩ := Prod.mk.inj hboth
  obtain ⟨d, hmem, args, hname, hnames, -, hwarnings, -⟩ := accounts_for_arguments hconvert hout
  have hbookmark : d.handler = .bookmark ∧ d.flags = ["-r", "-f", "-d", "-m"] := by
    have hall : ∀ d ∈ declarations, d.name = "bookmark" →
        d.handler = .bookmark ∧ d.flags = ["-r", "-f", "-d", "-m"] := by decide
    exact hall _ (mem_declarations hmem) (hname.trans hcommand)
  have hargs : args = ["new", "other", "-f", "old"] := by
    have htokens : Token.tokenize (Text.trim "hg book new other -f old") =
        [system, "book", "new", "other", "-f", "old"] := by decide +kernel
    obtain ⟨⟨word, -, hline⟩, -⟩ := hnames
    exact (List.cons.inj (List.cons.inj (hline.symm.trans htokens)).2).2
  refine ⟨c, hconvert, hout, ?_⟩
  rw [hwarnings, hbookmark.1, hbookmark.2, hargs]
  decide

end Registry

end HgToGit
