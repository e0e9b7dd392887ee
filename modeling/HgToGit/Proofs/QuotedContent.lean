/-
# HgToGit.Proofs.QuotedContent -- the content of a quoted argument cannot change what a line does

Two lines that differ only between the quotes of one argument are refused for the same cause, or
become the same command with the same flags and the same number of arguments in every place, and no
other argument differs (`Registry.convert_quoted`).

The two runs are not compared with each other. Both are compared with a third one, in which a quoted
token that stands nowhere else on the line takes the place of the argument: each of the two is that
run with the token reworded. Since the handlers double no argument, the token is in at most one place
of the outcome, so there is only one in which the two runs can differ.
-/
import HgToGit.Proofs.Accounting
import HgToGit.Proofs.Effect
import HgToGit.Proofs.QuotedArgument

namespace HgToGit

open HgToGit.Token (isQuoted)

/-! ## Lists that differ in one place -/

/-- Two lists are the same, but that in one place the one may have `a` and the other one `b`. -/
def AgreeBut (a b : String) (l l' : List String) : Prop :=
  l = l' ∨ ∃ before after, l = before ++ a :: after ∧ l' = before ++ b :: after

theorem Rewording.map_replace_of_notMem {old new : String} {hold : isQuoted old = true}
    {hnew : isQuoted new = true} {l : List String} (h : old ∉ l) :
    l.map (replace old new hold hnew) = l := by
  have hfixed : ∀ token ∈ l, replace old new hold hnew token = token := by
    intro token htoken
    refine if_neg ?_
    rintro rfl
    exact h htoken
  rw [List.map_congr_left hfixed, List.map_id']

theorem Rewording.map_replace_append_cons {old new : String} {hold : isQuoted old = true}
    {hnew : isQuoted new = true} {before after : List String} (hbefore : old ∉ before)
    (hafter : old ∉ after) :
    (before ++ old :: after).map (replace old new hold hnew) = before ++ new :: after := by
  have hself : replace old new hold hnew old = new := if_pos rfl
  rw [List.map_append, List.map_cons, map_replace_of_notMem hbefore, map_replace_of_notMem hafter,
    hself]

/-- Two rewordings of a token that stands in one place at most differ there at most. -/
theorem agreeBut_map {old a b : String} {hold : isQuoted old = true} {ha : isQuoted a = true}
    {hb : isQuoted b = true} {l : List String} (h : l.count old ≤ 1) :
    AgreeBut a b (l.map (Rewording.replace old a hold ha))
      (l.map (Rewording.replace old b hold hb)) := by
  by_cases hmem : old ∈ l
  · obtain ⟨before, after, rfl⟩ := List.append_of_mem hmem
    rw [List.count_append, List.count_cons_self] at h
    have hbefore : old ∉ before := List.count_eq_zero.mp (by omega)
    have hafter : old ∉ after := List.count_eq_zero.mp (by omega)
    rw [Rewording.map_replace_append_cons hbefore hafter,
      Rewording.map_replace_append_cons hbefore hafter]
    exact Or.inr ⟨before, after, rfl, rfl⟩
  · rw [Rewording.map_replace_of_notMem hmem, Rewording.map_replace_of_notMem hmem]
    exact Or.inl rfl

/-- Some quoted token is none of these. -/
theorem Token.exists_isQuoted_notMem (l : List String) :
    ∃ token, isQuoted token = true ∧ token ∉ l := by
  refine ⟨String.ofList ('\x27' :: (l.map String.toList).flatten), ?_, ?_⟩
  · rw [isQuoted, String.toList_ofList]
    show isQuote '\x27' = true
    decide
  · intro hmem
    -- It is longer than all of them together.
    have hsub := List.sublist_flatten_of_mem (List.mem_map_of_mem (f := String.toList) hmem)
    have hlength := hsub.length_le
    rw [String.toList_ofList, List.length_cons] at hlength
    omega

/-! ## A quoted token is not doubled -/

namespace Handler

variable {inv line : Invocation} {command : Canonical} {token : String}

theorem rewriting_eq_iff (h : Handler) (htoken : isQuoted token = true) (arg : String) :
    h.rewriting arg = token ↔ arg = token := by
  cases h with
  | exportCommits | log => exact Revision.resolve_eq_iff htoken arg
  | _ => exact Iff.rfl

theorem Delegates.count_le {d : Declaration} (hd : d ∈ Registry.declarations)
    (hknown : ∀ flag, inv.options.get? flag ≠ none → flag ∈ d.flags)
    (h : d.handler.Delegates inv command line) (htoken : isQuoted token = true) :
    line.arguments.count token ≤ inv.arguments.count token := by
  have hcount : (inv.arguments.map d.handler.rewriting).count token = inv.arguments.count token := by
    rw [List.count, List.countP_map]
    refine List.countP_congr fun arg _ => ?_
    simpa using d.handler.rewriting_eq_iff htoken arg
  rw [← hcount, (h.accounts hd hknown).count_eq, List.count_append]
  exact Nat.le_add_right _ _

/-- The revisions of a rebase are the arguments of two flags. -/
theorem count_le_of_rebaseCall {destination base : String} (htoken : isQuoted token = true)
    (h : rebaseCall inv = .ok (.rebase destination base)) :
    [destination, base].count token ≤ inv.arguments.count token := by
  have hresolve : ∀ arg : String, [Revision.resolve arg].count token = [arg].count token := by
    intro arg
    simp only [List.count_singleton, beq_iff_eq, Revision.resolve_eq_iff htoken]
  have hhead : [Revision.head].count token = 0 := by
    rw [List.count_eq_zero, List.mem_singleton]
    rintro rfl
    exact absurd htoken (by decide)
  have hboth : inv.arguments.count token =
      (inv.optionArgs "-d").count token + ((inv.dropOption "-d").optionArgs "-b").count token +
        ((inv.dropOption "-d").dropOption "-b").arguments.count token := by
    rw [(arguments_perm_dropOption inv "-d").count_eq, List.count_append,
      (arguments_perm_dropOption (inv.dropOption "-d") "-b").count_eq, List.count_append,
      Nat.add_assoc]
  have hbase : (inv.dropOption "-d").optionArgs "-b" = inv.optionArgs "-b" := by
    rw [Invocation.optionArgs, Invocation.dropOption, TextMap.get?_erase, if_neg (by decide)]
    rfl
  rw [hbase] at hboth
  have hpair : ([destination] ++ [base]).count token =
      [destination].count token + [base].count token := List.count_append
  rw [List.singleton_append] at hpair
  unfold rebaseCall at h
  split at h
  · cases h
  · split at h
    · cases h
    · rename_i destination' hdestination
      split at h
      · cases h
        rw [hdestination] at hboth
        rw [hpair, hresolve, hhead]
        omega
      · rename_i base' hbase'
        cases h
        rw [hdestination, hbase'] at hboth
        rw [hpair, hresolve, hresolve]
        omega
      · cases h
    · cases h

end Handler

/-! ## Two runs -/

/-- What becomes of two lines is the same, but that in one place of the result the one may have `a`
and the other one `b`. -/
inductive SameBut (a b : String) (engine : Engine) :
    Except Failure Conversion × Engine → Except Failure Conversion × Engine → Prop where
  /-- Both are refused for causes of one kind, with messages of one key. -/
  | refused {e e' : Failure} : e.kind = e'.kind → e.message.key = e'.message.key →
      SameBut a b engine (.error e, engine) (.error e', engine)
  /-- Both become one canonical command, with as many arguments in every place. -/
  | delegated {name : String} {exempt : Bool} {vcs : Vcs} {command : Canonical}
      {options options' : Options} {general general' : List String}
      {warnings warnings' : List Message} :
      options.mapValues List.length = options'.mapValues List.length →
      general.length = general'.length →
      AgreeBut a b (TextMap.arguments options ++ general)
        (TextMap.arguments options' ++ general') →
      warnings.map (·.key) = warnings'.map (·.key) →
      SameBut a b engine
        (.ok ⟨name, exempt, .delegated vcs command options general, warnings⟩, engine)
        (.ok ⟨name, exempt, .delegated vcs command options' general', warnings'⟩, engine)
  /-- The engine performs one operation for each. -/
  | executed {name : String} {exempt : Bool} {destination base destination' base' : String}
      {warnings warnings' : List Message} :
      AgreeBut a b [destination, base] [destination', base'] →
      warnings.map (·.key) = warnings'.map (·.key) →
      SameBut a b engine
        (.ok ⟨name, exempt, .executed, warnings⟩,
          ⟨engine.calls ++ [.rebase destination base], engine.refusal⟩)
        (.ok ⟨name, exempt, .executed, warnings'⟩,
          ⟨engine.calls ++ [.rebase destination' base'], engine.refusal⟩)

/-- A line that is told back is refused in the same way as any other one. -/
theorem SameBut.unrecognized {a b : String} {engine : Engine} (line line' : String) :
    SameBut a b engine (.error (.unrecognized line), engine)
      (.error (.unrecognized line'), engine) :=
  .refused rfl rfl

namespace Registry

theorem isQuoted_eq_false_of_mem_flags {d : Declaration} (hd : d ∈ declarations) :
    ∀ flag ∈ d.flags, isQuoted flag = false := by
  have hall : ∀ d ∈ declarations, ∀ flag ∈ d.flags, isQuoted flag = false := by decide
  exact hall d hd

variable {a b hole : String} {before after : List String} {engine : Engine}

/-- A token that stands once among the arguments is at most once on the sorted line. -/
theorem count_arguments_le_one (known : List String) (name : String) (hbefore : hole ∉ before)
    (hafter : hole ∉ after) :
    (Invocation.ofArguments name
      (Arguments.parse known (before ++ hole :: after))).arguments.count hole ≤ 1 := by
  have hgiven := Arguments.parse_perm known (before ++ hole :: after)
  calc List.count hole (Invocation.ofArguments name
        (Arguments.parse known (before ++ hole :: after))).arguments
      = ((before ++ hole :: after).filter (· ∉ known)).count hole := hgiven.count_eq hole
    _ ≤ (before ++ hole :: after).count hole := List.filter_sublist.count_le hole
    _ = 1 := by
        rw [List.count_append, List.count_cons_self, List.count_eq_zero.mpr hbefore,
          List.count_eq_zero.mpr hafter]

/-- What is resolved with a hole is resolved in the same way however the hole is filled. -/
theorem resolve_fill {d : Definition} (hd : d ∈ builtin.definitions) (hhole : isQuoted hole = true)
    (hbefore : hole ∉ before) (hafter : hole ∉ after) {new : String} (hnew : isQuoted new = true) :
    SameFate (Resolution.Reworded (.replace hole new hhole hnew))
      (d.handler.resolve (.ofArguments d.name
        (Arguments.parse d.flags (before ++ hole :: after))))
      (d.handler.resolve (.ofArguments d.name
        (Arguments.parse d.flags (before ++ new :: after)))) := by
  have hflags := isQuoted_eq_false_of_mem_flags (mem_declarations hd)
  have hreworded := Invocation.Reworded.ofTokens (σ := .replace hole new hhole hnew) hflags d.name
    (before ++ hole :: after)
  rw [Rewording.map_replace_append_cons hbefore hafter] at hreworded
  exact d.handler.reworded_resolve hreworded

/-- A definition makes the same of arguments that differ in one quoted token. -/
theorem sameBut_ofArguments {d : Definition} (hd : d ∈ builtin.definitions)
    (ha : isQuoted a = true) (hb : isQuoted b = true) (before after : List String) :
    SameBut a b engine
      (Conversion.ofArguments d (Arguments.parse d.flags (before ++ a :: after)) engine)
      (Conversion.ofArguments d (Arguments.parse d.flags (before ++ b :: after)) engine) := by
  obtain ⟨hole, hhole, hfresh⟩ := Token.exists_isQuoted_notMem (before ++ after)
  rw [List.mem_append, not_or] at hfresh
  obtain ⟨hbefore, hafter⟩ := hfresh
  have hcount := count_arguments_le_one d.flags d.name hbefore hafter
  have hfillA := resolve_fill hd hhole hbefore hafter ha
  have hfillB := resolve_fill hd hhole hbefore hafter hb
  unfold Conversion.ofArguments
  cases hresolve : d.handler.resolve (.ofArguments d.name
      (Arguments.parse d.flags (before ++ hole :: after))) with
  | error e =>
      rw [hresolve] at hfillA hfillB
      rw [hfillA.eq_error, hfillB.eq_error]
      exact .refused rfl rfl
  | ok resolution =>
      rw [hresolve] at hfillA hfillB
      obtain ⟨resolutionA, heqA, hA⟩ := hfillA.exists_eq_ok
      obtain ⟨resolutionB, heqB, hB⟩ := hfillB.exists_eq_ok
      rw [heqA, heqB]
      cases hA with
      | delegated command hA =>
          cases hB with
          | delegated _ hB =>
              have hdelegates := Handler.delegates_of_resolve hresolve
              have hone := (hdelegates.count_le (mem_declarations hd)
                (fun _ => Arguments.mem_known_of_get?_parse) hhole).trans hcount
              refine .delegated (hA.length.1.trans hB.length.1.symm)
                (hA.length.2.trans hB.length.2.symm) ?_ (hA.warnings.trans hB.warnings.symm)
              rw [hA.arguments, hB.arguments]
              exact agreeBut_map hone
      | direct destination base hA =>
          cases hB with
          | direct _ _ hB =>
              have hcall := Handler.rebaseCall_of_resolve hresolve
              have hone := (Handler.count_le_of_rebaseCall hhole hcall).trans hcount
              obtain ⟨calls, refusal⟩ := engine
              cases refusal with
              | some reason => exact .refused rfl rfl
              | none => exact .executed (agreeBut_map hone) (hA.warnings.trans hB.warnings.symm)

variable {p s content content' : String} {q : Char}

/-- A recognized line is recognized with any quoted content, as the same command. -/
theorem exists_recognize_requote (hp : (Token.scan .gap p.toList).2 = .gap)
    (hq : Token.isQuote q = true) (hcontent : q ∉ content.toList) (hcontent' : q ∉ content'.toList)
    {d : Definition} {a : Arguments}
    (h : builtin.recognize (p ++ Token.quoted q content ++ s) = .ok (d, a)) :
    ∃ before after,
      builtin.recognize (p ++ Token.quoted q content ++ s) = .ok (d, Arguments.parse d.flags
        (before ++ (Token.quoted q content ++ Token.upToBlank s) :: after)) ∧
      builtin.recognize (p ++ Token.quoted q content' ++ s) = .ok (d, Arguments.parse d.flags
        (before ++ (Token.quoted q content' ++ Token.upToBlank s) :: after)) := by
  obtain ⟨hd, args, hnames, -⟩ := names_of_recognize h
  obtain ⟨before, after, hall⟩ := names_requote hp hq hcontent hnames
  exact ⟨before, after, recognize_eq_ok_iff.mpr ⟨hd, _, hall content hcontent, rfl⟩,
    recognize_eq_ok_iff.mpr ⟨hd, _, hall content' hcontent', rfl⟩⟩

/-- **The content of a quoted argument cannot change what a line does.** Where a line has come to
the end of a token, two quoted runs with different content are followed by the same fate: a refusal
of one kind, one canonical command with the same flags and as many arguments of each, or one
operation of the engine. No argument differs but the one that has the quoted run. -/
theorem convert_quoted (hp : (Token.scan .gap p.toList).2 = .gap) (hq : Token.isQuote q = true)
    (hcontent : q ∉ content.toList) (hcontent' : q ∉ content'.toList) (engine : Engine) :
    SameBut (Token.quoted q content ++ Token.upToBlank s)
      (Token.quoted q content' ++ Token.upToBlank s) engine
      (builtin.convert (p ++ Token.quoted q content ++ s) engine)
      (builtin.convert (p ++ Token.quoted q content' ++ s) engine) := by
  cases h : builtin.recognize (p ++ Token.quoted q content ++ s) with
  | ok found =>
      obtain ⟨d, a⟩ := found
      obtain ⟨hd, -⟩ := names_of_recognize h
      obtain ⟨before, after, hline, hline'⟩ := exists_recognize_requote hp hq hcontent hcontent' h
      simp only [convert, hline, hline']
      exact sameBut_ofArguments hd (Token.isQuoted_quoted_append hq content _)
        (Token.isQuoted_quoted_append hq content' _) before after
  | error e =>
      cases h' : builtin.recognize (p ++ Token.quoted q content' ++ s) with
      | ok found =>
          obtain ⟨d, a⟩ := found
          obtain ⟨_, _, -, hline⟩ := exists_recognize_requote hp hq hcontent' hcontent h'
          cases h.symm.trans hline
      | error e' =>
          obtain ⟨-, rfl⟩ := recognize_eq_error_iff_unmatched.mp h
          obtain ⟨-, rfl⟩ := recognize_eq_error_iff_unmatched.mp h'
          simp only [convert, h, h']
          exact .unrecognized _ _

/-- A quoted name that reads like a flag and a revision at the dot is still one name. -/
theorem convert_quoted_flag_in_quotes :
    ((builtin.convert "hg book 'a' -f" .new).1.toOption.map (·.outcome) =
      some (.delegated .git .checkout (.singleton "-b" ["'a'"]) [])) ∧
    SameBut "'a'" "'-d .~1'" .new (builtin.convert "hg book 'a' -f" .new)
      (builtin.convert "hg book '-d .~1' -f" .new) := by
  refine ⟨by decide +kernel, ?_⟩
  have hline : "hg book " ++ Token.quoted '\x27' "a" ++ " -f" = "hg book 'a' -f" := by decide
  have hline' : "hg book " ++ Token.quoted '\x27' "-d .~1" ++ " -f" =
      "hg book '-d .~1' -f" := by decide
  have htoken : Token.quoted '\x27' "a" ++ Token.upToBlank " -f" = "'a'" := by decide
  have htoken' : Token.quoted '\x27' "-d .~1" ++ Token.upToBlank " -f" = "'-d .~1'" := by decide
  have hgap : (Token.scan .gap "hg book ".toList).2 = .gap := by decide
  have hsame := convert_quoted (s := " -f") hgap (by decide : Token.isQuote '\x27' = true)
    (by decide : '\x27' ∉ "a".toList) (by decide : '\x27' ∉ "-d .~1".toList) .new
  rw [hline, hline', htoken, htoken'] at hsame
  exact hsame

end Registry

end HgToGit
