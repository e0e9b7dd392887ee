/-
# HgToGit.Proofs.Rewording -- tokens that begin with a quote are only carried along

No flag begins with a quote and no revision at the dot does, so nothing that a line is asked for
depends on which quoted tokens it has. A rewording puts other quoted tokens in their place. Sorting
a reworded line and handling it gives what the line gives, reworded: the same refusal, or the same
command with the same flags (`Handler.reworded_resolve`). An advisory may quote the tokens, so of
advisories only the keys are the same.

The law is shown for each operation on a line (`Invocation.Reworded`) and composed along the
handlers.
-/
import HgToGit.Proofs.ArgumentGroups
import HgToGit.Handler

namespace HgToGit

/-! ## Rewordings -/

/-- Whether a token begins with a quote. -/
def Token.isQuoted (token : String) : Bool := token.toList.head?.any isQuote

/-- Other quoted tokens in place of quoted tokens. -/
structure Rewording where
  /-- What stands in place of a token. -/
  toFun : String → String
  /-- A token without a quote in front stays. -/
  fixed : ∀ token, Token.isQuoted token = false → toFun token = token
  /-- A quoted token becomes a quoted token. -/
  quoted : ∀ token, Token.isQuoted token = true → Token.isQuoted (toFun token) = true

instance : CoeFun Rewording fun _ => String → String := ⟨Rewording.toFun⟩

/-- One quoted token in place of another one. -/
def Rewording.replace (old new : String) (hold : Token.isQuoted old = true)
    (hnew : Token.isQuoted new = true) : Rewording where
  toFun token := if token = old then new else token
  fixed := by
    intro token htoken
    rw [if_neg]
    rintro rfl
    exact absurd (hold.symm.trans htoken) (by decide)
  quoted := by
    intro token htoken
    split
    · exact hnew
    · exact htoken

variable {σ : Rewording}

namespace Rewording

theorem mem_iff {known : List String} (hknown : ∀ flag ∈ known, Token.isQuoted flag = false)
    (token : String) : σ token ∈ known ↔ token ∈ known := by
  cases htoken : Token.isQuoted token with
  | false => rw [σ.fixed token htoken]
  | true =>
      have hnot : ∀ token, Token.isQuoted token = true → token ∉ known := by
        intro token htoken hmem
        exact absurd (htoken.symm.trans (hknown token hmem)) (by decide)
      exact iff_of_false (hnot _ (σ.quoted token htoken)) (hnot token htoken)

end Rewording

namespace Revision

theorem resolve_of_isQuoted {arg : String} (h : Token.isQuoted arg = true) : resolve arg = arg := by
  have hnone : afterDot? arg = none := by
    unfold afterDot?
    split
    · rename_i suffix harg
      rw [Token.isQuoted, harg] at h
      have hdot : Token.isQuote '.' = true := h
      exact absurd hdot (by decide)
    · rfl
  rw [resolve, hnone]

theorem isQuoted_resolve (arg : String) : Token.isQuoted (resolve arg) = Token.isQuoted arg := by
  cases hquoted : Token.isQuoted arg with
  | true => rw [resolve_of_isQuoted hquoted, hquoted]
  | false =>
      unfold resolve
      split
      · simp [Token.isQuoted, head]
        decide
      · exact hquoted

/-- A quoted token is made of no other one. -/
theorem resolve_eq_iff {token : String} (htoken : Token.isQuoted token = true) (arg : String) :
    resolve arg = token ↔ arg = token := by
  constructor
  · rintro rfl
    exact (resolve_of_isQuoted ((isQuoted_resolve arg).symm.trans htoken)).symm
  · rintro rfl
    exact resolve_of_isQuoted htoken

/-- A revision is rooted at the head in the same way before and after a rewording. -/
theorem resolve_reword (arg : String) : resolve (σ arg) = σ (resolve arg) := by
  cases hquoted : Token.isQuoted arg with
  | true => rw [resolve_of_isQuoted hquoted, resolve_of_isQuoted (σ.quoted arg hquoted)]
  | false => rw [σ.fixed arg hquoted, σ.fixed _ ((isQuoted_resolve arg).trans hquoted)]

end Revision

/-! ## Sorting a reworded line -/

namespace Arguments

/-- Sorting a reworded line is rewording the sorted line. -/
theorem parse_reword {known : List String}
    (hknown : ∀ flag ∈ known, Token.isQuoted flag = false) (tokens : List String) :
    parse known (tokens.map σ) =
      ⟨(parse known tokens).options.mapValues (List.map σ), (parse known tokens).general.map σ⟩ :=
  parse_map (Rewording.mem_iff hknown) (fun flag hflag => σ.fixed flag (hknown flag hflag)) tokens

end Arguments

/-! ## Working on a reworded line -/

/-- A line and the same line reworded. Of the advisories only the keys count. -/
structure Invocation.Reworded (σ : Rewording) (line line' : Invocation) : Prop where
  command : line'.command = line.command
  options : line'.options = line.options.mapValues (List.map σ)
  general : line'.general = line.general.map σ
  warnings : line'.warnings.map (·.key) = line.warnings.map (·.key)

namespace Invocation.Reworded

variable {line line' : Invocation}

theorem get? (h : Reworded σ line line') (flag : String) :
    line'.options.get? flag = (line.options.get? flag).map (List.map σ) := by
  rw [h.options, TextMap.get?_mapValues]

theorem hasOption (h : Reworded σ line line') (flag : String) :
    line'.hasOption flag = line.hasOption flag := by
  show (line'.options.get? flag).isSome = (line.options.get? flag).isSome
  rw [h.get? flag, Option.isSome_map]

theorem optionArgs (h : Reworded σ line line') (flag : String) :
    line'.optionArgs flag = (line.optionArgs flag).map σ := by
  rw [Invocation.optionArgs, Invocation.optionArgs, h.get? flag]
  cases line.options.get? flag <;> rfl

theorem isEmpty_general (h : Reworded σ line line') :
    line'.general.isEmpty = line.general.isEmpty := by
  rw [h.general, List.isEmpty_map]

theorem dropOption (h : Reworded σ line line') (flag : String) :
    Reworded σ (line.dropOption flag) (line'.dropOption flag) := by
  refine ⟨h.command, ?_, h.general, h.warnings⟩
  show line'.options.erase flag = (line.options.erase flag).mapValues (List.map σ)
  rw [h.options, TextMap.erase_mapValues]

theorem setOption (h : Reworded σ line line') (flag : String) (args : List String) :
    Reworded σ (line.setOption flag args) (line'.setOption flag (args.map σ)) := by
  refine ⟨h.command, ?_, h.general, h.warnings⟩
  show line'.options.insert flag (args.map σ) =
    (line.options.insert flag args).mapValues (List.map σ)
  rw [h.options, TextMap.insert_mapValues]

theorem setGeneral (h : Reworded σ line line') (args : List String) :
    Reworded σ (line.setGeneral args) (line'.setGeneral (args.map σ)) :=
  ⟨h.command, h.options, rfl, h.warnings⟩

theorem setSingleton (h : Reworded σ line line') (flag : String) (args : List String) :
    Reworded σ (line.setOptions (.singleton flag args))
      (line'.setOptions (.singleton flag (args.map σ))) :=
  ⟨h.command, TextMap.insert_mapValues (List.map σ) .empty flag args, h.general, h.warnings⟩

theorem resolveDots (h : Reworded σ line line') :
    Reworded σ line.resolveDots line'.resolveDots := by
  have hcomp : Revision.resolve ∘ σ = σ ∘ Revision.resolve := funext Revision.resolve_reword
  have hargs : ∀ args : List String,
      (args.map σ).map Revision.resolve = (args.map Revision.resolve).map σ := by
    intro args
    rw [List.map_map, List.map_map, hcomp]
  refine ⟨h.command, ?_, ?_, h.warnings⟩
  · show line'.options.mapValues (List.map Revision.resolve) =
      (line.options.mapValues (List.map Revision.resolve)).mapValues (List.map σ)
    apply TextMap.ext_get?
    intro flag
    simp only [h.options, TextMap.get?_mapValues, Option.map_map]
    congr 1
    exact funext hargs
  · show line'.general.map Revision.resolve = (line.general.map Revision.resolve).map σ
    rw [h.general, hargs]

theorem warn (h : Reworded σ line line') {m m' : Message} (hkey : m'.key = m.key) :
    Reworded σ (line.warn m) (line'.warn m') := by
  refine ⟨h.command, h.options, h.general, ?_⟩
  show (line'.warnings ++ [m']).map (·.key) = (line.warnings ++ [m]).map (·.key)
  rw [List.map_append, List.map_append, h.warnings, List.map_singleton, List.map_singleton, hkey]

/-- The arguments of a reworded line are those of the line, reworded. -/
theorem arguments (h : Reworded σ line line') :
    TextMap.arguments line'.options ++ line'.general =
      (TextMap.arguments line.options ++ line.general).map σ := by
  rw [h.options, h.general, TextMap.arguments_mapValues, List.map_append]

/-- A rewording leaves as many arguments in every place. -/
theorem length (h : Reworded σ line line') :
    line'.options.mapValues List.length = line.options.mapValues List.length ∧
      line'.general.length = line.general.length := by
  constructor
  · apply TextMap.ext_get?
    intro flag
    rw [TextMap.get?_mapValues, TextMap.get?_mapValues, h.get? flag]
    cases line.options.get? flag with
    | none => rfl
    | some args => simp
  · rw [h.general, List.length_map]

theorem ofTokens {known : List String}
    (hknown : ∀ flag ∈ known, Token.isQuoted flag = false) (name : String) (tokens : List String) :
    Reworded σ (.ofArguments name (Arguments.parse known tokens))
      (.ofArguments name (Arguments.parse known (tokens.map σ))) := by
  rw [Arguments.parse_reword hknown]
  exact ⟨rfl, rfl, rfl, rfl⟩

end Invocation.Reworded

/-! ## Handling a reworded line -/

/-- Two decisions refuse for one reason, or decide on what is related. -/
inductive SameFate {α : Type} (R : α → α → Prop) : Except Failure α → Except Failure α → Prop where
  | refused (e : Failure) : SameFate R (.error e) (.error e)
  | decided {a a' : α} : R a a' → SameFate R (.ok a) (.ok a')

theorem SameFate.map {α β : Type} {R : α → α → Prop} {S : β → β → Prop} {f f' : α → β}
    {decision decision' : Except Failure α} (h : SameFate R decision decision')
    (hf : ∀ a a', R a a' → S (f a) (f' a')) : SameFate S (decision.map f) (decision'.map f') := by
  cases h with
  | refused e => exact .refused e
  | decided h => exact .decided (hf _ _ h)

theorem SameFate.eq_error {α : Type} {R : α → α → Prop} {e : Failure}
    {decision : Except Failure α} (h : SameFate R (.error e) decision) : decision = .error e := by
  cases h with
  | refused => rfl

theorem SameFate.exists_eq_ok {α : Type} {R : α → α → Prop} {a : α}
    {decision : Except Failure α} (h : SameFate R (.ok a) decision) :
    ∃ a', decision = .ok a' ∧ R a a' := by
  cases h with
  | decided h => exact ⟨_, rfl, h⟩

/-- A resolution and the same resolution reworded. -/
inductive Resolution.Reworded (σ : Rewording) : Resolution → Resolution → Prop where
  | delegated {line line' : Invocation} (command : Canonical) : line.Reworded σ line' →
      Reworded σ (.delegated command line) (.delegated command line')
  | direct {line line' : Invocation} (destination base : String) : line.Reworded σ line' →
      Reworded σ (.direct (.rebase destination base) line)
        (.direct (.rebase (σ destination) (σ base)) line')

namespace Handler

open Invocation (Reworded)

variable {inv inv' : Invocation}

theorem reworded_commitLine (h : inv.Reworded σ inv') :
    (commitLine inv).Reworded σ (commitLine inv') := by
  unfold commitLine
  rw [h.hasOption]
  split
  · exact (h.dropOption "-A").warn rfl
  · exact h

theorem reworded_graftLine (h : inv.Reworded σ inv') :
    SameFate (Reworded σ) (graftLine inv) (graftLine inv') := by
  unfold graftLine
  rw [h.optionArgs]
  cases inv.optionArgs "-r" with
  | nil => exact .refused _
  | cons revision more =>
      refine .decided (Reworded.setGeneral (Reworded.dropOption ?_ "-r") _)
      rw [h.isEmpty_general]
      split
      · exact h
      · exact h.warn rfl

theorem reworded_logLine (h : inv.Reworded σ inv') :
    SameFate (Reworded σ) (logLine inv) (logLine inv') := by
  unfold logLine Invocation.refuseGeneral
  rw [h.isEmpty_general]
  cases inv.general.isEmpty with
  | false => exact .refused _
  | true =>
      rw [h.get?]
      cases inv.options.get? "-f" with
      | none => exact .refused _
      | some revisions => exact .decided ((h.dropOption "-f").setGeneral revisions).resolveDots

theorem reworded_histeditLine (h : inv.Reworded σ inv') :
    SameFate (Reworded σ) (histeditLine inv) (histeditLine inv') := by
  have hcheck : inv'.checkGeneral 1 1 = inv.checkGeneral 1 1 := by
    unfold Invocation.checkGeneral Invocation.generalPhrase
    rw [h.general, List.length_map, h.command]
  unfold histeditLine
  rw [hcheck]
  split
  · exact .refused _
  · rw [h.general]
    exact .decided ((h.setSingleton "-i" inv.general).setGeneral [])

theorem reworded_bookmarkAtRevision (h : inv.Reworded σ inv') :
    SameFate (Reworded σ) (bookmarkAtRevision inv) (bookmarkAtRevision inv') := by
  unfold bookmarkAtRevision
  rw [h.optionArgs, h.general, ← List.map_append]
  match inv.optionArgs "-r" ++ inv.general with
  | [] => exact .decided h
  | [_] => exact .refused _
  | [revision, name] => exact .decided ((h.dropOption "-r").setGeneral [name, revision])
  | _ :: _ :: _ :: _ => exact .refused _

theorem reworded_bookmarkHere (h : inv.Reworded σ inv') (name : String) (others : List String) :
    (bookmarkHere inv name others).Reworded σ (bookmarkHere inv' (σ name) (others.map σ)) := by
  unfold bookmarkHere
  refine Reworded.setGeneral (Reworded.setSingleton ?_ "-b" [name]) []
  rw [List.isEmpty_map]
  split
  · exact h
  · exact h.warn rfl

theorem reworded_bookmarkLine (h : inv.Reworded σ inv') :
    SameFate (fun result result' => result'.1 = result.1 ∧ result.2.Reworded σ result'.2)
      (bookmarkLine inv) (bookmarkLine inv') := by
  have hflags : (exclusiveFlags.find? fun pair => inv'.hasOption pair.1 && inv'.hasOption pair.2) =
      exclusiveFlags.find? fun pair => inv.hasOption pair.1 && inv.hasOption pair.2 := by
    simp only [h.hasOption]
  unfold bookmarkLine
  rw [hflags]
  split
  · exact .refused _
  · rw [h.get? "-m", h.get? "-d", h.hasOption]
    cases inv.options.get? "-m" with
    | some names =>
        refine .decided ⟨rfl, ?_⟩
        have hmerged := (h.setOption "-m" (names ++ inv.general)).setGeneral []
        rw [List.map_append, ← h.general] at hmerged
        exact hmerged
    | none =>
        cases inv.options.get? "-d" with
        | some names =>
            simp only [Option.map_some, List.isEmpty_map, h.isEmpty_general]
            split
            · exact .decided ⟨rfl, h⟩
            · exact .decided ⟨rfl, (h.dropOption "-d").setOption "-D" names⟩
        | none =>
            simp only [Option.map_none]
            split
            · exact (reworded_bookmarkAtRevision h).map fun _ _ hline => ⟨rfl, hline⟩
            · rw [h.general]
              cases inv.general with
              | nil => exact .decided ⟨rfl, h⟩
              | cons name others => exact .decided ⟨rfl, reworded_bookmarkHere h name others⟩

theorem reworded_rebaseCall (h : inv.Reworded σ inv') :
    SameFate (fun result result' => Resolution.Reworded σ (.direct result inv) (.direct result' inv'))
      (rebaseCall inv) (rebaseCall inv') := by
  have hcheck : checkRebaseFlags inv' = checkRebaseFlags inv := by
    unfold checkRebaseFlags
    rw [h.hasOption, h.hasOption]
  have hphrase : ∀ flag, inv'.optionPhrase flag = inv.optionPhrase flag := by
    intro flag
    rw [Invocation.optionPhrase, Invocation.optionPhrase, h.command]
  have hhead : σ Revision.head = Revision.head := σ.fixed _ (by decide)
  unfold rebaseCall
  rw [hcheck]
  split
  · exact .refused _
  · rw [h.optionArgs "-d", h.optionArgs "-b", hphrase, hphrase]
    match inv.optionArgs "-d" with
    | [] => exact .refused _
    | _ :: _ :: _ => exact .refused _
    | [destination] =>
        match inv.optionArgs "-b" with
        | _ :: _ :: _ => exact .refused _
        | [] =>
            have hcall := Resolution.Reworded.direct (Revision.resolve destination) Revision.head h
            rw [← Revision.resolve_reword, hhead] at hcall
            exact .decided hcall
        | [base] =>
            have hcall := Resolution.Reworded.direct (Revision.resolve destination)
              (Revision.resolve base) h
            rw [← Revision.resolve_reword, ← Revision.resolve_reword] at hcall
            exact .decided hcall

/-- **A handler resolves a reworded line as it resolves the line.** -/
theorem reworded_resolve (handler : Handler) (h : inv.Reworded σ inv') :
    SameFate (Resolution.Reworded σ) (handler.resolve inv) (handler.resolve inv') := by
  have hdelegate : ∀ command {decision decision' : Except Failure Invocation},
      SameFate (Reworded σ) decision decision' →
      SameFate (Resolution.Reworded σ) (delegate command decision) (delegate command decision') :=
    fun command _ _ hfate => hfate.map fun _ _ hline => .delegated command hline
  cases handler with
  | commit => exact .decided (.delegated .commit (reworded_commitLine h))
  | status => exact .refused _
  | exportCommits => exact .decided (.delegated .showCommit h.resolveDots)
  | graft => exact hdelegate .cherryPick (reworded_graftLine h)
  | log => exact hdelegate .log (reworded_logLine h)
  | bookmark =>
      refine (reworded_bookmarkLine h).map ?_
      rintro ⟨command, line⟩ ⟨command', line'⟩ ⟨hcommand, hline⟩
      obtain rfl : command' = command := hcommand
      exact .delegated command' hline
  | rebase => exact (reworded_rebaseCall h).map fun _ _ hcall => hcall
  | update => exact .decided (.delegated .checkout h)
  | backout => exact .decided (.delegated .revert h)
  | histedit => exact hdelegate .rebase (reworded_histeditLine h)
  | pull => exact .decided (.delegated .pull h)
  | summary => exact .decided (.delegated .branch h)

end Handler

end HgToGit
