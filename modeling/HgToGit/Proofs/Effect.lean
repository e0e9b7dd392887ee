/-
# HgToGit.Proofs.Effect -- what a line does to the engine

A handler decides without an engine, so a line has one of three fates whatever the engine is like:
it is refused, it becomes a canonical command, or it asks the engine for one operation
(`Registry.convert_fate`). Only in the last case does the engine matter, and only there can it
change. The theorems about single lines and about runs of lines follow from the fates and never
look at a handler again.

That the fates are exhaustive needs two facts about the handlers: none of them fails in the name of
the engine, and the operation that one of them asks for names no revision relative to the dot.
-/
import HgToGit.Conversion
import HgToGit.Proofs.DotRevision
import HgToGit.Proofs.RegistryTable

namespace HgToGit

/-- The revisions of an operation are not written relative to the dot. -/
def EngineCall.AvoidsDot : EngineCall → Prop
  | .rebase destination base => Revision.AvoidsDot destination ∧ Revision.AvoidsDot base

/-! ## Handlers decide without the engine -/

/-- A decision that is not refused in the name of the engine. -/
def Failure.Own {α : Type} (decision : Except Failure α) : Prop :=
  ∀ e, decision = .error e → e.kind ≠ .engineFailure

/-- A decision that is refused, if at all, for what is on a line: neither because the line is no
command of the table nor in the name of the engine. -/
def Failure.ByHandler {α : Type} (decision : Except Failure α) : Prop :=
  ∀ e, decision = .error e → e.kind ≠ .unrecognizedCommand ∧ e.kind ≠ .engineFailure

namespace Failure.ByHandler

variable {α β : Type}

theorem ok (a : α) : ByHandler (.ok a : Except Failure α) := by
  intro e h
  cases h

theorem error {e : Failure} (he : e.kind ≠ .unrecognizedCommand ∧ e.kind ≠ .engineFailure) :
    ByHandler (.error e : Except Failure α) := by
  intro e' h
  cases h
  exact he

theorem map {decision : Except Failure α} (h : ByHandler decision) (f : α → β) :
    ByHandler (decision.map f) := by
  cases decision with
  | ok a => exact ok (f a)
  | error e => exact error (h e rfl)

theorem checkBounds (count min max : Nat) (what : String) :
    ByHandler (Failure.checkBounds count min max what) := by
  unfold Failure.checkBounds
  split
  · exact error ⟨nofun, nofun⟩
  · split
    · exact error ⟨nofun, nofun⟩
    · exact ok ()

end Failure.ByHandler

namespace Handler

open Failure (ByHandler Own)

theorem byHandler_graftLine (inv : Invocation) : ByHandler (graftLine inv) := by
  unfold graftLine
  split
  · exact .error ⟨nofun, nofun⟩
  · exact .ok _

theorem byHandler_logLine (inv : Invocation) : ByHandler (logLine inv) := by
  unfold logLine Invocation.refuseGeneral
  split
  · rename_i e he
    split at he
    · cases he
    · cases he
      exact .error ⟨nofun, nofun⟩
  · split
    · exact .error ⟨nofun, nofun⟩
    · exact .ok _

theorem byHandler_histeditLine (inv : Invocation) : ByHandler (histeditLine inv) := by
  unfold histeditLine
  split
  · rename_i e he
    exact .error (ByHandler.checkBounds _ _ _ _ e he)
  · exact .ok _

theorem byHandler_bookmarkAtRevision (inv : Invocation) : ByHandler (bookmarkAtRevision inv) := by
  unfold bookmarkAtRevision
  split
  · exact .ok _
  · exact .error ⟨nofun, nofun⟩
  · exact .ok _
  · exact .error ⟨nofun, nofun⟩

theorem byHandler_bookmarkLine (inv : Invocation) : ByHandler (bookmarkLine inv) := by
  unfold bookmarkLine
  split
  · exact .error ⟨nofun, nofun⟩
  · split
    · exact .ok _
    · split
      · split
        · exact .ok _
        · exact .ok _
      · split
        · exact (byHandler_bookmarkAtRevision inv).map _
        · split
          · exact .ok _
          · exact .ok _

theorem byHandler_checkRebaseFlags (inv : Invocation) : ByHandler (checkRebaseFlags inv) := by
  unfold checkRebaseFlags
  split
  · exact .error ⟨nofun, nofun⟩
  · exact .error ⟨nofun, nofun⟩
  · exact .error ⟨nofun, nofun⟩
  · exact .ok _

theorem byHandler_rebaseCall (inv : Invocation) : ByHandler (rebaseCall inv) := by
  unfold rebaseCall
  split
  · rename_i e he
    exact .error (byHandler_checkRebaseFlags inv e he)
  · split
    · exact .error ⟨nofun, nofun⟩
    · split
      · exact .ok _
      · exact .ok _
      · exact .error ⟨nofun, nofun⟩
    · exact .error ⟨nofun, nofun⟩

/-- A handler refuses a line for what is on it only. -/
theorem byHandler_resolve (h : Handler) (inv : Invocation) : ByHandler (h.resolve inv) := by
  cases h with
  | status => exact .error ⟨nofun, nofun⟩
  | graft => exact (byHandler_graftLine inv).map _
  | log => exact (byHandler_logLine inv).map _
  | bookmark => exact (byHandler_bookmarkLine inv).map _
  | rebase => exact (byHandler_rebaseCall inv).map _
  | histedit => exact (byHandler_histeditLine inv).map _
  | commit | exportCommits | update | backout | pull | summary => exact .ok _

/-- No handler refuses a line in the name of the engine. -/
theorem own_resolve (h : Handler) (inv : Invocation) : Own (h.resolve inv) :=
  fun e he => (byHandler_resolve h inv e he).2

theorem avoidsDot_of_rebaseCall {inv : Invocation} {call : EngineCall}
    (h : rebaseCall inv = .ok call) : call.AvoidsDot := by
  unfold rebaseCall at h
  split at h
  · cases h
  · split at h
    · cases h
    · split at h
      · cases h
        exact ⟨Revision.avoidsDot_resolve _, Revision.avoidsDot_head⟩
      · cases h
        exact ⟨Revision.avoidsDot_resolve _, Revision.avoidsDot_resolve _⟩
      · cases h
    · cases h

theorem map_delegated_ne_direct {α : Type} (decision : Except Failure α) (command : α → Canonical)
    (line : α → Invocation) {call : EngineCall} {inv : Invocation} :
    (decision.map fun a => Resolution.delegated (command a) (line a)) ≠ .ok (.direct call inv) := by
  cases decision <;> simp [Except.map]

/-- Only a rebase asks for an operation. -/
theorem rebaseCall_of_resolve {h : Handler} {inv line : Invocation} {call : EngineCall}
    (hr : h.resolve inv = .ok (.direct call line)) : rebaseCall inv = .ok call := by
  cases h with
  | rebase =>
      unfold resolve at hr
      cases hcall : rebaseCall inv with
      | error e => simp [hcall, Except.map] at hr
      | ok call' =>
          simp only [hcall, Except.map, Except.ok.injEq, Resolution.direct.injEq] at hr
          rw [hr.1]
  | graft | log | histedit | bookmark => exact absurd hr (map_delegated_ne_direct _ _ _)
  | commit | status | exportCommits | update | backout | pull | summary => cases hr

/-- An operation that a handler asks for names no revision relative to the dot. -/
theorem avoidsDot_of_resolve {h : Handler} {inv line : Invocation} {call : EngineCall}
    (hr : h.resolve inv = .ok (.direct call line)) : call.AvoidsDot :=
  avoidsDot_of_rebaseCall (rebaseCall_of_resolve hr)

end Handler

/-! ## The fate of a line -/

namespace Registry

/-- What becomes of a line on any engine: it is refused, it becomes a canonical command, or the
engine is asked for one operation, and then the answer of the engine decides. -/
inductive Fate (convert : Engine → Except Failure Conversion × Engine) : Prop where
  /-- The line is refused, and not in the name of the engine. -/
  | refused (e : Failure) : e.kind ≠ .engineFailure →
      (∀ engine, convert engine = (.error e, engine)) → Fate convert
  /-- The line becomes a canonical command. -/
  | delegated (c : Conversion) : c.outcome ≠ .executed →
      (∀ engine, convert engine = (.ok c, engine)) → Fate convert
  /-- The engine is asked for an operation. -/
  | direct (c : Conversion) (call : EngineCall) : c.outcome = .executed → call.AvoidsDot →
      (∀ engine, convert engine = ((engine.perform call).1.map fun _ => c,
        (engine.perform call).2)) → Fate convert

theorem convert_fate (r : Registry) (line : String) : Fate (r.convert line) := by
  cases hrecognize : r.recognize line with
  | error e =>
      obtain ⟨-, rfl⟩ := recognize_eq_error_iff_unmatched.mp hrecognize
      refine .refused (.unrecognized (Text.trim line)) ?_ ?_
      · rintro ⟨⟩
      · intro engine
        rw [convert, hrecognize]
  | ok found =>
      obtain ⟨d, a⟩ := found
      cases hresolve : d.handler.resolve (Invocation.ofArguments d.name a) with
      | error e =>
          refine .refused e (Handler.own_resolve _ _ e hresolve) fun engine => ?_
          rw [convert_of_recognize hrecognize, Conversion.ofArguments_of_refused hresolve]
      | ok resolution =>
          cases resolution with
          | delegated command line =>
              refine .delegated ⟨d.name, d.exemptFromGolf,
                .delegated .git command line.options line.general, line.warnings⟩ ?_ ?_
              · rintro ⟨⟩
              · intro engine
                rw [convert_of_recognize hrecognize, Conversion.ofArguments_of_delegated hresolve]
          | direct call line =>
              refine .direct ⟨d.name, d.exemptFromGolf, .executed, line.warnings⟩ call rfl
                (Handler.avoidsDot_of_resolve hresolve) fun engine => ?_
              rw [convert_of_recognize hrecognize, Conversion.ofArguments_of_direct hresolve]

/-- Whatever a line does to an engine, it logs no revision relative to the dot. -/
theorem exists_calls_avoidsDot (r : Registry) (line : String) (engine : Engine) :
    ∃ calls, (r.convert line engine).2.calls = engine.calls ++ calls ∧
      ∀ call ∈ calls, call.AvoidsDot := by
  cases convert_fate r line with
  | refused e _ hconvert => exact ⟨[], by simp [hconvert], by simp⟩
  | delegated c _ hconvert => exact ⟨[], by simp [hconvert], by simp⟩
  | direct c call _ hcall hconvert =>
      rw [hconvert]
      obtain ⟨log, refusal⟩ := engine
      cases refusal with
      | some reason => exact ⟨[], by simp [Engine.perform], by simp⟩
      | none => exact ⟨[call], rfl, by simpa using hcall⟩

/-- An engine performs an operation for a line. -/
def Executes (r : Registry) (line : String) (engine : Engine) : Prop :=
  ∃ c, (r.convert line engine).1 = .ok c ∧ c.outcome = .executed

/-- **A refused line has no effect, and an executed one has exactly one.** Whatever the registry,
the engine and the line are, the engine changes only if the line is executed, and then by one
operation at the end of its log that names no revision relative to the dot. An engine that refuses
everything refuses exactly the lines that another engine executes, and answers all others alike. -/
theorem convert_effect (r : Registry) (line : String) :
    (∀ engine,
      match r.convert line engine with
      | (.error _, after) => after = engine
      | (.ok c, after) =>
        match c.outcome with
        | .delegated .. => after = engine
        | .executed => engine.refusal = none ∧ ∃ destination base,
            after = ⟨engine.calls ++ [.rebase destination base], none⟩ ∧
              Revision.AvoidsDot destination ∧ Revision.AvoidsDot base) ∧
    ∀ calls calls' reason,
      ((∃ e, (r.convert line ⟨calls, some reason⟩).1 = .error e ∧ e.kind = .engineFailure) ↔
        r.Executes line ⟨calls', none⟩) ∧
      (¬ r.Executes line ⟨calls', none⟩ →
        (r.convert line ⟨calls, some reason⟩).1 = (r.convert line ⟨calls', none⟩).1) := by
  cases convert_fate r line with
  | refused e hkind hconvert =>
      refine ⟨fun engine => ?_, fun calls calls' reason => ⟨⟨?_, ?_⟩, fun _ => ?_⟩⟩
      · simp only [hconvert]
      · rintro ⟨e', he', hkind'⟩
        rw [hconvert] at he'
        cases he'
        exact absurd hkind' hkind
      · rintro ⟨c, hc, -⟩
        rw [hconvert] at hc
        cases hc
      · simp only [hconvert]
  | delegated c houtcome hconvert =>
      refine ⟨fun engine => ?_, fun calls calls' reason => ⟨⟨?_, ?_⟩, fun _ => ?_⟩⟩
      · cases hout : c.outcome with
        | executed => exact absurd hout houtcome
        | delegated => simp only [hconvert, hout]
      · rintro ⟨e, he, -⟩
        rw [hconvert] at he
        cases he
      · rintro ⟨c', hc', houtcome'⟩
        rw [hconvert] at hc'
        cases hc'
        exact absurd houtcome' houtcome
      · simp only [hconvert]
  | direct c call houtcome hcall hconvert =>
      have hexecutes : ∀ calls, r.Executes line ⟨calls, none⟩ := fun calls =>
        ⟨c, by rw [hconvert]; rfl, houtcome⟩
      refine ⟨fun engine => ?_, fun calls calls' reason => ⟨⟨fun _ => hexecutes calls', ?_⟩,
        fun hnot => absurd (hexecutes calls') hnot⟩⟩
      · obtain ⟨log, refusal⟩ := engine
        obtain ⟨destination, base⟩ := call
        rw [hconvert]
        cases refusal with
        | some reason => rfl
        | none =>
            simp only [Engine.perform, Except.map, houtcome, true_and]
            exact ⟨destination, base, rfl, hcall⟩
      · intro _
        exact ⟨.engineRejected reason, by rw [hconvert]; rfl, rfl⟩

/-- A rebase with two destinations is refused before the engine is asked. -/
theorem convert_effect_two_destinations :
    ¬ builtin.Executes "hg rebase -d C1 C2" ⟨[], none⟩ ∧
      (builtin.convert "hg rebase -d C1 C2" ⟨[.rebase "C3" "HEAD"], some "detached"⟩).1 =
        (builtin.convert "hg rebase -d C1 C2" ⟨[], none⟩).1 := by
  have hresult : (builtin.convert "hg rebase -d C1 C2" ⟨[], none⟩).1.toOption = none := by
    decide +kernel
  have hnot : ¬ builtin.Executes "hg rebase -d C1 C2" ⟨[], none⟩ := by
    rintro ⟨c, hc, -⟩
    rw [hc] at hresult
    cases hresult
  exact ⟨hnot, ((convert_effect builtin "hg rebase -d C1 C2").2 _ _ _).2 hnot⟩

end Registry

end HgToGit
