/-
# HgToGit.Proofs.History -- a session is its lines, each on its own

The steps of a session share one engine, and still no line notices another: what a line yields
depends on the line and on whether the engine refuses (`convert_result`), and what it adds to the
log does too (`convert_calls`). For one step this says that what is taken out of the log and what
is left in it are what was there and what the step made. Over a run the same sum is kept, so
between two replacements of the engine no operation is lost, doubled or moved.
-/
import HgToGit.Proofs.Effect
import HgToGit.Session
import Mathlib.Data.List.Induction

namespace HgToGit

/-! ## One line and one operation -/

/-- What a line yields does not depend on the log. -/
theorem Registry.convert_result (r : Registry) (line : String) (engine : Engine) :
    (r.convert line engine).1 = (r.convert line (.fresh engine.refusal)).1 := by
  cases r.convert_fate line with
  | refused e _ hconvert => simp only [hconvert]
  | delegated c _ hconvert => simp only [hconvert]
  | direct c call _ _ hconvert =>
      obtain ⟨calls, refusal⟩ := engine
      simp only [hconvert]
      cases refusal <;> rfl

theorem Registry.convert_refusal (r : Registry) (line : String) (engine : Engine) :
    (r.convert line engine).2.refusal = engine.refusal := by
  cases r.convert_fate line with
  | refused e _ hconvert => simp only [hconvert]
  | delegated c _ hconvert => simp only [hconvert]
  | direct c call _ _ hconvert =>
      obtain ⟨calls, refusal⟩ := engine
      simp only [hconvert]
      cases refusal <;> rfl

namespace Session

/-- The operations of a step that has an engine of its own: one for a line that is executed, one
for an operation that is performed, and none otherwise. -/
def made (r : Registry) (refusal : Option String) : Step → List EngineCall
  | .convert line =>
    match r.convert line (.fresh refusal) with
    | (.ok c, after) => if c.outcome = .executed then after.calls else []
    | (.error _, _) => []
  | .perform call =>
    match (Engine.fresh refusal).perform call with
    | (.ok (), _) => [call]
    | (.error _, _) => []
  | .takeCalls => []
  | .newEngine _ => []

/-- What a line adds to the log does not depend on the log. -/
theorem convert_calls (r : Registry) (line : String) (engine : Engine) :
    (r.convert line engine).2.calls =
      engine.calls ++ made r engine.refusal (.convert line) := by
  cases r.convert_fate line with
  | refused e _ hconvert => simp [made, hconvert]
  | delegated c houtcome hconvert => simp [made, hconvert, houtcome]
  | direct c call houtcome _ hconvert =>
      obtain ⟨calls, refusal⟩ := engine
      cases refusal <;> simp [made, hconvert, Engine.perform, Engine.fresh, Except.map, houtcome]

theorem perform_calls (r : Registry) (call : EngineCall) (engine : Engine) :
    (engine.perform call).2.calls = engine.calls ++ made r engine.refusal (.perform call) := by
  obtain ⟨calls, refusal⟩ := engine
  cases refusal <;> simp [made, Engine.perform, Engine.fresh]

/-! ## One step -/

/-- Whether a step goes on with another engine. -/
def Step.Replaces : Step → Prop
  | .newEngine _ => True
  | _ => False

/-- The log that a step takes. -/
def Result.calls : Result → List EngineCall
  | .taken calls => calls
  | _ => []

theorem step_refusal {r : Registry} {engine : Engine} {s : Step} (hs : ¬ s.Replaces) :
    (step r engine s).2.refusal = engine.refusal := by
  cases s with
  | convert line => exact r.convert_refusal line engine
  | takeCalls => rfl
  | newEngine refusal => exact absurd trivial hs
  | perform call =>
      obtain ⟨calls, refusal⟩ := engine
      cases refusal <;> rfl

/-- What a step takes out of the log and what it leaves there are what was there and what the step
made. -/
theorem step_calls {r : Registry} {engine : Engine} {s : Step} (hs : ¬ s.Replaces) :
    (step r engine s).1.calls ++ (step r engine s).2.calls =
      engine.calls ++ made r engine.refusal s := by
  cases s with
  | convert line => exact convert_calls r line engine
  | takeCalls => rfl
  | newEngine refusal => exact absurd trivial hs
  | perform call => exact perform_calls r call engine

/-! ## Runs -/

/-- The engine after a run that began with the given one. -/
def engineAfter (engine : Engine) (results : List (Result × Engine)) : Engine :=
  results.getLast?.elim engine Prod.snd

/-- The logs that the steps of a run took, in order. -/
def callsTaken (results : List (Result × Engine)) : List EngineCall :=
  results.flatMap fun entry => entry.1.calls

theorem run_cons (r : Registry) (engine : Engine) (s : Step) (more : List Step) :
    run r engine (s :: more) = step r engine s :: run r (step r engine s).2 more := rfl

@[simp] theorem length_run (r : Registry) (engine : Engine) (steps : List Step) :
    (run r engine steps).length = steps.length := by
  induction steps generalizing engine with
  | nil => rfl
  | cons s more ih => rw [run_cons, List.length_cons, ih, List.length_cons]

theorem engineAfter_cons (engine : Engine) (entry : Result × Engine)
    (results : List (Result × Engine)) :
    engineAfter engine (entry :: results) = engineAfter entry.2 results := by
  cases results with
  | nil => rfl
  | cons next results => simp [engineAfter, List.getLast?_cons]

theorem run_append (r : Registry) (engine : Engine) (before after : List Step) :
    run r engine (before ++ after) =
      run r engine before ++ run r (engineAfter engine (run r engine before)) after := by
  induction before generalizing engine with
  | nil => rfl
  | cons s before ih =>
      rw [List.cons_append, run_cons, ih, run_cons, engineAfter_cons, List.cons_append]

theorem engineAfter_run_append (r : Registry) (engine : Engine) (before after : List Step) :
    engineAfter engine (run r engine (before ++ after)) =
      engineAfter (engineAfter engine (run r engine before))
        (run r (engineAfter engine (run r engine before)) after) := by
  induction before generalizing engine with
  | nil => rfl
  | cons s before ih =>
      rw [List.cons_append, run_cons, engineAfter_cons, ih, run_cons, engineAfter_cons]

/-- Without a replacement the engine goes on refusing, or goes on performing. -/
theorem run_refusal {r : Registry} {engine : Engine} {steps : List Step}
    (hsteps : ∀ s ∈ steps, ¬ s.Replaces) :
    (engineAfter engine (run r engine steps)).refusal = engine.refusal := by
  induction steps generalizing engine with
  | nil => rfl
  | cons s more ih =>
      rw [run_cons, engineAfter_cons, ih fun x hx => hsteps x (List.mem_cons_of_mem _ hx)]
      exact step_refusal (hsteps s List.mem_cons_self)

/-- Without a replacement, what a run takes out of the log and what it leaves there are what was
there and what the steps made. -/
theorem run_calls {r : Registry} {engine : Engine} {steps : List Step}
    (hsteps : ∀ s ∈ steps, ¬ s.Replaces) :
    callsTaken (run r engine steps) ++ (engineAfter engine (run r engine steps)).calls =
      engine.calls ++ steps.flatMap (made r engine.refusal) := by
  -- The sum of what was taken and what is left is kept by every step, whatever the log was.
  induction steps generalizing engine with
  | nil => simp [callsTaken, run, engineAfter]
  | cons s more ih =>
      have hs : ¬ s.Replaces := hsteps s List.mem_cons_self
      have hmore := @ih (step r engine s).2
        fun x hx => hsteps x (List.mem_cons_of_mem _ hx)
      rw [step_refusal hs] at hmore
      rw [run_cons, engineAfter_cons, callsTaken, List.flatMap_cons, List.append_assoc,
        ← callsTaken, hmore, ← List.append_assoc, step_calls hs, List.append_assoc,
        List.flatMap_cons]

/-! ## The last engine of a session -/

/-- The engine that a session was given last, as it then was, and the steps since. -/
def lastStretch (engine : Engine) (steps : List Step) : Engine × List Step :=
  steps.foldl (fun stretch s =>
    match s with
    | .newEngine refusal => (.fresh refusal, [])
    | s => (stretch.1, stretch.2 ++ [s])) (engine, [])

theorem lastStretch_concat_newEngine (engine : Engine) (steps : List Step)
    (refusal : Option String) :
    lastStretch engine (steps ++ [.newEngine refusal]) = (.fresh refusal, []) := by
  rw [lastStretch, List.foldl_append]
  rfl

theorem lastStretch_concat {s : Step} (hs : ¬ s.Replaces) (engine : Engine) (steps : List Step) :
    lastStretch engine (steps ++ [s]) =
      ((lastStretch engine steps).1, (lastStretch engine steps).2 ++ [s]) := by
  rw [lastStretch, List.foldl_append]
  cases s with
  | newEngine refusal => exact absurd trivial hs
  | convert line => rfl
  | takeCalls => rfl
  | perform call => rfl

/-- A session ends with its last stretch, which begins with the engine it was given last. -/
theorem exists_eq_append_lastStretch (r : Registry) (engine : Engine) (steps : List Step) :
    ∃ before, steps = before ++ (lastStretch engine steps).2 ∧
      (∀ s ∈ (lastStretch engine steps).2, ¬ s.Replaces) ∧
      engineAfter engine (run r engine before) = (lastStretch engine steps).1 := by
  -- The stretch is read from the end, so the steps are taken from there too.
  induction steps using List.reverseRecOn with
  | nil => exact ⟨[], rfl, by simp [lastStretch], rfl⟩
  | append_singleton steps s ih =>
      obtain ⟨before, hsteps, hsince, hengine⟩ := ih
      by_cases hs : s.Replaces
      · cases s with
        | newEngine refusal =>
            rw [lastStretch_concat_newEngine]
            refine ⟨steps ++ [.newEngine refusal], (List.append_nil _).symm, by simp, ?_⟩
            rw [engineAfter_run_append]
            rfl
        | convert line => exact absurd hs id
        | takeCalls => exact absurd hs id
        | perform call => exact absurd hs id
      · rw [lastStretch_concat hs]
        refine ⟨before, ?_, ?_, hengine⟩
        · rw [← List.append_assoc, ← hsteps]
        · intro x hx
          rcases List.mem_append.mp hx with hx | hx
          · exact hsince x hx
          · rw [List.mem_singleton.mp hx]
            exact hs

theorem engineAfter_refusal (r : Registry) (engine : Engine) (steps : List Step) :
    (engineAfter engine (run r engine steps)).refusal = (lastStretch engine steps).1.refusal := by
  obtain ⟨before, hsteps, hsince, hengine⟩ := exists_eq_append_lastStretch r engine steps
  rw [congrArg (run r engine) hsteps, engineAfter_run_append, hengine]
  exact run_refusal hsince

/-- **A session decomposes into its lines.** A line yields in a session what it yields alone on a
new engine that refuses alike, whatever came before. And the logs taken since the engine was last
replaced, followed by the log at the end, are the log that this engine brought and then the
operations of the executed lines and of the performed operations since, in their order. -/
theorem run_decomposes (r : Registry) (engine : Engine) :
    (∀ before line after,
      (run r engine (before ++ .convert line :: after))[before.length]?.map Prod.fst =
        some (.converted (r.convert line (.fresh (lastStretch engine before).1.refusal)).1)) ∧
    ∀ steps,
      callsTaken ((run r engine steps).drop
          (steps.length - (lastStretch engine steps).2.length)) ++
        (engineAfter engine (run r engine steps)).calls =
      (lastStretch engine steps).1.calls ++
        (lastStretch engine steps).2.flatMap (made r (lastStretch engine steps).1.refusal) := by
  refine ⟨fun before line after => ?_, fun steps => ?_⟩
  · rw [run_append, List.getElem?_append_right (by simp), length_run, Nat.sub_self, run_cons,
      List.getElem?_cons_zero, Option.map_some, ← engineAfter_refusal r]
    exact congrArg (fun result => some (Result.converted result)) (r.convert_result line _)
  · obtain ⟨before, hsteps, hsince, hengine⟩ := exists_eq_append_lastStretch r engine steps
    have hlength : steps.length - (lastStretch engine steps).2.length = before.length := by
      rw [congrArg List.length hsteps, List.length_append, Nat.add_sub_cancel]
    rw [hlength, congrArg (run r engine) hsteps, engineAfter_run_append, run_append, hengine,
      List.drop_left' (length_run r engine before)]
    exact run_calls hsince

end Session

end HgToGit
