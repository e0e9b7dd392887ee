/-
# HgToGit.Proofs.StepsApart -- every step keeps to its own part of a line

A line that is worked on has three parts that can change: its flags, its general arguments and its
advisories. A step that asks or checks changes none of them, whatever it answers, and every other step
keeps to its own part (`Step.KeepsApart`). What a step makes of a part depends on that part alone, so
over a run the steps of the other parts can be left out (`options_after`, `general_after`).

To root revisions at the head is the one step that changes two parts at once, and only the texts in
them. After it no argument is written relative to the dot. All steps but those that bring arguments
keep that, and as long as it holds, the step has nothing to do.
-/
import HgToGit.Invocation.Step
import HgToGit.Proofs.Accounting
import HgToGit.Proofs.DotRevision

namespace HgToGit.Invocation

open HgToGit.Revision (AvoidsDot)

variable {inv inv' : Invocation} {s : Step} {steps : List Step}

/-! ## The part of a step -/

namespace Step

/-- The step asks for something or checks something. -/
def asks : Step → Bool
  | hasOption _ | optionArgs _ | checkGeneral _ _ | checkOption _ _ _ | refuseGeneral => true
  | _ => false

/-- The flags are the part of the step. -/
def changesOptions : Step → Bool
  | takeOption _ | insertOption _ _ | setOptions _ | resolveDots => true
  | _ => false

/-- The general arguments are the part of the step. -/
def changesGeneral : Step → Bool
  | setGeneral _ | resolveDots => true
  | _ => false

/-- The advisory that the step raises. -/
def advisory? : Step → Option Message
  | warn m => some m
  | _ => none

/-- The step brings arguments that were not on the line. -/
def brings : Step → Bool
  | insertOption _ _ | setOptions _ | setGeneral _ => true
  | _ => false

/-- What a step, taken on the line `here`, leaves alone in the line `next` after it. -/
structure KeepsApart (s : Step) (here next : Invocation) : Prop where
  /-- No step changes the command. -/
  command : next.command = here.command
  /-- To ask or to check changes nothing. -/
  asked : s.asks = true → next = here
  /-- Advisories are only added, one by each step that raises one. -/
  warnings : next.warnings = here.warnings ++ s.advisory?.toList
  /-- The flags are changed by their own steps only. -/
  options : s.changesOptions = false → next.options = here.options
  /-- The general arguments are changed by their own steps only. -/
  general : s.changesGeneral = false → next.general = here.general
  /-- To root revisions at the head adds and takes away neither a flag nor an argument. -/
  resolved : s = .resolveDots →
    next.options.mapValues List.length = here.options.mapValues List.length ∧
      next.general.length = here.general.length

end Step

theorem keepsApart_step (inv : Invocation) (s : Step) : s.KeepsApart inv (inv.step s).2 := by
  constructor
  case command => cases s <;> rfl
  case asked => cases s <;> simp [Step.asks, step]
  case warnings => cases s <;> simp [Step.advisory?, step, dropOption, setOption, setOptions,
    setGeneral, resolveDots, warn]
  case options => cases s <;> simp [Step.changesOptions, step, setGeneral, warn]
  case general => cases s <;> simp [Step.changesGeneral, step, dropOption, setOption, setOptions, warn]
  case resolved =>
    rintro rfl
    exact ⟨TextMap.ext_entries (by simp [step, resolveDots, TextMap.mapValues]),
      by simp [step, resolveDots]⟩

/-! ## Runs -/

/-- The line at the end of a run. -/
def after (inv : Invocation) (steps : List Step) : Invocation := (inv.run steps).2

theorem after_cons (inv : Invocation) (s : Step) (steps : List Step) :
    inv.after (s :: steps) = (inv.step s).2.after steps := rfl

theorem after_append (inv : Invocation) (steps later : List Step) :
    inv.after (steps ++ later) = (inv.after steps).after later := by
  induction steps generalizing inv with
  | nil => rfl
  | cons s steps ih => rw [List.cons_append, after_cons, after_cons, ih]

theorem warnings_after (inv : Invocation) (steps : List Step) :
    (inv.after steps).warnings = inv.warnings ++ steps.filterMap Step.advisory? := by
  induction steps generalizing inv with
  | nil => simp [after, run]
  | cons s steps ih =>
      rw [after_cons, ih, (keepsApart_step inv s).warnings, List.append_assoc, List.filterMap_cons]
      cases s.advisory? <;> rfl

/-- If what a step makes of a part depends on that part alone, and steps that do not own the part
leave it alone, then a run makes of the part what its own steps make of it. -/
theorem part_after {α : Type} {part : Invocation → α} {owns : Step → Bool}
    (hcongr : ∀ {inv inv' : Invocation}, part inv = part inv' →
      ∀ s, part (inv.step s).2 = part (inv'.step s).2)
    (hframe : ∀ inv s, owns s = false → part (inv.step s).2 = part inv)
    (h : part inv = part inv') (steps : List Step) :
    part (inv.after steps) = part (inv'.after (steps.filter owns)) := by
  -- Two lines that agree on the part are followed side by side: both take the steps that own it.
  induction steps generalizing inv inv' with
  | nil => exact h
  | cons s steps ih =>
      rw [after_cons, List.filter_cons]
      split
      · exact ih (hcongr h s)
      · -- The second line leaves this step out, and they still agree.
        rename_i hother
        refine ih ?_
        rw [hframe inv s (by simpa using hother), h]

theorem options_step_congr (h : inv.options = inv'.options) (s : Step) :
    (inv.step s).2.options = (inv'.step s).2.options := by
  cases s <;> simp [step, dropOption, setOption, setOptions, setGeneral, resolveDots, warn, h]

theorem general_step_congr (h : inv.general = inv'.general) (s : Step) :
    (inv.step s).2.general = (inv'.step s).2.general := by
  cases s <;> simp [step, dropOption, setOption, setOptions, setGeneral, resolveDots, warn, h]

theorem options_after (inv : Invocation) (steps : List Step) :
    (inv.after steps).options = (inv.after (steps.filter Step.changesOptions)).options :=
  part_after options_step_congr (fun inv s => (keepsApart_step inv s).options) rfl steps

theorem general_after (inv : Invocation) (steps : List Step) :
    (inv.after steps).general = (inv.after (steps.filter Step.changesGeneral)).general :=
  part_after general_step_congr (fun inv s => (keepsApart_step inv s).general) rfl steps

/-! ## Lines with their dots resolved -/

/-- No argument of the line is written relative to the dot. -/
def IsResolved (inv : Invocation) : Prop := ∀ arg ∈ inv.arguments, AvoidsDot arg

namespace IsResolved

theorem dropOption (h : inv.IsResolved) (flag : String) : (inv.dropOption flag).IsResolved :=
  fun arg harg => h arg ((Handler.arguments_perm_dropOption inv flag).symm.subset
    (List.mem_append_right _ harg))

/-- A line stays resolved as long as no step brings arguments. -/
theorem step (h : inv.IsResolved) (hs : s.brings = false) : (inv.step s).2.IsResolved := by
  cases s with
  | takeOption flag => exact h.dropOption flag
  | resolveDots => exact fun arg => Handler.avoidsDot_of_mem_resolveDots
  | hasOption | optionArgs | checkGeneral | checkOption | refuseGeneral | warn => exact h
  | insertOption | setOptions | setGeneral => cases hs

theorem after (h : inv.IsResolved) (hsteps : ∀ s ∈ steps, s.brings = false) :
    (inv.after steps).IsResolved := by
  induction steps generalizing inv with
  | nil => exact h
  | cons s steps ih =>
      obtain ⟨hs, hmore⟩ := List.forall_mem_cons.mp hsteps
      exact ih (h.step hs) hmore

/-- There is nothing left to resolve. -/
theorem resolveDots_eq (h : inv.IsResolved) : inv.resolveDots = inv := by
  have hargs : ∀ args : List String, (∀ arg ∈ args, arg ∈ inv.arguments) →
      args.map Revision.resolve = args := by
    intro args hsub
    rw [List.map_congr_left fun arg harg =>
      Revision.resolve_eq_of_resolves (.kept (h arg (hsub arg harg))), List.map_id']
  have hoptions : inv.resolveDots.options = inv.options := by
    apply TextMap.ext_get?
    intro flag
    rw [get?_resolveDots]
    cases hget : inv.options.get? flag with
    | none => rfl
    | some args =>
        refine congrArg some (hargs args fun arg harg => ?_)
        exact (Handler.arguments_perm_of_get? hget).symm.subset (List.mem_append_left _ harg)
  have hgeneral : inv.resolveDots.general = inv.general :=
    hargs inv.general fun arg harg => List.mem_append_right _ harg
  show Invocation.mk _ inv.resolveDots.options inv.resolveDots.general _ = _
  rw [hoptions, hgeneral]

end IsResolved

/-! ## Any run of steps -/

/-- **Every step keeps to its own part, over any run.** Wherever in a run a step is taken, it leaves
alone what is not its part, and one that asks or checks leaves everything alone. So at the end of the
run the advisories are those that were there and those that were raised, in order, the flags are what
the steps on flags alone would have made of them, and the general arguments likewise. From a step on
that roots revisions at the head no argument is written relative to the dot, and the same step changes
nothing, until a step brings arguments. -/
theorem run_keeps_apart (inv : Invocation) (steps : List Step) :
    (∀ before s later, steps = before ++ s :: later →
      s.KeepsApart (inv.run before).2 (inv.run (before ++ [s])).2) ∧
    (inv.run steps).2.warnings = inv.warnings ++ steps.filterMap Step.advisory? ∧
    (inv.run steps).2.options = (inv.run (steps.filter Step.changesOptions)).2.options ∧
    (inv.run steps).2.general = (inv.run (steps.filter Step.changesGeneral)).2.general ∧
    ∀ before later, steps = before ++ .resolveDots :: later →
      (∀ s ∈ later, s.brings = false) →
        (∀ arg ∈ (inv.run steps).2.arguments, AvoidsDot arg) ∧
          (inv.run steps).2.resolveDots = (inv.run steps).2 := by
  refine ⟨?_, warnings_after inv steps, options_after inv steps, general_after inv steps, ?_⟩
  · intro before s later _
    have hnext : (inv.run (before ++ [s])).2 = ((inv.run before).2.step s).2 :=
      after_append inv before [s]
    rw [hnext]
    exact keepsApart_step _ s
  · rintro before later rfl hlater
    have hresolved : (inv.after before).resolveDots.IsResolved :=
      fun _ => Handler.avoidsDot_of_mem_resolveDots
    have hlast : (inv.run (before ++ .resolveDots :: later)).2 =
        (inv.after before).resolveDots.after later :=
      after_append inv before (.resolveDots :: later)
    rw [hlast]
    exact ⟨hresolved.after hlater, (hresolved.after hlater).resolveDots_eq⟩

/-- A check that fails, a flag that is taken away and an advisory, all after the dots were resolved:
nothing is written relative to the dot at the end, not even what was brought before. -/
theorem run_keeps_apart_failed_check :
    let inv := ofArguments "rebase" (.parse ["-d", "-b"] ["x", ".", "-d", ".^", "-b", "./x"])
    let later : List Step := [.checkGeneral 3 4, .takeOption "-b", .warn (.plain .addFlagUnneeded)]
    let last := (inv.run ([.insertOption "-s" [".~2"]] ++ .resolveDots :: later)).2
    (∀ s ∈ later, s.brings = false) ∧ (∀ arg ∈ last.arguments, AvoidsDot arg) ∧
      last.resolveDots = last ∧ last.warnings = [.plain .addFlagUnneeded] ∧
      last.arguments = ["HEAD^", "HEAD~2", "x", "HEAD"] := by
  intro inv later last
  have hlater : ∀ s ∈ later, s.brings = false := by decide
  obtain ⟨-, hwarnings, -, -, hresolved⟩ :=
    run_keeps_apart inv ([.insertOption "-s" [".~2"]] ++ .resolveDots :: later)
  obtain ⟨havoids, hagain⟩ := hresolved [.insertOption "-s" [".~2"]] later rfl hlater
  exact ⟨hlater, havoids, hagain, hwarnings, by decide +kernel⟩

end HgToGit.Invocation
