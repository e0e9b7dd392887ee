/-
# HgToGit.Proofs.RebaseTable -- the table of a rebase line

A rebase line is decided by three flags: `-d` is where to go, `-b` what to move, and `-s` is refused.
Each of them may be absent, empty, or have any number of arguments. `Handler.RebaseRow` is the
decision as a table, each row with all that it requires of the flags. Every line is on one of the rows
(`Handler.exists_rebaseRow`), and the row is what becomes of it (`Handler.rebaseCall_eq_iff`).

No row looks at the general arguments or at the engine. `Registry.rebase_decides` says what that comes
to on an engine: a refusal leaves it alone, and an operation is asked for once.
-/
import HgToGit.Conversion
import HgToGit.Proofs.DotRevision
import HgToGit.Proofs.Recognition

namespace HgToGit

open Revision (Resolves)

namespace Handler

/-! ## The rows of the table -/

/-- The rows of the table, by what is decided. -/
inductive RebaseRow (inv : Invocation) : Except Failure EngineCall → Prop where
  /-- A destination and a source exclude each other. -/
  | bothGiven : inv.hasOption "-d" = true → inv.hasOption "-s" = true →
      RebaseRow inv (.error (.incompatible "-d" "-s"))
  /-- Nothing is given. -/
  | neitherGiven : inv.hasOption "-d" = false → inv.hasOption "-s" = false →
      RebaseRow inv (.error .destinationMissing)
  /-- A source needs a destination, too. -/
  | sourceGiven : inv.hasOption "-d" = false → inv.hasOption "-s" = true →
      RebaseRow inv (.error (.optionRequired "-d" "rebase"))
  /-- The destination is not named. -/
  | destinationUnnamed : inv.hasOption "-d" = true → inv.hasOption "-s" = false →
      inv.optionArgs "-d" = [] → RebaseRow inv (.error (.tooFew 1 (inv.optionPhrase "-d")))
  /-- There are several destinations. -/
  | destinationsLeft : inv.hasOption "-d" = true → inv.hasOption "-s" = false →
      1 < (inv.optionArgs "-d").length →
      RebaseRow inv (.error (.tooMany 1 (inv.optionPhrase "-d")))
  /-- There is one destination, and there are several bases. -/
  | basesLeft : inv.hasOption "-d" = true → inv.hasOption "-s" = false →
      (inv.optionArgs "-d").length = 1 → 1 < (inv.optionArgs "-b").length →
      RebaseRow inv (.error (.tooMany 1 (inv.optionPhrase "-b")))
  /-- The current revision is moved. -/
  | currentMoved {destination onto : String} : inv.hasOption "-d" = true →
      inv.hasOption "-s" = false → inv.optionArgs "-d" = [destination] →
      inv.optionArgs "-b" = [] → Resolves destination onto →
      RebaseRow inv (.ok (.rebase onto "HEAD"))
  /-- The base is moved. -/
  | baseMoved {destination base onto moved : String} : inv.hasOption "-d" = true →
      inv.hasOption "-s" = false → inv.optionArgs "-d" = [destination] →
      inv.optionArgs "-b" = [base] → Resolves destination onto → Resolves base moved →
      RebaseRow inv (.ok (.rebase onto moved))

variable {inv : Invocation}

/-- Every line is on a row. -/
theorem exists_rebaseRow (inv : Invocation) : ∃ decision, RebaseRow inv decision := by
  cases hd : inv.hasOption "-d" with
  | false =>
      cases hs : inv.hasOption "-s" with
      | false => exact ⟨_, .neitherGiven hd hs⟩
      | true => exact ⟨_, .sourceGiven hd hs⟩
  | true =>
      cases hs : inv.hasOption "-s" with
      | true => exact ⟨_, .bothGiven hd hs⟩
      | false =>
          match hdestinations : inv.optionArgs "-d" with
          | [] => exact ⟨_, .destinationUnnamed hd hs hdestinations⟩
          | _ :: _ :: _ => exact ⟨_, .destinationsLeft hd hs (by simp [hdestinations])⟩
          | [destination] =>
              obtain ⟨onto, honto⟩ := Revision.exists_resolves destination
              match hbases : inv.optionArgs "-b" with
              | [] => exact ⟨_, .currentMoved hd hs hdestinations hbases honto⟩
              | [base] =>
                  obtain ⟨moved, hmoved⟩ := Revision.exists_resolves base
                  exact ⟨_, .baseMoved hd hs hdestinations hbases honto hmoved⟩
              | _ :: _ :: _ =>
                  exact ⟨_, .basesLeft hd hs (by simp [hdestinations]) (by simp [hbases])⟩

theorem checkRebaseFlags_eq_ok (hd : inv.hasOption "-d" = true)
    (hs : inv.hasOption "-s" = false) : checkRebaseFlags inv = .ok () := by
  simp only [checkRebaseFlags, hd, hs]

/-- What is decided of a line is on its row. -/
theorem RebaseRow.rebaseCall_eq {decision : Except Failure EngineCall}
    (h : RebaseRow inv decision) : rebaseCall inv = decision := by
  cases h with
  | bothGiven hd hs | neitherGiven hd hs | sourceGiven hd hs =>
      simp only [rebaseCall, checkRebaseFlags, hd, hs]
  | destinationUnnamed hd hs hnone =>
      simp only [rebaseCall, checkRebaseFlags_eq_ok hd hs, hnone]
  | destinationsLeft hd hs hmany =>
      rw [rebaseCall, checkRebaseFlags_eq_ok hd hs]
      match hdestinations : inv.optionArgs "-d" with
      | [] | [_] => simp [hdestinations] at hmany
      | _ :: _ :: _ => rfl
  | basesLeft hd hs hone hmany =>
      obtain ⟨destination, hdestination⟩ := List.length_eq_one_iff.mp hone
      rw [rebaseCall, checkRebaseFlags_eq_ok hd hs, hdestination]
      match hbases : inv.optionArgs "-b" with
      | [] | [_] => simp [hbases] at hmany
      | _ :: _ :: _ => rfl
  | currentMoved hd hs hdestination hbases honto =>
      simp only [rebaseCall, checkRebaseFlags_eq_ok hd hs, hdestination, hbases,
        Revision.resolve_eq_of_resolves honto, Revision.head]
  | baseMoved hd hs hdestination hbase honto hmoved =>
      simp only [rebaseCall, checkRebaseFlags_eq_ok hd hs, hdestination, hbase,
        Revision.resolve_eq_of_resolves honto, Revision.resolve_eq_of_resolves hmoved]

/-- **The table is exact.** -/
theorem rebaseCall_eq_iff {decision : Except Failure EngineCall} :
    rebaseCall inv = decision ↔ RebaseRow inv decision := by
  constructor
  · rintro rfl
    obtain ⟨decision, h⟩ := exists_rebaseRow inv
    rw [h.rebaseCall_eq]
    exact h
  · exact RebaseRow.rebaseCall_eq

end Handler

/-! ## Rebase lines on an engine -/

namespace Definition

/-- A line of the command with these flags is refused for a reason of this kind and with this message,
whatever its general arguments are, and the engine is not asked. -/
def Refuses (d : Definition) (options : Options) (kind : FailureKind) (message : Message) : Prop :=
  ∃ e : Failure, e.kind = kind ∧ e.message = message ∧
    ∀ general engine, Conversion.ofArguments d ⟨options, general⟩ engine = (.error e, engine)

/-- A line of the command with these flags asks the engine for one operation, whatever its general
arguments are, and the answer of the engine decides. -/
def Asks (d : Definition) (options : Options) (call : EngineCall) : Prop :=
  ∀ general engine, Conversion.ofArguments d ⟨options, general⟩ engine =
    ((engine.perform call).1.map fun _ => ⟨d.name, d.exemptFromGolf, .executed, []⟩,
      (engine.perform call).2)

variable {d : Definition} {options : Options}

theorem resolve_of_rebaseRow {decision : Except Failure EngineCall} {inv : Invocation}
    (hrebase : d.handler = .rebase) (h : Handler.RebaseRow inv decision) :
    d.handler.resolve inv = decision.map (.direct · inv) := by
  rw [hrebase, Handler.resolve, h.rebaseCall_eq]

theorem refuses_of_rebaseRow {e : Failure} (hrebase : d.handler = .rebase)
    (h : ∀ general, Handler.RebaseRow (.ofArguments d.name ⟨options, general⟩) (.error e)) :
    d.Refuses options e.kind e.message := by
  refine ⟨e, rfl, rfl, ?_⟩
  intro general engine
  exact Conversion.ofArguments_of_refused (resolve_of_rebaseRow hrebase (h general)) engine

theorem asks_of_rebaseRow {call : EngineCall} (hrebase : d.handler = .rebase)
    (h : ∀ general, Handler.RebaseRow (.ofArguments d.name ⟨options, general⟩) (.ok call)) :
    d.Asks options call := by
  intro general engine
  exact Conversion.ofArguments_of_direct (resolve_of_rebaseRow hrebase (h general)) engine

end Definition

namespace Registry

/-- **The table of a rebase line.** The flags are looked at first, then the number of destinations, and
then the number of bases; the first thing that is wrong is what the line is refused for, and the engine
is not asked. A line with one destination and at most one base asks the engine once, with both resolved
and the head in place of a base that is not named. General arguments have no part in it. -/
theorem rebase_decides {d : Definition} (hrebase : d.handler = .rebase) (options : Options) :
    let given := fun flag => options.contains flag
    let args := fun flag => (options.get? flag).getD []
    let phrase := fun flag => "with hg " ++ d.name ++ " " ++ flag
    (given "-d" = true → given "-s" = true → d.Refuses options .incompatibleOptions
      ⟨.optionsIncompatible, .ofList [("first", "-d"), ("second", "-s")]⟩) ∧
    (given "-d" = false → given "-s" = false → d.Refuses options .missingRequiredOption
      ⟨.rebaseNeedsDestination, .empty⟩) ∧
    (given "-d" = false → given "-s" = true → d.Refuses options .missingRequiredOption
      ⟨.optionRequired, .ofList [("option", "-d"), ("command", "rebase")]⟩) ∧
    (given "-d" = true → given "-s" = false →
      (args "-d" = [] → d.Refuses options .argumentCountViolation
        ⟨.tooFewArguments, .ofList [("lower", "1"), ("what", phrase "-d")]⟩) ∧
      (1 < (args "-d").length → d.Refuses options .argumentCountViolation
        ⟨.tooManyArguments, .ofList [("upper", "1"), ("what", phrase "-d")]⟩) ∧
      ((args "-d").length = 1 → 1 < (args "-b").length → d.Refuses options .argumentCountViolation
        ⟨.tooManyArguments, .ofList [("upper", "1"), ("what", phrase "-b")]⟩) ∧
      ∀ destination, args "-d" = [destination] → ∃ onto, Resolves destination onto ∧
        (args "-b" = [] → d.Asks options (.rebase onto "HEAD")) ∧
        ∀ base, args "-b" = [base] → ∃ moved, Resolves base moved ∧
          d.Asks options (.rebase onto moved)) := by
  intro given args phrase
  refine ⟨?_, ?_, ?_, ?_⟩
  · intro hd hs
    exact Definition.refuses_of_rebaseRow hrebase fun _ => .bothGiven hd hs
  · intro hd hs
    exact Definition.refuses_of_rebaseRow hrebase fun _ => .neitherGiven hd hs
  · intro hd hs
    exact Definition.refuses_of_rebaseRow hrebase fun _ => .sourceGiven hd hs
  · intro hd hs
    refine ⟨?_, ?_, ?_, ?_⟩
    · intro hnone
      have hrow : ∀ general, Handler.RebaseRow (.ofArguments d.name ⟨options, general⟩)
          (.error (.tooFew 1 (phrase "-d"))) := fun _ => .destinationUnnamed hd hs hnone
      exact Definition.refuses_of_rebaseRow hrebase hrow
    · intro hmany
      have hrow : ∀ general, Handler.RebaseRow (.ofArguments d.name ⟨options, general⟩)
          (.error (.tooMany 1 (phrase "-d"))) := fun _ => .destinationsLeft hd hs hmany
      exact Definition.refuses_of_rebaseRow hrebase hrow
    · intro hone hmany
      have hrow : ∀ general, Handler.RebaseRow (.ofArguments d.name ⟨options, general⟩)
          (.error (.tooMany 1 (phrase "-b"))) := fun _ => .basesLeft hd hs hone hmany
      exact Definition.refuses_of_rebaseRow hrebase hrow
    · intro destination hdestination
      obtain ⟨onto, honto⟩ := Revision.exists_resolves destination
      refine ⟨onto, honto, ?_, ?_⟩
      · intro hnone
        exact Definition.asks_of_rebaseRow hrebase fun _ =>
          .currentMoved hd hs hdestination hnone honto
      · intro base hbase
        obtain ⟨moved, hmoved⟩ := Revision.exists_resolves base
        exact ⟨moved, hmoved, Definition.asks_of_rebaseRow hrebase fun _ =>
          .baseMoved hd hs hdestination hbase honto hmoved⟩

/-- A base flag without an argument moves the current revision, and of two counts that are both wrong the
one of the destinations is reported. -/
theorem rebase_decides_empty_base :
    ∃ d ∈ builtin.definitions, d.handler = .rebase ∧ d.name = "rebase" ∧
      d.Asks (.ofList [("-d", [".~2"]), ("-b", [])]) (.rebase "HEAD~2" "HEAD") ∧
      d.Refuses (.ofList [("-d", ["x", "y"]), ("-b", ["x", "y"])]) .argumentCountViolation
        ⟨.tooManyArguments, .ofList [("upper", "1"), ("what", "with hg rebase -d")]⟩ := by
  obtain ⟨d, hd, hrebase⟩ := exists_mem_builtin .rebase
  have hname : d.name = "rebase" := by
    have hall : ∀ d ∈ declarations, d.handler = .rebase → d.name = "rebase" := by decide
    exact hall _ (mem_declarations hd) hrebase
  refine ⟨d, hd, hrebase, hname, ?_, ?_⟩
  · obtain ⟨-, -, -, htable⟩ := rebase_decides hrebase (.ofList [("-d", [".~2"]), ("-b", [])])
    obtain ⟨-, -, -, hasks⟩ := htable (by decide) (by decide)
    obtain ⟨onto, honto, hhere, -⟩ := hasks ".~2" (by decide)
    obtain rfl : "HEAD~2" = onto := Revision.resolve_eq_of_resolves honto
    exact hhere (by decide)
  · obtain ⟨-, -, -, htable⟩ :=
      rebase_decides hrebase (.ofList [("-d", ["x", "y"]), ("-b", ["x", "y"])])
    obtain ⟨-, hmany, -⟩ := htable (by decide) (by decide)
    have hrefuses := hmany (by decide)
    rw [hname] at hrefuses
    exact hrefuses

end Registry

end HgToGit
