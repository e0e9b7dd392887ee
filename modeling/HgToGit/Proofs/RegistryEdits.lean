/-
# HgToGit.Proofs.RegistryEdits -- the first match decides

What becomes of a line is decided by the first command of the table whose pattern matches: the place
where the arguments begin, the flags by which they are sorted, and the handler are all of this one
command. All that counts about the commands before it is that they do not match, and the commands
after it do not count.

So a table can be edited, step by step, without the line noticing (`Edit`): an edit keeps what is
found first (`Edit.firstIn?_eq`), and so does a run of edits (`firstIn?_eq_of_edits`).
-/
import HgToGit.Proofs.Effect
import Mathlib.Logic.Relation

namespace HgToGit.Registry

variable {text line : String} {r r' : Registry} {definitions definitions' : List Definition}

/-! ## Edits of a list of commands -/

/-- The first command of a list whose pattern matches, and the place where its match ends. -/
def firstIn? (text : String) (definitions : List Definition) : Option (Definition × Cursor) :=
  definitions.findSome? fun d => (d.find? text).map (d, ·)

/-- An edit that cannot be noticed by who asks for the first match. -/
inductive Edit (text : String) : List Definition → List Definition → Prop where
  /-- A command that does not match is put in, wherever it may be. -/
  | insert (before after : List Definition) (d : Definition) : d.find? text = none →
      Edit text (before ++ after) (before ++ d :: after)
  /-- A command that does not match is taken out, wherever it is. -/
  | remove (before after : List Definition) (d : Definition) : d.find? text = none →
      Edit text (before ++ d :: after) (before ++ after)
  /-- Behind a command that matches, commands are taken out, put in and moved about: the list goes on
  in another way. -/
  | goOn (before after after' : List Definition) (d : Definition) : (d.find? text).isSome →
      Edit text (before ++ d :: after) (before ++ d :: after')

theorem firstMatch?_eq_firstIn? (r : Registry) (text : String) :
    r.firstMatch? text = firstIn? text r.definitions := rfl

theorem firstIn?_append_cons_of_none {d : Definition} (h : d.find? text = none)
    (before after : List Definition) :
    firstIn? text (before ++ d :: after) = firstIn? text (before ++ after) := by
  simp [firstIn?, h]

theorem firstIn?_append_cons_of_some {d : Definition} {place : Cursor}
    (h : d.find? text = some place) (before after : List Definition) :
    firstIn? text (before ++ d :: after) = (firstIn? text before).or (some (d, place)) := by
  simp [firstIn?, h, List.findSome?_append]

theorem firstIn?_eq_none_iff :
    firstIn? text definitions = none ↔ ∀ d ∈ definitions, d.find? text = none := by
  simp [firstIn?]

/-- An edit keeps what is found first. -/
theorem Edit.firstIn?_eq (h : Edit text definitions definitions') :
    firstIn? text definitions' = firstIn? text definitions := by
  cases h with
  | insert before after d hnone => exact firstIn?_append_cons_of_none hnone before after
  | remove before after d hnone => exact (firstIn?_append_cons_of_none hnone before after).symm
  | goOn before after after' d hsome =>
      -- What is found in front of `d` or at `d` leaves nothing for what follows.
      obtain ⟨place, hplace⟩ := Option.isSome_iff_exists.mp hsome
      rw [firstIn?_append_cons_of_some hplace, firstIn?_append_cons_of_some hplace]

/-- A run of edits keeps what is found first. -/
theorem firstIn?_eq_of_edits (h : Relation.ReflTransGen (Edit text) definitions definitions') :
    firstIn? text definitions' = firstIn? text definitions := by
  induction h with
  | refl => rfl
  | tail _ hedit ih => rw [hedit.firstIn?_eq, ih]

/-! ## Lines -/

/-- A recognized line is not refused as no command of the table. -/
theorem kind_ne_of_ofArguments {d : Definition} {a : Arguments} {engine : Engine} {e : Failure}
    (h : (Conversion.ofArguments d a engine).1 = .error e) : e.kind ≠ .unrecognizedCommand := by
  cases hresolve : d.handler.resolve (.ofArguments d.name a) with
  | error e' =>
      rw [Conversion.ofArguments_of_refused hresolve] at h
      cases h
      exact (Handler.byHandler_resolve _ _ e hresolve).1
  | ok resolution =>
      cases resolution with
      | delegated command line =>
          rw [Conversion.ofArguments_of_delegated hresolve] at h
          cases h
      | direct call line =>
          -- Only the engine can refuse now, and it does so in its own name.
          rw [Conversion.ofArguments_of_direct hresolve] at h
          obtain ⟨calls, refusal⟩ := engine
          cases refusal with
          | none => cases h
          | some reason =>
              cases h
              exact nofun

theorem exists_unrecognized_iff (engine : Engine) :
    (∃ e, (r.convert line engine).1 = .error e ∧ e.kind = .unrecognizedCommand) ↔
      ∀ d ∈ r.definitions, d.find? (Text.trim line) = none := by
  constructor
  · rintro ⟨e, he, hkind⟩
    cases hrecognize : r.recognize line with
    | error e' => exact (recognize_eq_error_iff_unmatched.mp hrecognize).1
    | ok found =>
        rw [convert_of_recognize hrecognize] at he
        exact absurd hkind (kind_ne_of_ofArguments he)
  · intro hnone
    have hrecognize := recognize_eq_error_iff_unmatched.mpr ⟨hnone, rfl⟩
    exact ⟨.unrecognized (Text.trim line), by simp only [convert, hrecognize], rfl⟩

/-- **The first match decides.** Commands that do not match a line can be put into a table and taken out
of it anywhere, and behind a command that matches everything can be changed, any number of times and
in any order: the result of the line and the engine after it stay the same. A command that matches and
is put in front of all that match takes the line over: the arguments begin where its match ends, and
are sorted by its flags. A line is no command of the table exactly if no pattern matches it. -/
theorem first_match_decides (r : Registry) (line : String) :
    (∀ r' : Registry,
      Relation.ReflTransGen (Edit (Text.trim line)) r.definitions r'.definitions →
        ∀ engine, r'.convert line engine = r.convert line engine) ∧
    (∀ (r' : Registry) (before after : List Definition) (d : Definition) (place : Cursor),
      r.definitions = before ++ after → r'.definitions = before ++ d :: after →
      (∀ earlier ∈ before, earlier.find? (Text.trim line) = none) →
      d.find? (Text.trim line) = some place →
        let args := Arguments.parse d.flags (Token.tokenize (String.ofList place.rest))
        r'.recognize line = .ok (d, args) ∧
          ∀ engine, r'.convert line engine = Conversion.ofArguments d args engine) ∧
    ∀ engine, (∃ e, (r.convert line engine).1 = .error e ∧ e.kind = .unrecognizedCommand) ↔
      ∀ d ∈ r.definitions, d.find? (Text.trim line) = none := by
  refine ⟨?_, ?_, exists_unrecognized_iff⟩
  · intro r' hedits engine
    have hfirst : r'.firstMatch? (Text.trim line) = r.firstMatch? (Text.trim line) :=
      firstIn?_eq_of_edits hedits
    rw [convert, convert, recognize_congr hfirst]
  · intro r' before after d place _ hdefinitions hbefore hplace args
    have hfirst : r'.firstMatch? (Text.trim line) = some (d, place) := by
      rw [firstMatch?_eq_firstIn?, hdefinitions, firstIn?_append_cons_of_some hplace,
        firstIn?_eq_none_iff.mpr hbefore]
      rfl
    have hrecognize : r'.recognize line = .ok (d, args) :=
      recognize_eq_ok_iff_found.mpr ⟨place, hfirst, rfl⟩
    exact ⟨hrecognize, convert_of_recognize hrecognize⟩

/-- The command of a declaration with a pattern that can be read. -/
def ofDeclaration (d : Declaration) (h : (Pattern.matcher? d.pattern).isSome) : Definition :=
  ⟨d, (Pattern.matcher? d.pattern).get h⟩

/-- A command for `hg log` is not disturbed by one that does not match in front of it and a wider one
behind it. In front of it the wider one takes the line, and what it leaves of the command word is the
first argument. -/
theorem first_match_decides_wide_pattern :
    let log := ofDeclaration ⟨"log", "^hg +log($|\\s)", ["-f"], true, .log⟩ (by decide)
    let pull := ofDeclaration ⟨"pull", "^hg +pull($|\\s)", [], false, .pull⟩ (by decide)
    let wide := ofDeclaration ⟨"wide", "^hg +l", [], false, .update⟩ (by decide)
    let r : Registry := ⟨[log], by decide⟩
    let edited : Registry := ⟨[pull, log, wide], by decide⟩
    let widened : Registry := ⟨[wide, log], by decide⟩
    edited.convert " hg log -f" .new = r.convert " hg log -f" .new ∧
      widened.recognize " hg log -f" = .ok (wide, ⟨.empty, ["og", "-f"]⟩) ∧
      ∃ e, (r.convert "hg pull" .new).1 = .error e ∧ e.kind = .unrecognizedCommand := by
  intro log pull wide r edited widened
  refine ⟨?_, ?_, ?_⟩
  · refine (first_match_decides r " hg log -f").1 edited ?_ .new
    have hpull : pull.find? (Text.trim " hg log -f") = none := by decide +kernel
    have hlog : (log.find? (Text.trim " hg log -f")).isSome := by decide +kernel
    exact .tail (.single (.insert [] [log] pull hpull)) (.goOn [pull] [] [wide] log hlog)
  · have hwide : wide.find? (Text.trim " hg log -f") = some ⟨4, "og -f".toList⟩ := by decide +kernel
    have hargs : Arguments.parse wide.flags (Token.tokenize (String.ofList "og -f".toList)) =
        ⟨.empty, ["og", "-f"]⟩ := by decide +kernel
    rw [← hargs]
    exact ((first_match_decides r " hg log -f").2.1 widened [] [log] wide _ rfl rfl (by simp)
      hwide).1
  · refine ((first_match_decides r "hg pull").2.2 .new).mpr ?_
    decide +kernel

end HgToGit.Registry
