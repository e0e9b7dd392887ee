/-
# HgToGit.Proofs.NeutralSettings -- how results are presented does not change them

The verbosity, the switch for advisories and the wording of messages are looked at in different
places: where a report is put together, where it is written as text or as JSON, and where a stream is
gone through. None of them has a part in what becomes of a line. Two reports on one line, put together
with any two catalogs, have the same form (`LineReport.SameForm`): they agree in all but the words of
the advisories or of the refusal. What is counted, how a command ends and what text shows on the
standard output is read off the form alone, and so is a report in JSON from which the words are taken
out.

The words of advisories are the one thing that the switches show or hide, on the standard error
output.
-/
import HgToGit.Proofs.Presentation

namespace HgToGit

/-! ## Reports without their words -/

namespace Report.Json

/-- An object without the member of a name. -/
def without (name : String) : Json → Json
  | object members => object (members.filter fun m => m.1 ≠ name)
  | json => json

/-- A list with each of its items changed. -/
def mapItems (f : Json → Json) : Json → Json
  | list items => list (items.map f)
  | json => json

/-- An object with the member of a name changed. -/
def mapMember (name : String) (f : Json → Json) : Json → Json
  | object members => object (members.map fun m => if m.1 = name then (m.1, f m.2) else m)
  | json => json

/-- A report without the texts of its advisories and the message of its error. All else that it
says stays. -/
def withoutWords (report : Json) : Json :=
  (report.mapMember "warnings" (mapItems (without "text"))).mapMember "error" (without "message")

/-- Reports as they are written, each on a line. -/
def lines (reports : List Json) : String :=
  String.join (reports.map fun report => report.render ++ "\n")

theorem lines_singleton (report : Json) : lines [report] = report.render ++ "\n" := by
  rw [lines, List.map_singleton, String.join_cons, String.join_nil, String.append_empty]

/-- What is left of a member of a report without its words. -/
def memberWithoutWords (m : String × Json) : String × Json :=
  if m.1 = "warnings" then (m.1, mapItems (without "text") m.2)
  else if m.1 = "error" then (m.1, without "message" m.2)
  else m

theorem withoutWords_object (members : List (String × Json)) :
    (object members).withoutWords = object (members.map memberWithoutWords) := by
  rw [withoutWords, mapMember, mapMember, List.map_map]
  congr 1
  refine List.map_congr_left fun m _ => ?_
  by_cases hwarnings : m.1 = "warnings"
  · simp [memberWithoutWords, hwarnings]
  · simp [memberWithoutWords, hwarnings]

end Report.Json

open HgToGit.Report (Json)

namespace LineReport

/-- Two reports that differ in no more than the words of the advisories or of the refusal. -/
inductive SameForm : LineReport → LineReport → Prop where
  /-- The line was converted, with advisories of the same keys. -/
  | converted (line : String) (c : Conversion) (calls : List EngineCall)
      {warnings warnings' : List (MessageKey × String)} :
      warnings.map Prod.fst = warnings'.map Prod.fst →
      SameForm (.converted line c calls warnings) (.converted line c calls warnings')
  /-- The line was refused for the same reason. -/
  | refused (line : String) (e : Failure) (message message' : String) :
      SameForm (.refused line e message) (.refused line e message')

/-- The wording has no part in the form of a report, nor in the engine that it leaves. -/
theorem sameForm_ofLine (catalog catalog' : Catalog) (engine : Engine) (line : String) :
    SameForm (ofLine catalog engine line).1 (ofLine catalog' engine line).1 := by
  unfold ofLine
  obtain ⟨result, after⟩ := Registry.builtin.convert line engine
  cases result with
  | error e => exact .refused line e _ _
  | ok c =>
      refine .converted line c _ ?_
      rw [List.map_map, List.map_map]
      rfl

variable {a b : LineReport}

theorem SameForm.ok_eq (h : SameForm a b) : a.ok = b.ok := by
  cases h with
  | converted => rfl
  | refused => rfl

theorem SameForm.withoutWords_eq (h : SameForm a b) :
    a.toJson.withoutWords = b.toJson.withoutWords := by
  cases h with
  | @converted line c calls warnings warnings' hkeys =>
      -- Of the members only that for the advisories has words, and without them it has the keys.
      have hmember : ∀ l : List (MessageKey × String),
          (listMember "warnings" (l.map fun w =>
              Json.object [("key", .text w.1.text), ("text", .text w.2)])).map
            Json.memberWithoutWords =
          listMember "warnings" ((l.map Prod.fst).map fun key =>
            Json.object [("key", .text key.text)]) := by
        intro l
        cases l with
        | nil => rfl
        | cons w l =>
            simp [listMember, Json.memberWithoutWords, Json.mapItems, Json.without]
      simp only [toJson, Json.withoutWords_object, List.map_append, hmember, hkeys]
  | refused line e message message' => rfl

end LineReport

namespace Program

variable {ctx ctx' : Context}

theorem sameForm_reportAlone (ctx ctx' : Context) (line : String) :
    (reportAlone ctx line).SameForm (reportAlone ctx' line) :=
  LineReport.sameForm_ofLine ctx.catalog ctx'.catalog .new line

/-! ## What is written about a line -/

/-- As text, what the standard output has of a report does not depend on its words, nor on the
switches. -/
theorem stdout_showReport_of_sameForm {a b : LineReport} (h : a.SameForm b)
    (hjson : ctx.json = false) (hjson' : ctx'.json = false) :
    (showReport ctx a).stdout = (showReport ctx' b).stdout := by
  simp only [showReport, hjson, hjson', Bool.false_eq_true, if_false]
  cases h with
  | @converted line c calls warnings warnings' hkeys =>
      show Transcript.stdout (_ ++ advice ctx warnings) =
        Transcript.stdout (_ ++ advice ctx' warnings')
      rw [Transcript.stdout_append, Transcript.stdout_append, stdout_advice, stdout_advice]
  | refused => rfl

theorem stdout_showInTurn_eq (ctx : Context) (report : LineReport) :
    (showInTurn ctx report).stdout = (showReport ctx report).stdout := by
  rw [showInTurn, Transcript.stdout_append]
  cases report with
  | converted => cases ctx.json <;> exact String.append_empty
  | refused => cases ctx.json <;> exact String.append_empty

/-! ## Two runs on the same lines -/

/-- What two runs tell of the same lines, if their contexts agree on how reports are written. -/
structure ToldTheSame (ctx ctx' : Context) (lines : List String) (result result' : Result) :
    Prop where
  /-- They end in the same way. -/
  exit : result.exit = result'.exit
  /-- As text, the standard output is the same. -/
  text : ctx.json = false → result.transcript.stdout = result'.transcript.stdout
  /-- As JSON, each writes one report for each line. -/
  written : ctx.json = true →
    result.transcript.stdout = Json.lines (lines.map fun line => (reportAlone ctx line).toJson) ∧
      result'.transcript.stdout = Json.lines (lines.map fun line => (reportAlone ctx' line).toJson)
  /-- The reports are the same without their words. -/
  reports : (lines.map fun line => (reportAlone ctx line).toJson.withoutWords) =
    lines.map fun line => (reportAlone ctx' line).toJson.withoutWords

theorem reports_withoutWords (ctx ctx' : Context) (lines : List String) :
    (lines.map fun line => (reportAlone ctx line).toJson.withoutWords) =
      lines.map fun line => (reportAlone ctx' line).toJson.withoutWords :=
  List.map_congr_left fun line _ => (sameForm_reportAlone ctx ctx' line).withoutWords_eq

theorem exit_ofReport_of_sameForm {a b : LineReport} (h : a.SameForm b) :
    (Result.ofReport ctx a).exit = (Result.ofReport ctx' b).exit := by
  cases h with
  | converted => rfl
  | refused => rfl

theorem toldTheSame_convertWords (hjson : ctx.json = ctx'.json) (words : List String) :
    ToldTheSame ctx ctx' [Token.join words] (convertWords ctx words) (convertWords ctx' words) := by
  have hform := sameForm_reportAlone ctx ctx' (Token.join words)
  have hwords : ∀ c : Context, convertWords c words =
      .ofReport c (reportAlone c (Token.join words)) := fun _ => rfl
  rw [hwords, hwords]
  refine ⟨exit_ofReport_of_sameForm hform, fun htext => ?_, fun hwritten => ⟨?_, ?_⟩,
    reports_withoutWords _ _ _⟩
  · rw [stdout_ofReport, stdout_ofReport]
    exact stdout_showReport_of_sameForm hform htext (hjson ▸ htext)
  · rw [stdout_ofReport, stdout_showReport_json hwritten, List.map_singleton, Json.lines_singleton]
  · rw [stdout_ofReport, stdout_showReport_json (hjson ▸ hwritten), List.map_singleton,
      Json.lines_singleton]

/-- The lines of an input that are converted. -/
def inputLines (input : List UInt8) : List String := keptLines (readable (byteLines [] input))

theorem transcript_process (ctx : Context) (input : List UInt8) :
    (process ctx input).transcript =
      (inputLines input).flatMap fun line => showInTurn ctx (reportAlone ctx line) :=
  congrArg ReplRun.transcript (processLines_readable ctx (byteLines [] input))

theorem summary?_process (ctx : Context) (input : List UInt8) :
    (process ctx input).summary? =
      ((byteLines [] input).mapM decode).map fun lines => summaryAlone ctx (keptLines lines) :=
  congrArg ReplRun.summary? (processLines_readable ctx (byteLines [] input))

theorem summaryAlone_eq (ctx ctx' : Context) (lines : List String) :
    summaryAlone ctx lines = summaryAlone ctx' lines := by
  simp only [summaryAlone, exit_convertWords, (sameForm_reportAlone ctx ctx' _).ok_eq]

theorem summary?_process_eq (ctx ctx' : Context) (input : List UInt8) :
    (process ctx input).summary? = (process ctx' input).summary? := by
  rw [summary?_process, summary?_process]
  exact congrFun (congrArg Option.map (funext fun lines => summaryAlone_eq ctx ctx' _)) _

/-- The standard output has of a stream what it has of the reports on its lines. -/
theorem stdout_repl (ctx : Context) (input : List UInt8) :
    (repl ctx input).transcript.stdout = String.join ((inputLines input).map fun line =>
      (showReport ctx (reportAlone ctx line)).stdout) := by
  have hprocess : (process ctx input).transcript.stdout = String.join ((inputLines input).map
      fun line => (showReport ctx (reportAlone ctx line)).stdout) := by
    rw [transcript_process, stdout_flatMap]
    simp only [stdout_showInTurn_eq]
  rw [← hprocess, repl]
  cases (process ctx input).summary? with
  | none =>
      show Transcript.stdout (_ ++ [Chunk.error _]) = _
      rw [Transcript.stdout_append, stdout_error, String.append_empty]
  | some => rfl

theorem toldTheSame_repl (hjson : ctx.json = ctx'.json) (input : List UInt8) :
    ToldTheSame ctx ctx' (inputLines input) (repl ctx input) (repl ctx' input) := by
  have hlines : ∀ c : Context, c.json = true → (repl c input).transcript.stdout =
      Json.lines ((inputLines input).map fun line => (reportAlone c line).toJson) := by
    intro c hwritten
    rw [stdout_repl, Json.lines, List.map_map]
    simp only [stdout_showReport_json hwritten]
    rfl
  refine ⟨?_, fun htext => ?_, fun hwritten => ⟨hlines ctx hwritten, hlines ctx' (hjson ▸ hwritten)⟩,
    reports_withoutWords _ _ _⟩
  · simp only [repl, summary?_process_eq ctx ctx' input]
    cases (process ctx' input).summary? with
    | none => rfl
    | some => rfl
  · rw [stdout_repl, stdout_repl]
    refine congrArg String.join (List.map_congr_left fun line _ => ?_)
    exact stdout_showReport_of_sameForm (sameForm_reportAlone ctx ctx' line) htext (hjson ▸ htext)

/-! ## Where advisories are shown -/

/-- What the standard error output has of the advisories of a converted line: a line for each, in
the wording of the catalog, but nothing as JSON, if advisories are not shown, or in quiet. -/
def adviceText (ctx : Context) (warnings : List Message) : String :=
  if ctx.json = false ∧ ctx.showWarnings = true ∧ ctx.verbosity ≠ .quiet then
    String.join (warnings.map fun m => "warning: " ++ ctx.catalog.render m ++ "\n")
  else ""

/-- What the standard error output has of what became of a line of a stream. -/
def besides (ctx : Context) : Except Failure Conversion → String
  | .ok c => adviceText ctx c.warnings
  | .error e => if ctx.json then "" else "error: " ++ ctx.catalog.render e.message ++ "\n"

/-- What the standard error output has at the end of a stream: why it was not read to its end. -/
def unreadText (run : ReplRun) : String :=
  if run.summary? = none then
    "error: failed to read standard input: " ++ Settings.notTextMessage ++ "\n"
  else ""

/-- What text shows of an outcome is not on the standard error output. -/
theorem stderr_map_outLine {α : Type} (f : α → String) (l : List α) :
    Transcript.stderr (l.map fun a => .outLine (f a)) = "" := by
  induction l with
  | nil => rfl
  | cons a l ih =>
      show "" ++ Transcript.stderr (l.map fun a => .outLine (f a)) = ""
      rw [ih, String.append_empty]

/-- As text, the advisories stand behind what is shown of the outcome. -/
theorem exists_showReport_converted (hjson : ctx.json = false) (line : String) (c : Conversion)
    (calls : List EngineCall) (warnings : List (MessageKey × String)) :
    ∃ shown : Transcript, shown.stderr = "" ∧
      showReport ctx (.converted line c calls warnings) = shown ++ advice ctx warnings := by
  cases hline : c.commandLine? with
  | some git =>
      exact ⟨[.outLine git], String.append_empty, by
        simp [showReport, showText, advice, hjson, hline]⟩
  | none =>
      exact ⟨calls.map fun call => .outLine call.text, stderr_map_outLine EngineCall.text calls, by
        simp [showReport, showText, advice, hjson, hline]⟩

theorem stderr_showReport_converted (ctx : Context) (line : String) (c : Conversion)
    (calls : List EngineCall) (warnings : List Message) :
    (showReport ctx (.converted line c calls
      (warnings.map fun m => (m.key, ctx.catalog.render m)))).stderr = adviceText ctx warnings := by
  cases hjson : ctx.json with
  | true =>
      rw [showReport, if_pos hjson, adviceText, if_neg (by simp [hjson])]
      exact String.append_empty
  | false =>
      obtain ⟨shown, hresult, hshown⟩ := exists_showReport_converted hjson line c calls
        (warnings.map fun m => (m.key, ctx.catalog.render m))
      rw [hshown, Transcript.stderr_append, hresult, String.empty_append, adviceText]
      by_cases hadvised : ctx.showWarnings = true ∧ ctx.verbosity ≠ .quiet
      · rw [if_pos ⟨hjson, hadvised⟩, stderr_advice hadvised.1 hadvised.2, List.map_map]
        rfl
      · have hhidden : ctx.showWarnings = false ∨ ctx.verbosity = .quiet := by
          simpa [or_iff_not_imp_left] using hadvised
        rw [if_neg fun h => hadvised h.2, advice_of_hidden hhidden]
        rfl

/-- On the standard error output, a line of a stream has its advisories, or as text why it was
refused. -/
theorem stderr_showInTurn (ctx : Context) (line : String) :
    (showInTurn ctx (reportAlone ctx line)).stderr =
      besides ctx (Registry.builtin.convert line .new).1 := by
  rw [reportAlone, LineReport.ofLine]
  obtain ⟨result, after⟩ := Registry.builtin.convert line .new
  cases result with
  | ok c =>
      show Transcript.stderr (showReport ctx _ ++ _) = _
      rw [Transcript.stderr_append]
      refine (congrArg₂ (· ++ ·) (stderr_showReport_converted ctx line c _ c.warnings) ?_).trans
        String.append_empty
      cases ctx.json <;> rfl
  | error e =>
      cases hjson : ctx.json with
      | true =>
          simp only [LineReport.ofResult, showInTurn, showReport, besides, hjson, if_true,
            List.append_nil]
          exact String.append_empty
      | false =>
          simp only [LineReport.ofResult, showInTurn, showReport, besides, hjson,
            Bool.false_eq_true, if_false]
          exact String.append_empty

theorem stderr_convertWords_of_ok {words : List String} {c : Conversion}
    (h : (Registry.builtin.convert (Token.join words) .new).1 = .ok c) :
    (convertWords ctx words).transcript.stderr = adviceText ctx c.warnings := by
  rw [convertWords, LineReport.ofLine]
  generalize Registry.builtin.convert (Token.join words) .new = converted at h ⊢
  obtain ⟨result, after⟩ := converted
  obtain rfl : result = .ok c := h
  exact stderr_showReport_converted ctx (Token.join words) c _ c.warnings

/-- On the standard error output a stream has what its lines have, and why it was not read to its
end. -/
theorem stderr_repl (ctx : Context) (input : List UInt8) :
    (repl ctx input).transcript.stderr = String.join ((inputLines input).map fun line =>
      besides ctx (Registry.builtin.convert line .new).1) ++ unreadText (process ctx input) := by
  have hprocess : (process ctx input).transcript.stderr = String.join ((inputLines input).map
      fun line => besides ctx (Registry.builtin.convert line .new).1) := by
    rw [transcript_process, stderr_flatMap]
    simp only [stderr_showInTurn]
  rw [← hprocess, repl, unreadText]
  cases (process ctx input).summary? with
  | none =>
      show Transcript.stderr (_ ++ [Chunk.error _]) = _
      rw [Transcript.stderr_append]
      rfl
  | some => exact String.append_empty.symm

/-- **How results are presented has no part in what becomes of a line.** Two runs whose contexts
agree on how reports are written end in the same way and count the same lines, whatever the verbosity,
the switch for advisories and the wording are. As text their standard output is the same, and as JSON
the reports are the same without the words of the advisories and of refusals. The advisories of
converted lines are on the standard error output exactly as text, with the switch on and not in
quiet. -/
theorem presentation_neutral {ctx ctx' : Context} (hjson : ctx.json = ctx'.json)
    (words : List String) (input : List UInt8) :
    ToldTheSame ctx ctx' [Token.join words] (convertWords ctx words) (convertWords ctx' words) ∧
    ToldTheSame ctx ctx' (inputLines input) (repl ctx input) (repl ctx' input) ∧
    (process ctx input).summary? = (process ctx' input).summary? ∧
    (∀ c, (Registry.builtin.convert (Token.join words) .new).1 = .ok c →
      (convertWords ctx words).transcript.stderr = adviceText ctx c.warnings) ∧
    (repl ctx input).transcript.stderr =
      String.join ((inputLines input).map fun line =>
        besides ctx (Registry.builtin.convert line .new).1) ++ unreadText (process ctx input) :=
  ⟨toldTheSame_convertWords hjson words, toldTheSame_repl hjson input,
    summary?_process_eq ctx ctx' input, fun _ h => stderr_convertWords_of_ok h,
    stderr_repl ctx input⟩

/-- Quiet and with a text of its own, which has an open brace, what becomes of a line with an
advisory is told as in English. -/
theorem presentation_neutral_other_words :
    let ctx : Context := ⟨.quiet, true, false, .overriding fun _ => some "no \x7b needed"⟩
    let ctx' : Context := ⟨.normal, true, true, .english⟩
    let words := ["hg", "ci", "-A"]
    let advisory : Message := .plain .addFlagUnneeded
    ctx.json = ctx'.json ∧ ctx.catalog.render advisory ≠ ctx'.catalog.render advisory ∧
      ToldTheSame ctx ctx' ["hg ci -A"] (convertWords ctx words) (convertWords ctx' words) := by
  intro ctx ctx' words advisory
  have hline : Token.join ["hg", "ci", "-A"] = "hg ci -A" := by decide
  have hjson : ctx.json = ctx'.json := rfl
  exact ⟨hjson, by decide +kernel, hline ▸ (presentation_neutral hjson words []).1⟩

end Program

end HgToGit
