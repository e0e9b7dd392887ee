/-
# HgToGit.Proofs.Presentation -- text and JSON tell the same

A line is told either as text, on both outputs, or as one report in JSON. The two are written by
different functions, and both leave out what does not apply. They can be compared since there are
only three reports on a line alone (`LineReport.alone_ofLine`): a refusal, a canonical command
without operations of the engine, and exactly one operation without a canonical command. In each of
the three, what the text shows is what the report has.
-/
import HgToGit.Proofs.JsonText
import HgToGit.Proofs.LineByLine

namespace HgToGit

/-! ## Reading a report -/

namespace Report.Json

/-- The members of an object. Another value has none. -/
def members : Json → List (String × Json)
  | object members => members
  | _ => []

/-- The items of a list. Another value has none. -/
def items : Json → List Json
  | list items => items
  | _ => []

/-- What stands at a path of member names. -/
def at? : Json → List String → Option Json
  | json, [] => some json
  | json, name :: path => (TextMap.lookup name json.members).bind fun value => value.at? path

/-- The texts of the advisories in a report, in order. -/
def advisories (report : Json) : List (Option Json) :=
  ((report.at? ["warnings"]).elim [] items).map fun advisory => advisory.at? ["text"]

end Report.Json

open HgToGit.Report (Json)

theorem TextMap.lookup_append {α : Type} (key : String) (l l' : List (String × α)) :
    lookup key (l ++ l') = (lookup key l).or (lookup key l') := by
  induction l with
  | nil => rfl
  | cons e l ih =>
      obtain ⟨k, v⟩ := e
      by_cases hk : k = key <;> simp [lookup, hk, ih]

/-- Only an operation of the engine has no canonical command line. -/
theorem Conversion.commandLine?_eq_none_iff {c : Conversion} :
    c.commandLine? = none ↔ c.outcome = .executed := by
  cases hout : c.outcome <;> simp [commandLine?, hout, Outcome.words?]

namespace LineReport

theorem lookup_listMember (key name : String) (items : List Json) :
    TextMap.lookup key (listMember name items) =
      if name = key ∧ items ≠ [] then some (.list items) else none := by
  cases items <;> simp [listMember, TextMap.lookup]

theorem lookup_optionMember (key name : String) (text? : Option String) :
    TextMap.lookup key (text?.toList.map fun text => (name, Json.text text)) =
      if name = key then text?.map .text else none := by
  cases text? <;> simp [TextMap.lookup]

/-- The members of the report on a converted line that may be left out. -/
theorem at?_converted (line : String) (c : Conversion) (calls : List EngineCall)
    (warnings : List (MessageKey × String)) :
    let report := (converted line c calls warnings).toJson
    report.at? ["git"] = c.commandLine?.map .text ∧
    report.at? ["engine_calls"] =
      (if calls = [] then none else some (.list (calls.map callJson))) ∧
    report.at? ["warnings"] = (if warnings = [] then none else some (.list (warnings.map fun w =>
      .object [("key", .text w.1.text), ("text", .text w.2)]))) ∧
    report.at? ["error"] = none := by
  intro report
  refine ⟨?_, ?_, ?_, ?_⟩ <;>
    simp [report, toJson, Json.at?, Json.members, TextMap.lookup_append, lookup_listMember,
      lookup_optionMember, TextMap.lookup]

theorem at?_outcome (line : String) (c : Conversion) (calls : List EngineCall)
    (warnings : List (MessageKey × String)) :
    (converted line c calls warnings).toJson.at? ["outcome", "type"] =
      some (.text (if c.outcome = .executed then "executed" else "delegated")) := by
  show (outcomeJson c.outcome).at? ["type"] = _
  cases c.outcome <;> rfl

theorem advisories_converted (line : String) (c : Conversion) (calls : List EngineCall)
    (warnings : List (MessageKey × String)) :
    (converted line c calls warnings).toJson.advisories =
      warnings.map fun w => some (Json.text w.2) := by
  rw [Json.advisories, (at?_converted line c calls warnings).2.2.1]
  by_cases hnil : warnings = []
  · simp [hnil]
  · simp [hnil, Json.items, Json.at?, Json.members, TextMap.lookup]

/-! ## The three reports on a line alone -/

/-- What the report on a line can be, if the engine is new and refuses nothing. -/
inductive Alone (catalog : Catalog) (line : String) : LineReport → Prop where
  /-- The line was refused. -/
  | refused (e : Failure) : Alone catalog line (.refused line e (catalog.render e.message))
  /-- The line became a canonical command, and the engine was not asked. -/
  | delegated (c : Conversion) (h : c.outcome ≠ .executed) : Alone catalog line
      (.converted line c [] (c.warnings.map fun m => (m.key, catalog.render m)))
  /-- The engine performed one operation. -/
  | executed (c : Conversion) (call : EngineCall) (h : c.outcome = .executed) : Alone catalog line
      (.converted line c [call] (c.warnings.map fun m => (m.key, catalog.render m)))

theorem alone_ofLine (catalog : Catalog) (line : String) :
    Alone catalog line (ofLine catalog .new line).1 := by
  have hfate := Registry.builtin.convert_fate line
  unfold ofLine
  generalize Registry.builtin.convert line = convert at hfate ⊢
  cases hfate with
  | refused e _ hconvert =>
      rw [hconvert]
      exact .refused e
  | delegated c houtcome hconvert =>
      rw [hconvert]
      exact .delegated c houtcome
  | direct c call houtcome _ hconvert =>
      rw [hconvert]
      exact .executed c call houtcome

end LineReport

/-! ## What text shows -/

namespace Program

/-- What is written about the advisories of a converted line. -/
def advice (ctx : Context) (warnings : List (MessageKey × String)) : Transcript :=
  if ctx.showWarnings then warnings.flatMap fun w => warn ctx.verbosity w.2 else []

theorem stdout_warn (verbosity : Verbosity) (text : String) :
    Transcript.stdout (warn verbosity text) = "" := by
  unfold warn
  split <;> rfl

theorem stderr_warn {verbosity : Verbosity} (h : verbosity ≠ .quiet) (text : String) :
    Transcript.stderr (warn verbosity text) = "warning: " ++ text ++ "\n" := by
  rw [warn, if_neg h]
  exact String.append_empty

theorem join_map_empty {α : Type} (l : List α) : String.join (l.map fun _ => "") = "" := by
  induction l with
  | nil => rfl
  | cons a l ih => rw [List.map_cons, String.join_cons, ih, String.empty_append]

/-- Advisories are not on the standard output. -/
theorem stdout_advice (ctx : Context) (warnings : List (MessageKey × String)) :
    (advice ctx warnings).stdout = "" := by
  unfold advice
  split
  · rw [stdout_flatMap]
    simp only [stdout_warn, join_map_empty]
  · rfl

theorem stderr_advice {ctx : Context} (hshow : ctx.showWarnings = true)
    (hverbosity : ctx.verbosity ≠ .quiet) (warnings : List (MessageKey × String)) :
    (advice ctx warnings).stderr =
      String.join (warnings.map fun w => "warning: " ++ w.2 ++ "\n") := by
  rw [advice, if_pos hshow, stderr_flatMap]
  simp only [stderr_warn hverbosity]

theorem advice_of_hidden {ctx : Context} (h : ctx.showWarnings = false ∨ ctx.verbosity = .quiet)
    (warnings : List (MessageKey × String)) : advice ctx warnings = [] := by
  rcases h with hhidden | hquiet
  · simp [advice, hhidden]
  · simp [advice, warn, hquiet]

/-! ## Both ways to tell a line -/

/-- The report in JSON on the line that words make. -/
def jsonReport (ctx : Context) (words : List String) : Json :=
  (reportAlone ctx (Token.join words)).toJson

/-- Words are converted to one report, however it is written. -/
theorem runCommand_translate (ctx : Context) (json : Bool) (words : List String)
    (input : List UInt8) : runCommand { ctx with json := json } input (.translate words) =
      .ofReport { ctx with json := json } (reportAlone ctx (Token.join words)) := by
  rw [runCommand, convertWords, reportAlone]

/-- As JSON a report is written on one line of the standard output. -/
theorem stdout_showReport_json {ctx : Context} (hjson : ctx.json = true) (report : LineReport) :
    (showReport ctx report).stdout = report.toJson.render ++ "\n" := by
  rw [showReport, if_pos hjson]
  exact String.append_empty

theorem stdout_error (message : String) : Transcript.stdout [.error message] = "" := rfl

/-- The standard output has of a line what it has of the report on it. -/
theorem stdout_ofReport (ctx : Context) (report : LineReport) :
    (Result.ofReport ctx report).transcript.stdout = (showReport ctx report).stdout := by
  cases report with
  | converted => rfl
  | refused line e message =>
      show Transcript.stdout (_ ++ [Chunk.error message]) = _
      rw [Transcript.stdout_append, stdout_error, String.append_empty]

/-- A result is shown as text as it is reported: either a canonical command line, or an operation
that the engine performed, and never both or none. -/
inductive ResultAlike (stdout : String) (report : Json) : Prop where
  /-- The outcome is a canonical command, whose line is shown. -/
  | delegated (git : String) :
      report.at? ["outcome", "type"] = some (.text "delegated") →
      report.at? ["git"] = some (.text git) → report.at? ["engine_calls"] = none →
      stdout = git ++ "\n" → ResultAlike stdout report
  /-- The outcome is one operation, which is shown. -/
  | executed (call : EngineCall) :
      report.at? ["outcome", "type"] = some (.text "executed") →
      report.at? ["git"] = none →
      report.at? ["engine_calls"] = some (.list [LineReport.callJson call]) →
      stdout = call.text ++ "\n" → ResultAlike stdout report

theorem ResultAlike.of_delegated {line git : String} {c : Conversion}
    {warnings : List (MessageKey × String)} (hgit : c.commandLine? = some git) :
    ResultAlike (git ++ "\n") (LineReport.converted line c [] warnings).toJson := by
  have houtcome : c.outcome ≠ .executed := by
    rw [Ne, ← Conversion.commandLine?_eq_none_iff, hgit]
    exact nofun
  obtain ⟨hreported, hcalls, -⟩ := LineReport.at?_converted line c [] warnings
  refine .delegated git ?_ ?_ hcalls rfl
  · rw [LineReport.at?_outcome, if_neg houtcome]
  · rw [hreported, hgit]
    rfl

theorem ResultAlike.of_executed {line : String} {c : Conversion} {call : EngineCall}
    {warnings : List (MessageKey × String)} (houtcome : c.outcome = .executed) :
    ResultAlike (call.text ++ "\n") (LineReport.converted line c [call] warnings).toJson := by
  obtain ⟨hreported, hcalls, -⟩ := LineReport.at?_converted line c [call] warnings
  refine .executed call ?_ ?_ hcalls rfl
  · rw [LineReport.at?_outcome, if_pos houtcome]
  · rw [hreported, Conversion.commandLine?_eq_none_iff.mpr houtcome]
    rfl

/-- The advisories of a report are shown as text, each on a line and in order, unless they are not
to be shown. A report without advisories has no member for them. -/
def AdvisedAlike (ctx : Context) (stderr : String) (report : Json) : Prop :=
  ∃ texts : List String, report.advisories = texts.map (fun text => some (.text text)) ∧
    (report.at? ["warnings"] = none ↔ texts = []) ∧
    (ctx.showWarnings = true → ctx.verbosity ≠ .quiet →
      stderr = String.join (texts.map fun text => "warning: " ++ text ++ "\n")) ∧
    (ctx.showWarnings = false ∨ ctx.verbosity = .quiet → stderr = "")

/-- Two runs on one line, one of which writes text and the other a report, tell the same. -/
inductive ToldAlike (ctx : Context) (line : String) (text json : Result) (report : Json) :
    Prop where
  /-- Both say that the line was converted, and to what. -/
  | converted : text.exit = 0 → json.exit = 0 →
      report.at? ["line"] = some (.text line) → report.at? ["ok"] = some (.bool true) →
      report.at? ["error"] = none → ResultAlike text.transcript.stdout report →
      AdvisedAlike ctx text.transcript.stderr report → ToldAlike ctx line text json report
  /-- Both say that the line was refused, in the same words. -/
  | refused (message : String) : text.exit = 1 → json.exit = 1 →
      report.members.map Prod.fst = ["line", "ok", "error"] →
      report.at? ["line"] = some (.text line) → report.at? ["ok"] = some (.bool false) →
      report.at? ["error", "message"] = some (.text message) → text.transcript.stdout = "" →
      text.transcript.stderr = "error: " ++ message ++ "\n" → ToldAlike ctx line text json report

theorem advisedAlike (ctx : Context) (line : String) (c : Conversion) (calls : List EngineCall)
    (warnings : List (MessageKey × String)) :
    AdvisedAlike ctx (advice ctx warnings).stderr
      (LineReport.converted line c calls warnings).toJson := by
  refine ⟨warnings.map Prod.snd, ?_, ?_, fun hshow hverbosity => ?_, fun hhidden => ?_⟩
  · rw [LineReport.advisories_converted, List.map_map]
    rfl
  · rw [(LineReport.at?_converted line c calls warnings).2.2.1]
    simp
  · rw [stderr_advice hshow hverbosity, List.map_map]
    rfl
  · rw [advice_of_hidden hhidden]
    rfl

/-- A converted line is told alike if the one line that text shows of its outcome is that of the
report. -/
theorem toldAlike_converted {ctx : Context} {line : String} {c : Conversion}
    {calls : List EngineCall} {warnings : List (MessageKey × String)} {shown : String}
    (hshown : showText { ctx with json := false } (.converted line c calls warnings) =
      .outLine shown :: advice ctx warnings)
    (hresult : ResultAlike (shown ++ "\n") (LineReport.converted line c calls warnings).toJson) :
    ToldAlike ctx line (.ofReport { ctx with json := false } (.converted line c calls warnings))
      (.ofReport { ctx with json := true } (.converted line c calls warnings))
      (LineReport.converted line c calls warnings).toJson := by
  have htext : Result.ofReport { ctx with json := false } (.converted line c calls warnings) =
      .success ([.outLine shown] ++ advice ctx warnings) :=
    congrArg Result.success hshown
  have hstdout : Transcript.stdout ([.outLine shown] ++ advice ctx warnings) = shown ++ "\n" := by
    rw [Transcript.stdout_append, stdout_advice, String.append_empty]
    exact String.append_empty
  have hstderr : Transcript.stderr ([.outLine shown] ++ advice ctx warnings) =
      (advice ctx warnings).stderr := by
    rw [Transcript.stderr_append]
    exact String.empty_append
  rw [htext]
  refine .converted rfl rfl rfl rfl (LineReport.at?_converted line c calls warnings).2.2.2 ?_ ?_
  · exact hstdout.symm ▸ hresult
  · exact hstderr.symm ▸ advisedAlike ctx line c calls warnings

/-- **Text and JSON tell the same.** Whatever the wording of the messages and the line are, both
ways to write end well or both do not. As JSON exactly one report is written on the standard output,
and the output tells which; text shows there what the report has: the canonical command line or the
operation, and nothing if the line was refused. The advisories and the reason for a refusal are in
the words of the report. -/
theorem text_and_json_agree (ctx : Context) (words : List String) (input : List UInt8) :
    let text := runCommand { ctx with json := false } input (.translate words)
    let json := runCommand { ctx with json := true } input (.translate words)
    (∀ report : Json, json.transcript.stdout = report.render ++ "\n" ↔
        report = jsonReport ctx words) ∧
      ToldAlike ctx (Token.join words) text json (jsonReport ctx words) := by
  intro text json
  have htext : text = _ := runCommand_translate ctx false words input
  have hjson : json = _ := runCommand_translate ctx true words input
  have halone := LineReport.alone_ofLine ctx.catalog (Token.join words)
  have hwritten : json.transcript.stdout = (jsonReport ctx words).render ++ "\n" := by
    rw [hjson, stdout_ofReport, stdout_showReport_json rfl, jsonReport]
  refine ⟨fun report => ?_, ?_⟩
  · rw [hwritten, String.append_left_inj, Json.render_injective.eq_iff, eq_comm]
  · rw [htext, hjson, jsonReport, reportAlone]
    -- The catalog and the line count no more, only which of the three reports it is.
    generalize (LineReport.ofLine ctx.catalog .new (Token.join words)).1 = report at halone ⊢
    cases halone with
    | refused e => exact .refused _ rfl rfl rfl rfl rfl rfl rfl String.append_empty
    | delegated c houtcome =>
        obtain ⟨git, hgit⟩ :=
          Option.ne_none_iff_exists'.mp (mt Conversion.commandLine?_eq_none_iff.mp houtcome)
        refine toldAlike_converted ?_ (.of_delegated hgit)
        rw [showText, hgit]
        rfl
    | executed c call houtcome =>
        refine toldAlike_converted ?_ (.of_executed houtcome)
        rw [showText, Conversion.commandLine?_eq_none_iff.mpr houtcome]
        rfl

end Program

end HgToGit
