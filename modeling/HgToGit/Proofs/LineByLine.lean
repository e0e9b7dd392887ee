/-
# HgToGit.Proofs.LineByLine -- a stream is its lines, each on its own

The lines of a stream share one engine, while a line on the command line gets a new one. The log is
taken after every line that is converted and was never touched by one that is refused, so every
line of the stream finds the engine as if it were new (`LineReport.ofLine_new`). What is written
for a line in turn is then what is written for the line alone, and the counts are counts of lines
alone.
-/
import HgToGit.Program
import HgToGit.Proofs.Effect

namespace HgToGit

/-! ## A line alone -/

/-- A report has the operations that the line made, and no others, and leaves a new engine as it
was. -/
theorem LineReport.ofLine_new (catalog : Catalog) (line : String) :
    (LineReport.ofLine catalog .new line).1.engineCalls =
        (Registry.builtin.convert line .new).2.calls ∧
      (LineReport.ofLine catalog .new line).2 = .new := by
  have hfate := Registry.builtin.convert_fate line
  unfold LineReport.ofLine
  -- From here on the table does not count, only that the line has a fate.
  generalize Registry.builtin.convert line = convert at hfate ⊢
  cases hfate with
  | refused e _ hconvert =>
      rw [hconvert]
      exact ⟨rfl, rfl⟩
  | delegated c _ hconvert =>
      rw [hconvert]
      exact ⟨rfl, rfl⟩
  | direct c call _ _ hconvert =>
      rw [hconvert]
      exact ⟨rfl, rfl⟩

namespace Program

/-- The report on a line that has a new engine. -/
def reportAlone (ctx : Context) (line : String) : LineReport :=
  (LineReport.ofLine ctx.catalog .new line).1

theorem ofLine_eq (ctx : Context) (line : String) :
    LineReport.ofLine ctx.catalog .new line = (reportAlone ctx line, .new) := by
  have hengine := (LineReport.ofLine_new ctx.catalog line).2
  rw [reportAlone]
  generalize LineReport.ofLine ctx.catalog .new line = result at hengine ⊢
  obtain ⟨report, engine⟩ := result
  exact congrArg (Prod.mk report) hengine

theorem convertWords_singleton (ctx : Context) (line : String) :
    convertWords ctx [line] = .ofReport ctx (reportAlone ctx line) := by
  rw [convertWords, Token.join, String.intercalate_singleton, reportAlone]

theorem exit_convertWords (ctx : Context) (line : String) :
    (convertWords ctx [line]).exit = if (reportAlone ctx line).ok then 0 else 1 := by
  rw [convertWords_singleton]
  cases reportAlone ctx line <;> rfl

/-- A line in turn is told on the standard output as the line alone is. -/
theorem stdout_showInTurn (ctx : Context) (line : String) :
    (showInTurn ctx (reportAlone ctx line)).stdout =
      (convertWords ctx [line]).transcript.stdout := by
  rw [convertWords_singleton]
  cases reportAlone ctx line with
  | converted line c calls warnings =>
      cases hjson : ctx.json <;> simp [showInTurn, hjson, Result.ofReport, LineReport.error?, Result.success]
  | refused line failure message =>
      cases hjson : ctx.json <;>
        simp [showInTurn, hjson, Result.ofReport, LineReport.error?, Result.failure,
          Transcript.stdout, Chunk.error, Chunk.errLine, Chunk.stdout]

/-- As text, a line in turn is told on both outputs as the line alone is. -/
theorem showInTurn_eq_transcript {ctx : Context} (hjson : ctx.json = false) (line : String) :
    showInTurn ctx (reportAlone ctx line) = (convertWords ctx [line]).transcript := by
  rw [convertWords_singleton]
  cases reportAlone ctx line with
  | converted line c calls warnings =>
      simp [showInTurn, hjson, Result.ofReport, LineReport.error?, Result.success]
  | refused line failure message =>
      simp [showInTurn, hjson, Result.ofReport, LineReport.error?, Result.failure]

/-! ## The lines of a stream -/

/-- The lines that are converted: trimmed, and neither empty nor begun with a number sign. -/
def keptLines (lines : List String) : List String :=
  (lines.map Text.trim).filter fun line => line ≠ "" ∧ line.toList.head? ≠ some '#'

theorem isSkipped_iff (line : String) :
    isSkipped line = true ↔ line = "" ∨ line.toList.head? = some '#' := by
  rw [isSkipped]
  cases hline : line.toList with
  | nil => simp [String.toList_eq_nil_iff.mp hline]
  | cons c cs =>
      have hne : line ≠ "" := by
        rintro rfl
        simp at hline
      simp [hne]

theorem keptLines_cons_of_skipped {text : String} (h : isSkipped (Text.trim text) = true)
    (lines : List String) : keptLines (text :: lines) = keptLines lines := by
  rw [isSkipped_iff] at h
  rw [keptLines, List.map_cons, List.filter_cons_of_neg (by simpa [or_iff_not_imp_left] using h)]
  rfl

theorem keptLines_cons_of_kept {text : String} (h : isSkipped (Text.trim text) = false)
    (lines : List String) : keptLines (text :: lines) = Text.trim text :: keptLines lines := by
  rw [← Bool.not_eq_true, isSkipped_iff, not_or] at h
  rw [keptLines, List.map_cons, List.filter_cons_of_pos (by simpa using h)]
  rfl

/-- The count of lines that are converted and that are refused. -/
def summaryAlone (ctx : Context) (lines : List String) : Summary :=
  ⟨lines.countP fun line => (convertWords ctx [line]).exit = 0,
    lines.countP fun line => (convertWords ctx [line]).exit ≠ 0⟩

theorem summaryAlone_cons (ctx : Context) (line : String) (lines : List String) :
    summaryAlone ctx (line :: lines) =
      (Summary.ofReport (reportAlone ctx line)).add (summaryAlone ctx lines) := by
  simp only [summaryAlone, List.countP_cons, exit_convertWords, Summary.ofReport, Summary.add]
  cases (reportAlone ctx line).ok <;> simp [Nat.add_comm]

/-- The lines of a stream in front of the first that is no text. -/
def readable : List (List UInt8) → List String
  | [] => []
  | bytes :: more =>
    match decode bytes with
    | some text => text :: readable more
    | none => []

theorem readable_eq {stream : List (List UInt8)} {lines : List String}
    (h : stream.mapM decode = some lines) : readable stream = lines := by
  induction stream generalizing lines with
  | nil => simpa [readable] using h
  | cons bytes stream ih =>
      rw [List.mapM_cons] at h
      obtain ⟨text, htext, h⟩ := Option.bind_eq_some_iff.mp h
      obtain ⟨more, hmore, h⟩ := Option.bind_eq_some_iff.mp h
      obtain rfl : text :: more = lines := Option.some.inj h
      rw [readable, htext, ih hmore]

/-- The loop over the lines of a stream finds the engine new at every line, and ends at the first
that is no text. -/
theorem processLines_readable (ctx : Context) (stream : List (List UInt8)) :
    processLines ctx .new stream =
      ⟨(keptLines (readable stream)).flatMap fun line => showInTurn ctx (reportAlone ctx line),
        (stream.mapM decode).map fun lines => summaryAlone ctx (keptLines lines)⟩ := by
  -- The invariant is the engine of the statement: every line that is kept leaves it new.
  induction stream with
  | nil => rfl
  | cons bytes stream ih =>
      rw [processLines, readable, List.mapM_cons]
      cases decode bytes with
      | none => rfl
      | some text =>
          cases hskip : isSkipped (Text.trim text) with
          | true =>
              simp only [hskip, if_true, ih, keptLines_cons_of_skipped hskip, ReplRun.mk.injEq,
                true_and]
              cases stream.mapM decode with
              | none => rfl
              | some lines =>
                  exact congrArg (fun kept => some (summaryAlone ctx kept))
                    (keptLines_cons_of_skipped hskip lines).symm
          | false =>
              simp only [hskip, Bool.false_eq_true, if_false, ofLine_eq, ih,
                keptLines_cons_of_kept hskip, List.flatMap_cons, ReplRun.mk.injEq, true_and]
              cases stream.mapM decode with
              | none => rfl
              | some lines =>
                  have hkept := keptLines_cons_of_kept hskip lines
                  exact congrArg some ((summaryAlone_cons ctx _ _).symm.trans
                    (congrArg (summaryAlone ctx) hkept.symm))

/-- The same for a stream of text. -/
theorem processLines_eq (ctx : Context) {stream : List (List UInt8)} {lines : List String}
    (h : stream.mapM decode = some lines) :
    processLines ctx .new stream =
      ⟨(keptLines lines).flatMap fun line => showInTurn ctx (reportAlone ctx line),
        some (summaryAlone ctx (keptLines lines))⟩ := by
  rw [processLines_readable, readable_eq h, h, Option.map_some]

theorem stdout_flatMap {α : Type} (f : α → Transcript) (l : List α) :
    Transcript.stdout (l.flatMap f) = String.join (l.map fun a => (f a).stdout) := by
  induction l with
  | nil => rfl
  | cons a l ih =>
      rw [List.flatMap_cons, Transcript.stdout_append, ih, List.map_cons, String.join_cons]

theorem stderr_flatMap {α : Type} (f : α → Transcript) (l : List α) :
    Transcript.stderr (l.flatMap f) = String.join (l.map fun a => (f a).stderr) := by
  induction l with
  | nil => rfl
  | cons a l ih =>
      rw [List.flatMap_cons, Transcript.stderr_append, ih, List.map_cons, String.join_cons]

/-- **A stream is its lines, each on its own.** A stream of text is converted like the lines that
are kept of it, in order, each with a new engine: the standard output and, as text, the standard
error output are one after the other what the lines alone write, and the counts are of the lines
that end well and badly alone. Every line is told from a report of its own, which has the
operations that the line made and no others. -/
theorem process_line_by_line (ctx : Context) {input : List UInt8} {lines : List String}
    (h : (byteLines [] input).mapM decode = some lines) :
    (process ctx input).transcript.stdout =
      String.join ((keptLines lines).map fun line => (convertWords ctx [line]).transcript.stdout) ∧
    (ctx.json = false →
      (process ctx input).transcript.stderr =
        String.join
          ((keptLines lines).map fun line => (convertWords ctx [line]).transcript.stderr)) ∧
    (process ctx input).transcript =
      ((keptLines lines).flatMap fun line => showInTurn ctx (reportAlone ctx line)) ∧
    (∀ line, (reportAlone ctx line).engineCalls =
      (Registry.builtin.convert line .new).2.calls) ∧
    (process ctx input).summary? =
      some ⟨(keptLines lines).countP fun line => (convertWords ctx [line]).exit = 0,
        (keptLines lines).countP fun line => (convertWords ctx [line]).exit ≠ 0⟩ := by
  have hrun : process ctx input =
      ⟨(keptLines lines).flatMap fun line => showInTurn ctx (reportAlone ctx line),
        some (summaryAlone ctx (keptLines lines))⟩ := processLines_eq ctx h
  rw [hrun]
  refine ⟨?_, fun hjson => ?_, rfl, fun line => ?_, rfl⟩
  · rw [stdout_flatMap]
    simp only [stdout_showInTurn]
  · rw [stderr_flatMap]
    simp only [showInTurn_eq_transcript hjson]
  · rw [reportAlone]
    exact (LineReport.ofLine_new ctx.catalog line).1

/-- Of a line to convert, a note, a blank line and a line to refuse, one is converted, one is
refused, and the standard error output has what the two write. -/
theorem process_line_by_line_four_lines :
    let ctx : Context := ⟨.normal, false, true, .english⟩
    let run := process ctx [104, 103, 32, 99, 105, 10, 35, 32, 120, 10, 10, 104, 103, 32, 115, 116]
    run.summary? = some ⟨1, 1⟩ ∧
      run.transcript.stderr =
        String.join (["hg ci", "hg st"].map fun line =>
          (convertWords ctx [line]).transcript.stderr) := by
  have hlines : (byteLines [] [104, 103, 32, 99, 105, 10, 35, 32, 120, 10, 10, 104, 103, 32, 115,
      116]).mapM decode = some ["hg ci", "# x", "", "hg st"] := by
    decide +kernel
  have hkept : keptLines ["hg ci", "# x", "", "hg st"] = ["hg ci", "hg st"] := by
    decide +kernel
  intro ctx run
  obtain ⟨-, hstderr, -, -, hsummary⟩ := process_line_by_line ctx hlines
  rw [hkept] at hstderr hsummary
  refine ⟨hsummary.trans ?_, hstderr rfl⟩
  decide +kernel

end Program

end HgToGit
