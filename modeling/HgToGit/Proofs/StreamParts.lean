/-
# HgToGit.Proofs.StreamParts -- a stream in two parts

A stream is cut where a line ends. Its run is the run of the first part, followed by the run of the
second unless the first broke off (`Program.process_append`): the loop carries an engine and two
counts, and at the end of every line the engine is new and the counts only have to be added up.

A line feed is no part of the encoding of another character, so a stream is text exactly if each of
its lines is (`Program.isText_iff_lines`). A first part that is no text therefore has a first line
that is none, and nothing behind the front of that line counts (`Program.process_of_breaksAfter`).
-/
import HgToGit.Proofs.LineByLine

namespace HgToGit.Program

/-! ## Bytes that are text -/

/-- Bytes are text if they are valid UTF-8. -/
def IsText (bytes : List UInt8) : Prop := bytes.toByteArray.IsValidUTF8

instance : DecidablePred IsText := fun bytes =>
  inferInstanceAs (Decidable bytes.toByteArray.IsValidUTF8)

theorem isText_nil : IsText [] := ByteArray.isValidUTF8_empty

theorem isSome_decode_iff {bytes : List UInt8} : (decode bytes).isSome ↔ IsText bytes := by
  unfold decode String.fromUTF8?
  by_cases h : bytes.toByteArray.IsValidUTF8
  · rw [dif_pos h]
    exact iff_of_true rfl h
  · rw [dif_neg h]
    exact iff_of_false Bool.false_ne_true h

theorem decode_eq_none_iff {bytes : List UInt8} : decode bytes = none ↔ ¬ IsText bytes := by
  rw [← isSome_decode_iff, Option.not_isSome_iff_eq_none]

theorem toByteArray_lineFeed : [lineFeed].toByteArray = ['\n'].utf8Encode := by
  decide +kernel

/-- Text can be cut in front of a line feed and behind it. -/
theorem isValidUTF8_of_append_lineFeed {a b : ByteArray}
    (h : (a ++ (['\n'].utf8Encode ++ b)).IsValidUTF8) : a.IsValidUTF8 ∧ b.IsValidUTF8 := by
  have hsize : (a ++ (['\n'].utf8Encode ++ b)).size = a.size + (1 + b.size) := by
    rw [ByteArray.size_append, ByteArray.size_append]
    rfl
  have hlt : a.size < (a ++ (['\n'].utf8Encode ++ b)).size := by omega
  have hbyte : (a ++ (['\n'].utf8Encode ++ b))[a.size] = lineFeed := by
    rw [ByteArray.getElem_append_right (Nat.le_refl _)]
    simp only [Nat.sub_self]
    rw [ByteArray.getElem_append_left (by decide)]
    decide +kernel
  -- The byte of a line feed begins a character, so the text has a place between characters there.
  have hbegins : UInt8.IsUTF8FirstByte ((a ++ (['\n'].utf8Encode ++ b))[a.size]) := by
    rw [hbyte]
    decide
  have hplace : String.Pos.Raw.IsValid (String.fromUTF8 _ h) ⟨a.size⟩ :=
    String.Pos.Raw.isValid_iff_isUTF8FirstByte.mpr (.inr ⟨hlt, hbegins⟩)
  have hfront := hplace.isValidUTF8_extract_zero
  have hback := hplace.isValidUTF8_extract_utf8ByteSize
  simp only [String.fromUTF8, ← String.size_toByteArray] at hfront hback
  constructor
  · rwa [ByteArray.extract_append_eq_left rfl] at hfront
  · rw [ByteArray.extract_append_eq_right rfl ByteArray.size_append] at hback
    exact ByteArray.isValidUTF8_utf8Encode_singleton_append_iff.mp hback

theorem isText_append_lineFeed_iff {a b : List UInt8} :
    IsText (a ++ lineFeed :: b) ↔ IsText a ∧ IsText b := by
  have hbytes : (a ++ lineFeed :: b).toByteArray =
      a.toByteArray ++ (['\n'].utf8Encode ++ b.toByteArray) := by
    rw [List.toByteArray_append, ← List.singleton_append, List.toByteArray_append,
      toByteArray_lineFeed]
  unfold IsText
  rw [hbytes]
  constructor
  · exact isValidUTF8_of_append_lineFeed
  · rintro ⟨ha, hb⟩
    exact ha.append (ByteArray.isValidUTF8_utf8Encode.append hb)

/-! ## Lines of a stream in two parts -/

/-- Every line of a stream has its end. -/
def EndsLine (stream : List UInt8) : Prop := stream = [] ∨ stream.getLast? = some lineFeed

/-- A stream whose lines have their ends is made of them. -/
@[elab_as_elim]
theorem EndsLine.induction {motive : (stream : List UInt8) → EndsLine stream → Prop}
    (nil : motive [] (.inl rfl))
    (cons : ∀ line rest (hrest : EndsLine rest) (h : EndsLine (line ++ lineFeed :: rest)),
      lineFeed ∉ line → motive rest hrest → motive (line ++ lineFeed :: rest) h)
    {stream : List UInt8} (h : EndsLine stream) : motive stream h := by
  induction hlength : stream.length using Nat.strong_induction_on generalizing stream with
  | _ n ih =>
      rcases id h with rfl | hlast
      · exact nil
      · obtain ⟨line, rest, rfl, hline⟩ :=
          List.eq_append_cons_of_mem (List.mem_of_getLast? hlast)
        have hrest : EndsLine rest := by
          rw [EndsLine, or_iff_not_imp_left]
          intro hne
          rwa [List.getLast?_append_of_ne_nil _ (List.cons_ne_nil _ _),
            List.getLast?_cons_of_ne_nil hne] at hlast
        refine cons line rest hrest h hline (ih rest.length ?_ hrest rfl)
        rw [← hlength, List.length_append, List.length_cons]
        omega

theorem byteLines_append_cons {line : List UInt8} (hline : lineFeed ∉ line)
    (reversed rest : List UInt8) :
    byteLines reversed (line ++ lineFeed :: rest) =
      (reversed.reverse ++ line) :: byteLines [] rest := by
  induction line generalizing reversed with
  | nil => simp [byteLines]
  | cons b line ih =>
      obtain ⟨hb, hline⟩ : lineFeed ≠ b ∧ lineFeed ∉ line := by simpa using hline
      rw [List.cons_append, byteLines, if_neg (Ne.symm hb), ih hline, List.reverse_cons,
        List.append_assoc, List.singleton_append]

theorem byteLines_append {first : List UInt8} (hfirst : EndsLine first) (second : List UInt8) :
    byteLines [] (first ++ second) = byteLines [] first ++ byteLines [] second := by
  induction hfirst using EndsLine.induction with
  | nil => rfl
  | cons line rest _ _ hline ih =>
      rw [List.append_assoc, List.cons_append, byteLines_append_cons hline,
        byteLines_append_cons hline, ih, List.cons_append]

/-- What has been read of a line counts to it. -/
theorem isText_reverse_append_iff (reversed stream : List UInt8) :
    IsText (reversed.reverse ++ stream) ↔ ∀ line ∈ byteLines reversed stream, IsText line := by
  induction stream generalizing reversed with
  | nil =>
      rw [byteLines]
      split
      next hempty => simp [List.isEmpty_iff.mp hempty, isText_nil]
      next => simp
  | cons b stream ih =>
      rw [byteLines]
      split
      next hb =>
        rw [hb, isText_append_lineFeed_iff, List.forall_mem_cons, ← ih []]
        rfl
      next =>
        rw [← ih (b :: reversed), List.reverse_cons, List.append_assoc, List.singleton_append]

/-- A stream is text if its lines are. -/
theorem isText_iff_lines (stream : List UInt8) :
    IsText stream ↔ ∀ line ∈ byteLines [] stream, IsText line :=
  isText_reverse_append_iff [] stream

/-! ## One run after another -/

namespace Summary

theorem add_zero_left : zero.add = id := by
  funext a
  simp [add, zero]

theorem add_add (a b : Summary) : (a.add b).add = a.add ∘ b.add := by
  funext c
  simp [add, Nat.add_assoc]

end Summary

/-- A run that goes on with another one, unless it broke off. -/
def ReplRun.andThen (first second : ReplRun) : ReplRun :=
  match first.summary? with
  | none => first
  | some summary => ⟨first.transcript ++ second.transcript, second.summary?.map summary.add⟩

namespace ReplRun

theorem andThen_of_none {first : ReplRun} (h : first.summary? = none) (second : ReplRun) :
    first.andThen second = first := by
  rw [andThen, h]

theorem andThen_of_some {first : ReplRun} {summary : Summary} (h : first.summary? = some summary)
    (second : ReplRun) :
    first.andThen second =
      ⟨first.transcript ++ second.transcript, second.summary?.map summary.add⟩ := by
  rw [andThen, h]

/-- What was written and counted in front of a run stays in front of it. -/
theorem andThen_ahead (transcript : Transcript) (summary : Summary) (first second : ReplRun) :
    ReplRun.andThen ⟨transcript ++ first.transcript, first.summary?.map summary.add⟩ second =
      ⟨transcript ++ (first.andThen second).transcript,
        (first.andThen second).summary?.map summary.add⟩ := by
  cases hfirst : first.summary? with
  | none => rw [andThen_of_none rfl, andThen_of_none hfirst, hfirst]
  | some counted =>
      rw [andThen_of_some rfl, andThen_of_some hfirst]
      rw [List.append_assoc, Option.map_map, Summary.add_add]

end ReplRun

/-- The loop over lines goes on behind any line as it would begin. -/
theorem processLines_append (ctx : Context) (first second : List (List UInt8)) :
    processLines ctx .new (first ++ second) =
      (processLines ctx .new first).andThen (processLines ctx .new second) := by
  -- The invariant is the engine of the statement: every line that is kept leaves it new.
  induction first with
  | nil =>
      rw [List.nil_append, processLines, ReplRun.andThen_of_some rfl, Summary.add_zero_left,
        Option.map_id, List.nil_append]
      rfl
  | cons bytes first ih =>
      rw [List.cons_append, processLines, processLines]
      cases decode bytes with
      | none => rfl
      | some text =>
          cases hskip : isSkipped (Text.trim text) with
          | true => simp only [hskip, if_true, ih]
          | false =>
              simp only [hskip, Bool.false_eq_true, if_false, ofLine_eq, ih,
                ReplRun.andThen_ahead]

theorem process_append (ctx : Context) {first : List UInt8} (hfirst : EndsLine first)
    (second : List UInt8) :
    process ctx (first ++ second) = (process ctx first).andThen (process ctx second) := by
  rw [process, byteLines_append hfirst, processLines_append, process, process]

theorem isSome_mapM_iff {α β : Type} (f : α → Option β) (l : List α) :
    (l.mapM f).isSome ↔ ∀ a ∈ l, (f a).isSome := by
  induction l with
  | nil => simp
  | cons a l ih =>
      rw [List.mapM_cons, List.forall_mem_cons, ← ih]
      cases f a with
      | none => simp
      | some b => cases l.mapM f <;> simp

/-- A run comes to its end exactly if the stream is text. -/
theorem isSome_summary?_iff (ctx : Context) (stream : List UInt8) :
    (process ctx stream).summary?.isSome ↔ IsText stream := by
  rw [process, processLines_readable, Option.isSome_map, isSome_mapM_iff, isText_iff_lines]
  simp only [isSome_decode_iff]

/-! ## Streams that break off -/

/-- A stream has a line that is no text, and `front` are the lines before the first such line. -/
structure BreaksAfter (front stream : List UInt8) : Prop where
  /-- The front ends where a line ends. -/
  ended : EndsLine front
  /-- The front is text. -/
  isText : IsText front
  /-- The line behind the front is none. -/
  broken : ∃ line rest, stream = front ++ (line ++ lineFeed :: rest) ∧ lineFeed ∉ line ∧
    ¬ IsText line

theorem exists_breaksAfter {stream : List UInt8} (h : EndsLine stream) (hbroken : ¬ IsText stream) :
    ∃ front, BreaksAfter front stream := by
  induction h using EndsLine.induction with
  | nil => exact absurd isText_nil hbroken
  | cons line rest hrest _ hline ih =>
      by_cases htext : IsText line
      · obtain ⟨front, hended, hfront, line', rest', rfl, hline', hbroken'⟩ :=
          ih fun hrest => hbroken (isText_append_lineFeed_iff.mpr ⟨htext, hrest⟩)
        refine ⟨line ++ lineFeed :: front, ?_, isText_append_lineFeed_iff.mpr ⟨htext, hfront⟩,
          line', rest', by simp, hline', hbroken'⟩
        rw [EndsLine, List.getLast?_append_of_ne_nil _ (List.cons_ne_nil _ _)]
        rcases hended with rfl | hlast
        · exact .inr rfl
        · rw [List.getLast?_cons, hlast]
          exact .inr rfl
      · exact ⟨[], .inl rfl, isText_nil, line, rest, rfl, hline, htext⟩

/-- A line that is no text ends the loop, whatever comes behind it. -/
theorem process_broken_line (ctx : Context) {line : List UInt8} (hline : lineFeed ∉ line)
    (hbroken : ¬ IsText line) (rest : List UInt8) :
    process ctx (line ++ lineFeed :: rest) = ⟨[], none⟩ := by
  rw [process, byteLines_append_cons hline, List.reverse_nil, List.nil_append, processLines,
    decode_eq_none_iff.mpr hbroken]

/-- What is written of a stream that breaks off is what is written of the front. -/
theorem process_of_breaksAfter (ctx : Context) {front stream : List UInt8}
    (h : BreaksAfter front stream) (behind : List UInt8) :
    process ctx (stream ++ behind) = ⟨(process ctx front).transcript, none⟩ := by
  obtain ⟨hended, hfront, line, rest, rfl, hline, hbroken⟩ := h
  obtain ⟨summary, hsummary⟩ :=
    Option.isSome_iff_exists.mp ((isSome_summary?_iff ctx front).mpr hfront)
  rw [List.append_assoc, process_append ctx hended, List.append_assoc, List.cons_append,
    process_broken_line ctx hline hbroken, ReplRun.andThen_of_some hsummary, List.append_nil]
  rfl

/-! ## The standard input in two parts -/

theorem repl_of_isText (ctx : Context) {stream : List UInt8} (h : IsText stream) :
    repl ctx stream = .success (process ctx stream).transcript := by
  obtain ⟨summary, hsummary⟩ :=
    Option.isSome_iff_exists.mp ((isSome_summary?_iff ctx stream).mpr h)
  rw [repl, hsummary]

/-- Standard input behind a part that is text adds what it writes and ends as it ends alone. -/
theorem repl_append (ctx : Context) {first : List UInt8} (hfirst : EndsLine first)
    (htext : IsText first) (second : List UInt8) :
    repl ctx (first ++ second) =
      ⟨(repl ctx second).exit, (repl ctx first).transcript ++ (repl ctx second).transcript⟩ := by
  obtain ⟨summary, hsummary⟩ :=
    Option.isSome_iff_exists.mp ((isSome_summary?_iff ctx first).mpr htext)
  rw [repl_of_isText ctx htext, repl, repl, process_append ctx hfirst,
    ReplRun.andThen_of_some hsummary]
  cases (process ctx second).summary? with
  | none => exact congrArg (Result.mk 1) (List.append_assoc _ _ _)
  | some => rfl

/-- **A stream is processed in parts.** Let a first part be empty or end with a line feed. If it is
valid UTF-8, both outputs of the whole are those of the parts one after the other, the whole
succeeds exactly if the second part does, and then the counts are added up. If one of its lines is
not valid UTF-8, nothing behind counts: the whole goes as the first part alone, which writes what
the lines before the first such line write, and then fails. -/
theorem process_in_parts (ctx : Context) {first : List UInt8}
    (hfirst : first = [] ∨ first.getLast? = some lineFeed) (second : List UInt8) :
    (IsText first →
      (process ctx (first ++ second)).transcript.stdout =
        (process ctx first).transcript.stdout ++ (process ctx second).transcript.stdout ∧
      (process ctx (first ++ second)).transcript.stderr =
        (process ctx first).transcript.stderr ++ (process ctx second).transcript.stderr ∧
      ((process ctx (first ++ second)).summary?.isSome ↔ (process ctx second).summary?.isSome) ∧
      (∃ a, (process ctx first).summary? = some a ∧
        ∀ b, (process ctx second).summary? = some b →
          (process ctx (first ++ second)).summary? =
            some ⟨a.converted + b.converted, a.failed + b.failed⟩) ∧
      repl ctx (first ++ second) =
        ⟨(repl ctx second).exit,
          (repl ctx first).transcript ++ (repl ctx second).transcript⟩) ∧
    ((∃ line ∈ byteLines [] first, ¬ IsText line) →
      process ctx (first ++ second) = process ctx first ∧
      repl ctx (first ++ second) = repl ctx first ∧
      (∃ front, BreaksAfter front first) ∧
      ∀ front, BreaksAfter front first →
        process ctx first = ⟨(process ctx front).transcript, none⟩ ∧
        repl ctx first = .failure (process ctx front).transcript
          "failed to read standard input: stream did not contain valid UTF-8") ∧
    (IsText first ↔ ∀ line ∈ byteLines [] first, IsText line) := by
  refine ⟨fun htext => ?_, fun hbroken => ?_, isText_iff_lines first⟩
  · obtain ⟨a, ha⟩ :=
      Option.isSome_iff_exists.mp ((isSome_summary?_iff ctx first).mpr htext)
    have hrun : process ctx (first ++ second) =
        ⟨(process ctx first).transcript ++ (process ctx second).transcript,
          (process ctx second).summary?.map a.add⟩ := by
      rw [process_append ctx hfirst, ReplRun.andThen_of_some ha]
    refine ⟨?_, ?_, ?_, ⟨a, ha, fun b hb => ?_⟩, repl_append ctx hfirst htext second⟩
    · rw [hrun, Transcript.stdout_append]
    · rw [hrun, Transcript.stderr_append]
    · rw [hrun, Option.isSome_map]
    · rw [hrun, hb]
      rfl
  · have hnot : ¬ IsText first := by
      rw [isText_iff_lines]
      simpa using hbroken
    obtain ⟨front, hfront⟩ := exists_breaksAfter hfirst hnot
    have halone (front : List UInt8) (h : BreaksAfter front first) :
        process ctx first = ⟨(process ctx front).transcript, none⟩ := by
      simpa using process_of_breaksAfter ctx h []
    have hboth : process ctx (first ++ second) = process ctx first := by
      rw [process_of_breaksAfter ctx hfront, halone front hfront]
    refine ⟨hboth, ?_, ⟨front, hfront⟩, fun front h => ⟨halone front h, ?_⟩⟩
    · rw [repl, repl, hboth]
    · rw [repl, halone front h]
      rfl

/-- Behind a line to convert, a line is converted and counted as alone; behind a line that is no
text, nothing is. -/
theorem process_in_parts_second_line :
    let ctx : Context := ⟨.normal, false, true, .english⟩
    let line : List UInt8 := [104, 103, 32, 99, 105, 10]
    let broken : List UInt8 := [104, 103, 255, 10]
    line.getLast? = some lineFeed ∧ broken.getLast? = some lineFeed ∧ IsText line ∧
      ¬ IsText [104, 103, 255] ∧
      (process ctx (line ++ line)).summary? = some ⟨2, 0⟩ ∧
      process ctx (broken ++ line) = process ctx broken ∧
      repl ctx broken =
        .failure [] "failed to read standard input: stream did not contain valid UTF-8" := by
  intro ctx line broken
  have htext : IsText line := by decide +kernel
  have hbroken : ¬ IsText [104, 103, 255] := by decide +kernel
  have hline : (process ctx line).summary? = some ⟨1, 0⟩ := by decide +kernel
  obtain ⟨-, -, -, ⟨a, ha, hsum⟩, -⟩ := (process_in_parts ctx (.inr rfl) line).1 htext
  obtain rfl : a = ⟨1, 0⟩ := Option.some.inj (ha.symm.trans hline)
  have hends : broken = [] ∨ broken.getLast? = some lineFeed := .inr rfl
  obtain ⟨hboth, -, -, halone⟩ :=
    (process_in_parts ctx hends line).2.1 ⟨[104, 103, 255], by decide, hbroken⟩
  have hbreaks : BreaksAfter [] broken :=
    ⟨.inl rfl, isText_nil, [104, 103, 255], [], rfl, by decide, hbroken⟩
  exact ⟨rfl, rfl, htext, hbroken, hsum _ hline, hboth, (halone [] hbreaks).2⟩

end HgToGit.Program
