/-
# HgToGit.Proofs.Access -- nothing is read where there is nothing

A conversion takes lists and texts apart by their form, so it cannot read past their end. The same
conversion can be said by position: the arguments are what stands from a byte offset on, the
revisions of a rebase and the name of a bookmark are entries at an index. Read in this way, a line
has no result at all where a position is out of range.

`Handler.resolveByIndex_eq` and `Registry.convertByIndex_eq` say that both ways agree, so every
position is in range. What guards a position stands elsewhere: a rebase has checked the counts of
both flags and filled in a base before it looks at them, and a bookmark is named by a general
argument because the flags that could name it otherwise have been dealt with.
-/
import HgToGit.Conversion
import HgToGit.Proofs.Delegation
import HgToGit.Proofs.DotRevision
import HgToGit.Proofs.MatchPlace
import HgToGit.Proofs.RegistryTable

namespace HgToGit

/-- A decision that reads some of its data by position. It has no value where a position is out of
range; a refusal is a value. -/
abbrev Indexed (α : Type) := ExceptT Failure Option α

/-- The entry of a list at an index. -/
def Indexed.entry {α : Type} (l : List α) (index : Nat) : Indexed α := l[index]?.map .ok

namespace Failure

theorem checkBounds_of_mem {count min max : Nat} {what : String} (hmin : min ≤ count)
    (hmax : count ≤ max) : checkBounds count min max what = .ok () := by
  rw [checkBounds, if_neg (by omega), if_neg (by omega)]

theorem checkBounds_of_gt {count min max : Nat} {what : String} (hmin : min ≤ count)
    (hmax : max < count) : checkBounds count min max what = .error (.tooMany max what) := by
  rw [checkBounds, if_neg (by omega), if_pos hmax]

end Failure

namespace Handler

/-! ## Handlers by index -/

/-- How many names and revisions a bookmark line gives. -/
def bookmarkNamed (inv : Invocation) : Nat :=
  inv.general.length + (inv.optionArgs "-r").length + (inv.optionArgs "-d").length

/-- A bookmark line, by the count of what it names. A bookmark here has the first general argument
as its name. -/
def bookmarkByIndex (inv : Invocation) : Indexed (Canonical × Invocation) :=
  match exclusiveFlags.find? fun pair => inv.hasOption pair.1 && inv.hasOption pair.2 with
  | some (first, second) => throw (.incompatible first second)
  | none =>
    match inv.options.get? "-m" with
    | some names => return (.branch, (inv.setOption "-m" (names ++ inv.general)).setGeneral [])
    | none =>
      if bookmarkNamed inv = 0 then return (.branch, inv)
      else
        match inv.options.get? "-d" with
        | some names => return (.branch, (inv.dropOption "-d").setOption "-D" names)
        | none => do
          if inv.hasOption "-r" then return (.branch, ← bookmarkAtRevision inv)
          let name ← Indexed.entry inv.general 0
          return (.checkout, bookmarkHere inv name (inv.general.eraseIdx 0))

/-- The operation of a rebase, by the counts of its flags. The current revision is filled in for a
base that is not given, all dots are resolved, and the first revision of each flag is taken. -/
def rebaseByIndex (inv : Invocation) : Indexed EngineCall := do
  checkRebaseFlags inv
  inv.checkOption "-d" 1 1
  inv.checkOption "-b" 0 1
  let based := if (inv.optionArgs "-b").isEmpty then inv.setOption "-b" [Revision.dot] else inv
  let resolved := based.resolveDots
  let destination ← Indexed.entry (resolved.optionArgs "-d") 0
  let base ← Indexed.entry (resolved.optionArgs "-b") 0
  return .rebase destination base

/-- What a line resolves to, by index. -/
def resolveByIndex (h : Handler) (inv : Invocation) : Indexed Resolution :=
  match h with
  | bookmark => do
    let (command, line) ← bookmarkByIndex inv
    return .delegated command line
  | rebase => return .direct (← rebaseByIndex inv) inv
  | h => h.resolve inv

/-! ## Their indices are in range -/

theorem bookmarkNamed_eq_zero_iff {inv : Invocation} :
    bookmarkNamed inv = 0 ↔
      inv.general = [] ∧ inv.optionArgs "-r" = [] ∧ inv.optionArgs "-d" = [] := by
  simp [bookmarkNamed, and_assoc]

theorem bookmarkByIndex_eq (inv : Invocation) : bookmarkByIndex inv = some (bookmarkLine inv) := by
  unfold bookmarkByIndex bookmarkLine
  cases hpair : exclusiveFlags.find? fun pair => inv.hasOption pair.1 && inv.hasOption pair.2 with
  | some pair => rfl
  | none =>
      obtain ⟨-, hexclusive, -⟩ := absent_of_find?_exclusiveFlags hpair
      cases inv.options.get? "-m" with
      | some names => rfl
      | none =>
          cases hdeleted : inv.options.get? "-d" with
          | some names =>
              -- With `-d` there is no `-r`, so only names and general arguments count.
              have hplaced : inv.options.get? "-r" = none :=
                hexclusive.resolve_left (by simp [hdeleted])
              have hnothing : bookmarkNamed inv = 0 ↔
                  (names.isEmpty && inv.general.isEmpty) = true := by
                rw [bookmarkNamed_eq_zero_iff, optionArgs_of_get?_eq_none hplaced,
                  optionArgs_of_get? hdeleted]
                simp [and_comm]
              simp only [hnothing]
              split <;> rfl
          | none =>
              have hnothing : bookmarkNamed inv = 0 ↔
                  inv.general = [] ∧ inv.optionArgs "-r" = [] := by
                rw [bookmarkNamed_eq_zero_iff, optionArgs_of_get?_eq_none hdeleted]
                simp
              cases hplaced : inv.options.get? "-r" with
              | some values =>
                  simp only [hasOption_of_get? hplaced, if_true]
                  by_cases hnone : bookmarkNamed inv = 0
                  · obtain ⟨hgeneral, hvalues⟩ := hnothing.mp hnone
                    rw [if_pos hnone, bookmarkAtRevision, hgeneral, hvalues]
                    rfl
                  · rw [if_neg hnone]
                    cases bookmarkAtRevision inv <;> rfl
              | none =>
                  rw [hasOption_eq_false_iff.mpr hplaced]
                  cases hgeneral : inv.general with
                  | nil =>
                      rw [if_pos (hnothing.mpr ⟨hgeneral, optionArgs_of_get?_eq_none hplaced⟩)]
                      rfl
                  | cons name others =>
                      -- Something is named, and it can only be a general argument.
                      have hsome : ¬ bookmarkNamed inv = 0 := by
                        rw [hnothing, hgeneral]
                        simp
                      rw [if_neg hsome]
                      rfl

theorem optionArgs_setOption (inv : Invocation) (flag flag' : String) (args : List String) :
    (inv.setOption flag args).optionArgs flag' =
      if flag = flag' then args else inv.optionArgs flag' := by
  show ((inv.options.insert flag args).get? flag').getD [] = _
  rw [TextMap.get?_insert]
  split <;> rfl

theorem rebaseByIndex_eq (inv : Invocation) : rebaseByIndex inv = some (rebaseCall inv) := by
  unfold rebaseByIndex rebaseCall
  cases checkRebaseFlags inv with
  | error e => rfl
  | ok =>
      simp only [Invocation.optionArgs_resolveDots, Invocation.checkOption]
      match hdestination : inv.optionArgs "-d" with
      | [] => rfl
      | _ :: _ :: _ =>
          rw [Failure.checkBounds_of_gt (by simp) (by simp)]
          rfl
      | [destination] =>
          rw [Failure.checkBounds_of_mem (by simp) (by simp)]
          match hbase : inv.optionArgs "-b" with
          | [] =>
              -- The dot that is filled in resolves to the head.
              have hkept : (inv.setOption "-b" [Revision.dot]).optionArgs "-d" = [destination] := by
                rw [optionArgs_setOption, if_neg (by decide), hdestination]
              have hfilled : (inv.setOption "-b" [Revision.dot]).optionArgs "-b" = [Revision.dot] := by
                rw [optionArgs_setOption, if_pos rfl]
              rw [List.isEmpty_nil, if_pos rfl, hkept, hfilled]
              rfl
          | [base] =>
              rw [Failure.checkBounds_of_mem (by simp) (by simp), List.isEmpty_cons,
                if_neg (by simp), hdestination, hbase]
              rfl
          | _ :: _ :: _ =>
              rw [Failure.checkBounds_of_gt (by simp) (by simp)]
              rfl

theorem resolveByIndex_eq (h : Handler) (inv : Invocation) :
    h.resolveByIndex inv = some (h.resolve inv) := by
  cases h with
  | bookmark =>
      unfold resolveByIndex resolve
      rw [bookmarkByIndex_eq]
      cases bookmarkLine inv <;> rfl
  | rebase =>
      unfold resolveByIndex resolve
      rw [rebaseByIndex_eq]
      cases rebaseCall inv <;> rfl
  | commit | status | exportCommits | graft | log | update | backout | histedit | pull
  | summary => rfl

end Handler

/-! ## Lines by position -/

namespace Registry

/-- The command of a line and the arguments after the byte offset at which its match ends, as
`ends` tells it. -/
def recognizeByIndex (ends : Definition → String → Option Nat) (r : Registry) (line : String) :
    Indexed (Definition × Arguments) :=
  let trimmed := Text.trim line
  match r.definitions.findSome? fun d => (ends d trimmed).map (d, ·) with
  | none => throw (.unrecognized trimmed)
  | some (d, offset) => do
    let rest ← (Text.from? trimmed offset : Option String)
    return (d, d.parseArguments rest)

/-- Converts a line by position, and the engine afterwards. -/
def convertByIndex (ends : Definition → String → Option Nat) (r : Registry) (line : String)
    (engine : Engine) : Option (Except Failure Conversion × Engine) := do
  match ← (recognizeByIndex ends r line).run with
  | .error e => return (.error e, engine)
  | .ok (d, a) =>
    match ← (d.handler.resolveByIndex (Invocation.ofArguments d.name a)).run with
    | .error e => return (.error e, engine)
    | .ok (.delegated command line) =>
      return (.ok ⟨d.name, d.exemptFromGolf, .delegated .git command line.options line.general,
        line.warnings⟩, engine)
    | .ok (.direct call line) =>
      let (result, after) := engine.perform call
      return (result.map fun () => ⟨d.name, d.exemptFromGolf, .executed, line.warnings⟩, after)

theorem isValid_of_matchEnd? {d : Definition} {text : String} {offset : Nat}
    (h : d.matchEnd? text = some offset) : (⟨offset⟩ : String.Pos.Raw).IsValid text := by
  obtain ⟨place, hfind, rfl⟩ := Option.map_eq_some_iff.mp h
  rw [← Text.isSome_from?_iff, Text.from?_of_reaches (d.matcher.reaches hfind)]
  rfl

theorem recognizeByIndex_eq (r : Registry) (line : String) :
    recognizeByIndex Definition.matchEnd? r line = some (r.recognize line) := by
  have hfirst : (r.definitions.findSome? fun d =>
      (d.matchEnd? (Text.trim line)).map fun offset => (d, offset)) =
      (r.firstMatch? (Text.trim line)).map fun found => (found.1, found.2.offset) := by
    rw [firstMatch?, List.map_findSome?]
    simp only [Definition.matchEnd?, Option.map_map, Function.comp_def]
  simp only [recognizeByIndex, recognize, hfirst]
  cases hmatch : r.firstMatch? (Text.trim line) with
  | none => rfl
  | some found =>
      obtain ⟨d, place⟩ := found
      obtain ⟨-, hfind⟩ := find?_of_firstMatch? hmatch
      simp only [Option.map_some, Text.from?_of_reaches (d.matcher.reaches hfind)]
      rfl

theorem convertByIndex_eq (r : Registry) (line : String) (engine : Engine) :
    r.convertByIndex Definition.matchEnd? line engine = some (r.convert line engine) := by
  simp only [convertByIndex, convert, Conversion.ofArguments, recognizeByIndex_eq,
    Handler.resolveByIndex_eq, ExceptT.run, Option.bind_eq_bind, Option.bind_some]
  cases r.recognize line with
  | error e => rfl
  | ok found =>
      obtain ⟨d, a⟩ := found
      simp only
      cases d.handler.resolve (Invocation.ofArguments d.name a) with
      | error e => rfl
      | ok resolution =>
          cases resolution with
          | delegated command line => rfl
          | direct call line =>
              simp only
              cases engine.perform call with
              | mk result after => cases result <;> rfl

theorem isSome_recognizeByIndex {ends : Definition → String → Option Nat}
    (hends : ∀ d text offset, ends d text = some offset →
      (⟨offset⟩ : String.Pos.Raw).IsValid text) (r : Registry) (line : String) :
    ∃ found, recognizeByIndex ends r line = some found := by
  simp only [recognizeByIndex]
  split
  · exact ⟨_, rfl⟩
  · rename_i d offset hmatch
    obtain ⟨d', -, hmap⟩ := List.exists_of_findSome?_eq_some hmatch
    obtain ⟨offset', hend, hpair⟩ := Option.map_eq_some_iff.mp hmap
    obtain ⟨rfl, rfl⟩ := Prod.mk.inj hpair
    obtain ⟨rest, hrest⟩ := Option.isSome_iff_exists.mp
      (Text.isSome_from?_iff.mpr (hends _ _ _ hend))
    exact ⟨.ok (d', d'.parseArguments rest), by rw [hrest]; rfl⟩

theorem isSome_convertByIndex {ends : Definition → String → Option Nat}
    (hends : ∀ d text offset, ends d text = some offset →
      (⟨offset⟩ : String.Pos.Raw).IsValid text) (r : Registry) (line : String) (engine : Engine) :
    (r.convertByIndex ends line engine).isSome := by
  obtain ⟨found, hfound⟩ := isSome_recognizeByIndex hends r line
  simp only [convertByIndex, hfound, Handler.resolveByIndex_eq, ExceptT.run, Option.bind_eq_bind,
    Option.bind_some]
  split
  · rfl
  · split <;> rfl

/-- **Nothing is read out of range.** The match of a pattern ends within the text and between two
characters. Every handler, on any flags and arguments, finds what it reads by index, and so does
every conversion, whatever the registry, the line and the engine: it has the result that it has
without positions. Another matcher may take the place of the patterns, as long as its matches end
between characters. -/
theorem convert_in_range :
    (∀ (d : Definition) (text : String) (offset : Nat), d.matchEnd? text = some offset →
      offset ≤ text.utf8ByteSize ∧ (⟨offset⟩ : String.Pos.Raw).IsValid text) ∧
    (∀ (h : Handler) (inv : Invocation), h.resolveByIndex inv = some (h.resolve inv)) ∧
    (∀ (r : Registry) (line : String) (engine : Engine),
      r.convertByIndex Definition.matchEnd? line engine = some (r.convert line engine)) ∧
    ∀ ends : Definition → String → Option Nat,
      (∀ d text offset, ends d text = some offset → (⟨offset⟩ : String.Pos.Raw).IsValid text) →
        ∀ (r : Registry) (line : String) (engine : Engine),
          (r.convertByIndex ends line engine).isSome := by
  refine ⟨fun d text offset h => ?_, Handler.resolveByIndex_eq, convertByIndex_eq,
    fun ends hends r line engine => isSome_convertByIndex hends r line engine⟩
  have hvalid := isValid_of_matchEnd? h
  exact ⟨hvalid.le_utf8ByteSize, hvalid⟩

/-- A match can end behind a blank of three bytes, and the arguments begin there. -/
theorem convert_in_range_wide_blank :
    ∃ d, builtin.get? "rebase" = some d ∧ d.matchEnd? "hg rebase\u3000-d .^" = some 12 ∧
      (⟨12⟩ : String.Pos.Raw).IsValid "hg rebase\u3000-d .^" ∧
      (builtin.convertByIndex Definition.matchEnd? "hg rebase\u3000-d .^" .new).isSome := by
  have hend : (builtin.get? "rebase").map (fun d => d.matchEnd? "hg rebase\u3000-d .^") =
      some (some 12) := by
    decide +kernel
  obtain ⟨d, hd, hoffset⟩ := Option.map_eq_some_iff.mp hend
  refine ⟨d, hd, hoffset, (convert_in_range.1 d _ _ hoffset).2, ?_⟩
  exact convert_in_range.2.2.2 Definition.matchEnd?
    (fun d text offset h => (convert_in_range.1 d text offset h).2) builtin _ .new

end Registry

end HgToGit
