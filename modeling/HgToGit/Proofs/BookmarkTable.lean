/-
# HgToGit.Proofs.BookmarkTable -- the table of a bookmark line

A bookmark line has four flags, each absent, empty or with arguments, and general arguments. What
becomes of it is decided exit by exit, and an exit in the wrong place would change only rare
combinations. The table is the decision without an order: `BookmarkRefuses` has the rows on which a
line is refused and `Handler.Delegates` those on which it is delegated, each with all that it
requires of the line. There are no others (`bookmark_row`), and no line is on two rows with
different results, so every condition of the table is exact.

A bookmark at a revision takes the revision from the values of `-r` and of the line together. It is
the one that was given to `-r` exactly if one was given (`Registry.placed_revision_iff`).
-/
import HgToGit.Proofs.Accounting

namespace HgToGit

namespace Handler

/-! ## The rows of the table -/

/-- How many of the flags that exclude each other are on a line. -/
def exclusiveCount (inv : Invocation) : Nat := ["-m", "-d", "-r"].countP inv.hasOption

/-- How many values there are for a bookmark at a revision. -/
def valueCount (inv : Invocation) : Nat := (inv.optionArgs "-r").length + inv.general.length

/-- The rows on which a bookmark line is refused. -/
inductive BookmarkRefuses (inv : Invocation) : Failure → Prop where
  /-- Renamed and deleted. -/
  | renamedDeleted : inv.hasOption "-m" = true → inv.hasOption "-d" = true →
      BookmarkRefuses inv (.incompatible "-m" "-d")
  /-- Deleted and placed. -/
  | deletedPlaced : inv.hasOption "-m" = false → inv.hasOption "-d" = true →
      inv.hasOption "-r" = true → BookmarkRefuses inv (.incompatible "-d" "-r")
  /-- Renamed and placed. -/
  | renamedPlaced : inv.hasOption "-m" = true → inv.hasOption "-d" = false →
      inv.hasOption "-r" = true → BookmarkRefuses inv (.incompatible "-m" "-r")
  /-- Placed, and a value is missing. -/
  | valueMissing : inv.hasOption "-m" = false → inv.hasOption "-d" = false →
      inv.hasOption "-r" = true → valueCount inv = 1 →
      BookmarkRefuses inv (.tooFew 2 bookmarkRevisionPhrase)
  /-- Placed, and there are values left over. -/
  | valuesLeft : inv.hasOption "-m" = false → inv.hasOption "-d" = false →
      inv.hasOption "-r" = true → 2 < valueCount inv →
      BookmarkRefuses inv (.tooMany 2 bookmarkRevisionPhrase)

/-- The rows of the table, by their results. -/
inductive BookmarkRow (inv : Invocation) : Except Failure Resolution → Prop where
  /-- The line is refused. -/
  | refused {e : Failure} : BookmarkRefuses inv e → BookmarkRow inv (.error e)
  /-- The line is delegated. -/
  | delegated {command : Canonical} {line : Invocation} :
      Delegates inv .bookmark command line → BookmarkRow inv (.ok (.delegated command line))

variable {inv line : Invocation} {command : Canonical}

theorem refuses_of_find?_exclusiveFlags {first second : String}
    (h : (exclusiveFlags.find? fun pair => inv.hasOption pair.1 && inv.hasOption pair.2) =
      some (first, second)) : BookmarkRefuses inv (.incompatible first second) := by
  simp only [exclusiveFlags, List.find?_cons] at h
  cases hm : inv.hasOption "-m" <;> cases hd : inv.hasOption "-d" <;>
    cases hr : inv.hasOption "-r" <;> simp [hm, hd, hr] at h
  all_goals obtain ⟨rfl, rfl⟩ := h
  · exact .deletedPlaced hm hd hr
  · exact .renamedPlaced hm hd hr
  · exact .renamedDeleted hm hd
  · exact .renamedDeleted hm hd

theorem refuses_of_bookmarkAtRevision {e : Failure} (hm : inv.hasOption "-m" = false)
    (hd : inv.hasOption "-d" = false) (hr : inv.hasOption "-r" = true)
    (h : bookmarkAtRevision inv = .error e) : BookmarkRefuses inv e := by
  have hcount : valueCount inv = (inv.optionArgs "-r" ++ inv.general).length :=
    List.length_append.symm
  unfold bookmarkAtRevision at h
  split at h
  · cases h
  · rename_i value hvalues
    cases h
    exact .valueMissing hm hd hr (by rw [hcount, hvalues]; rfl)
  · cases h
  · rename_i hnil hone htwo
    cases h
    refine .valuesLeft hm hd hr ?_
    rw [hcount]
    match hvalues : inv.optionArgs "-r" ++ inv.general with
    | [] => exact absurd hvalues hnil
    | [value] => exact absurd hvalues (hone value)
    | [revision, name] => exact absurd hvalues (htwo revision name)
    | _ :: _ :: _ :: more => simp

theorem refuses_of_bookmarkLine {e : Failure} (h : bookmarkLine inv = .error e) :
    BookmarkRefuses inv e := by
  unfold bookmarkLine at h
  split at h
  · rename_i hpair
    cases h
    exact refuses_of_find?_exclusiveFlags hpair
  · split at h
    · cases h
    · rename_i hrenamed
      split at h
      · split at h <;> cases h
      · rename_i hdeleted
        have hm : inv.hasOption "-m" = false := hasOption_eq_false_iff.mpr hrenamed
        have hd : inv.hasOption "-d" = false := hasOption_eq_false_iff.mpr hdeleted
        split at h
        · rename_i hr
          cases hat : bookmarkAtRevision inv with
          | error e' =>
              rw [hat] at h
              cases h
              exact refuses_of_bookmarkAtRevision hm hd hr hat
          | ok line =>
              rw [hat] at h
              cases h
        · split at h <;> cases h

/-- **A bookmark line is on one of the rows.** -/
theorem bookmark_row (inv : Invocation) : BookmarkRow inv (bookmark.resolve inv) := by
  cases hline : bookmarkLine inv with
  | error e =>
      rw [resolve, hline]
      exact .refused (refuses_of_bookmarkLine hline)
  | ok result =>
      rw [resolve, hline]
      exact .delegated (delegates_of_bookmarkLine hline)

/-! ## What a delegated bookmark line becomes -/

/-- What the table says of a bookmark line that is delegated. -/
structure BookmarkResult (inv : Invocation) (command : Canonical) (line : Invocation) : Prop where
  /-- A branch is checked out exactly for a name without any of the three flags. -/
  checkout_iff : command = .checkout ↔ exclusiveCount inv = 0 ∧ inv.general ≠ []
  /-- The first name is checked out, and nothing else is left of the line. -/
  checkedOut : command = .checkout → ∃ name others, inv.general = name :: others ∧
    line.options = .singleton "-b" [name] ∧ line.general = []
  /-- Every other line is for branches, with `-f` as it was. -/
  branched : command ≠ .checkout →
    command = .branch ∧ line.options.get? "-f" = inv.options.get? "-f"
  /-- A new name goes after the old one, on whichever side of the flag it was given. -/
  renamed : inv.hasOption "-m" = true →
    line.options = inv.options.insert "-m" (inv.optionArgs "-m" ++ inv.general) ∧
      line.general = []
  /-- What is deleted is deleted by force. -/
  deleted : inv.hasOption "-d" = true → 0 < (inv.optionArgs "-d").length + inv.general.length →
    line.options = (inv.options.erase "-d").insert "-D" (inv.optionArgs "-d") ∧
      line.general = inv.general
  /-- A bookmark is placed by its name and then the revision. -/
  placed : inv.hasOption "-r" = true → valueCount inv = 2 →
    line.options = inv.options.erase "-r" ∧
      ∃ revision name, inv.optionArgs "-r" ++ inv.general = [revision, name] ∧
        line.general = [name, revision]
  /-- A line that names nothing stays as it is. -/
  listed : inv.hasOption "-m" = false →
    inv.optionArgs "-d" ++ inv.optionArgs "-r" ++ inv.general = [] → line = inv

theorem exclusiveCount_eq (inv : Invocation) :
    exclusiveCount inv =
      (inv.hasOption "-m").toNat + (inv.hasOption "-d").toNat + (inv.hasOption "-r").toNat := by
  cases hm : inv.hasOption "-m" <;> cases hd : inv.hasOption "-d" <;>
    cases hr : inv.hasOption "-r" <;> simp [exclusiveCount, hm, hd, hr]

theorem Delegates.bookmarkResult (h : Delegates inv .bookmark command line) :
    BookmarkResult inv command line := by
  cases h with
  | @bookmarkRenamed names hnames hdeleted hplaced =>
      have hm : inv.hasOption "-m" = true := hasOption_of_get? hnames
      have hd : inv.hasOption "-d" = false := hasOption_eq_false_iff.mpr hdeleted
      have hr : inv.hasOption "-r" = false := hasOption_eq_false_iff.mpr hplaced
      exact {
        checkout_iff := by simp [exclusiveCount_eq, hm]
        checkedOut := nofun
        branched := fun _ => ⟨rfl, TextMap.get?_insert_of_ne _ (by decide) _⟩
        renamed := fun _ => by rw [optionArgs_of_get? hnames]; exact ⟨rfl, rfl⟩
        deleted := by simp [hd]
        placed := by simp [hr]
        listed := by simp [hm] }
  | @bookmarkDeleted names hrenamed hnames hplaced hnot =>
      have hm : inv.hasOption "-m" = false := hasOption_eq_false_iff.mpr hrenamed
      have hd : inv.hasOption "-d" = true := hasOption_of_get? hnames
      have hr : inv.hasOption "-r" = false := hasOption_eq_false_iff.mpr hplaced
      have hforce : ((inv.options.erase "-d").insert "-D" names).get? "-f" =
          inv.options.get? "-f" := by
        rw [TextMap.get?_insert_of_ne _ (by decide), TextMap.get?_erase, if_neg (by decide)]
      exact {
        checkout_iff := by simp [exclusiveCount_eq, hd]
        checkedOut := nofun
        branched := fun _ => ⟨rfl, hforce⟩
        renamed := by simp [hm]
        deleted := fun _ _ => by rw [optionArgs_of_get? hnames]; exact ⟨rfl, rfl⟩
        placed := by simp [hr]
        listed := fun _ hnil => by
          rw [optionArgs_of_get? hnames, List.append_eq_nil_iff, List.append_eq_nil_iff] at hnil
          exact absurd ⟨hnil.1.1, hnil.2⟩ hnot }
  | @bookmarkPlaced values revision name hrenamed hdeleted hvalues hboth =>
      have hm : inv.hasOption "-m" = false := hasOption_eq_false_iff.mpr hrenamed
      have hd : inv.hasOption "-d" = false := hasOption_eq_false_iff.mpr hdeleted
      have hr : inv.hasOption "-r" = true := hasOption_of_get? hvalues
      rw [← optionArgs_of_get? hvalues] at hboth
      have hforce : (inv.options.erase "-r").get? "-f" = inv.options.get? "-f" := by
        rw [TextMap.get?_erase, if_neg (by decide)]
      exact {
        checkout_iff := by simp [exclusiveCount_eq, hr]
        checkedOut := nofun
        branched := fun _ => ⟨rfl, hforce⟩
        renamed := by simp [hm]
        deleted := by simp [hd]
        placed := fun _ _ => ⟨rfl, revision, name, hboth, rfl⟩
        listed := fun _ hnil => by
          rw [List.append_assoc, hboth] at hnil
          simp at hnil }
  | @bookmarkHere name others hrenamed hdeleted hplaced hgeneral =>
      have hm : inv.hasOption "-m" = false := hasOption_eq_false_iff.mpr hrenamed
      have hd : inv.hasOption "-d" = false := hasOption_eq_false_iff.mpr hdeleted
      have hr : inv.hasOption "-r" = false := hasOption_eq_false_iff.mpr hplaced
      exact {
        checkout_iff := by simp [exclusiveCount_eq, hm, hd, hr, hgeneral]
        checkedOut := fun _ => ⟨name, others, hgeneral, rfl, rfl⟩
        branched := fun hne => absurd rfl hne
        renamed := by simp [hm]
        deleted := by simp [hd]
        placed := by simp [hr]
        listed := by simp [hgeneral] }
  | bookmarkListed hrenamed _ hdeleted hplaced hgeneral =>
      have hm : inv.hasOption "-m" = false := hasOption_eq_false_iff.mpr hrenamed
      exact {
        checkout_iff := by simp [hgeneral]
        checkedOut := nofun
        branched := fun _ => ⟨rfl, rfl⟩
        renamed := by simp [hm]
        deleted := by simp [hdeleted, hgeneral]
        placed := by simp [valueCount, hplaced, hgeneral]
        listed := fun _ _ => rfl }

/-- A bookmark line that is delegated has at most one of the three flags, and no values for a
revision or the two that it takes. -/
theorem Delegates.bookmark_counts (h : Delegates inv .bookmark command line) :
    exclusiveCount inv < 2 ∧
      (inv.hasOption "-r" = true → valueCount inv = 0 ∨ valueCount inv = 2) := by
  rw [exclusiveCount_eq]
  cases h with
  | bookmarkRenamed hnames hdeleted hplaced =>
      rw [← hasOption_eq_false_iff] at hdeleted hplaced
      simp [hasOption_of_get? hnames, hdeleted, hplaced]
  | bookmarkDeleted hrenamed hnames hplaced =>
      rw [← hasOption_eq_false_iff] at hrenamed hplaced
      simp [hasOption_of_get? hnames, hrenamed, hplaced]
  | bookmarkPlaced hrenamed hdeleted hvalues hboth =>
      rw [← hasOption_eq_false_iff] at hrenamed hdeleted
      have htwo : valueCount inv = 2 := by
        rw [valueCount, optionArgs_of_get? hvalues, ← List.length_append, hboth]
        rfl
      simp [hasOption_of_get? hvalues, hrenamed, hdeleted, htwo]
  | bookmarkHere hrenamed hdeleted hplaced =>
      rw [← hasOption_eq_false_iff] at hrenamed hdeleted hplaced
      simp [hrenamed, hdeleted, hplaced]
  | bookmarkListed hrenamed hone hdeleted hplaced hgeneral =>
      rw [← hasOption_eq_false_iff, ← hasOption_eq_false_iff] at hone
      rw [← hasOption_eq_false_iff] at hrenamed
      have hnone : valueCount inv = 0 := by simp [valueCount, hplaced, hgeneral]
      refine ⟨?_, fun _ => Or.inl hnone⟩
      rcases hone with hnot | hnot
      · cases inv.hasOption "-r" <;> simp [hrenamed, hnot]
      · cases inv.hasOption "-d" <;> simp [hrenamed, hnot]

/-! ## The conditions are exact -/

/-- What a refused bookmark line has too much or too little of. -/
theorem BookmarkRefuses.counts {e : Failure} (h : BookmarkRefuses inv e) :
    (e.kind = .incompatibleOptions ∧ 2 ≤ exclusiveCount inv) ∨
      (e.kind = .argumentCountViolation ∧ exclusiveCount inv < 2 ∧ inv.hasOption "-r" = true ∧
        valueCount inv ≠ 0 ∧ valueCount inv ≠ 2) := by
  rw [exclusiveCount_eq]
  cases h with
  | renamedDeleted hm hd => exact Or.inl ⟨rfl, by simp [hm, hd]⟩
  | deletedPlaced hm hd hr => exact Or.inl ⟨rfl, by simp [hm, hd, hr]⟩
  | renamedPlaced hm hd hr => exact Or.inl ⟨rfl, by simp [hm, hd, hr]⟩
  | valueMissing hm hd hr hcount =>
      exact Or.inr ⟨rfl, by simp [hm, hd, hr], hr, by omega, by omega⟩
  | valuesLeft hm hd hr hcount =>
      exact Or.inr ⟨rfl, by simp [hm, hd, hr], hr, by omega, by omega⟩

/-- No line is on two rows on which it is refused. -/
theorem BookmarkRefuses.unique {e e' : Failure} (h : BookmarkRefuses inv e)
    (h' : BookmarkRefuses inv e') : e = e' := by
  cases h with
  | renamedDeleted hm hd => cases h' <;> simp_all
  | deletedPlaced hm hd hr => cases h' <;> simp_all
  | renamedPlaced hm hd hr => cases h' <;> simp_all
  | valueMissing hm hd hr hcount => cases h' <;> simp_all
  | valuesLeft hm hd hr hcount =>
      cases h' with
      | valueMissing _ _ _ hone => omega
      | valuesLeft => rfl
      | renamedDeleted hm' | renamedPlaced hm' => simp [hm] at hm'
      | deletedPlaced _ hd' => simp [hd] at hd'

/-- **A bookmark line is refused exactly on its rows.** -/
theorem bookmark_eq_error_iff {e : Failure} :
    bookmark.resolve inv = .error e ↔ BookmarkRefuses inv e := by
  have hrow := bookmark_row inv
  generalize bookmark.resolve inv = result at hrow
  cases hrow with
  | refused h =>
      rw [Except.error.injEq]
      exact ⟨fun heq => heq ▸ h, h.unique⟩
  | delegated h =>
      obtain ⟨hone, hvalues⟩ := h.bookmark_counts
      refine ⟨nofun, fun hrefuses => ?_⟩
      rcases hrefuses.counts with ⟨-, htwo⟩ | ⟨-, -, hr, hsome, hnottwo⟩
      · omega
      · exact absurd ((hvalues hr).resolve_left hsome) hnottwo

theorem exists_incompatible_iff :
    (∃ e, bookmark.resolve inv = .error e ∧ e.kind = .incompatibleOptions) ↔
      2 ≤ exclusiveCount inv := by
  simp only [bookmark_eq_error_iff]
  constructor
  · rintro ⟨e, h, hkind⟩
    rcases h.counts with ⟨-, htwo⟩ | ⟨hcount, -⟩
    · exact htwo
    · rw [hkind] at hcount
      cases hcount
  · intro htwo
    rw [exclusiveCount_eq] at htwo
    cases hm : inv.hasOption "-m" with
    | true =>
        cases hd : inv.hasOption "-d" with
        | true => exact ⟨_, .renamedDeleted hm hd, rfl⟩
        | false =>
            cases hr : inv.hasOption "-r" with
            | true => exact ⟨_, .renamedPlaced hm hd hr, rfl⟩
            | false => simp [hm, hd, hr] at htwo
    | false =>
        cases hd : inv.hasOption "-d" with
        | true =>
            cases hr : inv.hasOption "-r" with
            | true => exact ⟨_, .deletedPlaced hm hd hr, rfl⟩
            | false => simp [hm, hd, hr] at htwo
        | false => cases hr : inv.hasOption "-r" <;> simp [hm, hd, hr] at htwo

/-- Where at most one of the three flags was given, `-r` is the only one. -/
theorem only_placed (hone : exclusiveCount inv < 2) (hr : inv.hasOption "-r" = true) :
    inv.hasOption "-m" = false ∧ inv.hasOption "-d" = false := by
  rw [exclusiveCount_eq, hr] at hone
  cases hm : inv.hasOption "-m" <;> cases hd : inv.hasOption "-d" <;> simp [hm, hd] at hone ⊢

theorem exists_error_iff (hone : exclusiveCount inv < 2) :
    (∃ e, bookmark.resolve inv = .error e) ↔
      inv.hasOption "-r" = true ∧ valueCount inv ≠ 0 ∧ valueCount inv ≠ 2 := by
  simp only [bookmark_eq_error_iff]
  constructor
  · rintro ⟨e, h⟩
    rcases h.counts with ⟨-, htwo⟩ | ⟨-, -, hvalues⟩
    · omega
    · exact hvalues
  · rintro ⟨hr, hsome, hnottwo⟩
    obtain ⟨hm, hd⟩ := only_placed hone hr
    rcases Nat.lt_or_gt_of_ne hnottwo with hfew | hmany
    · exact ⟨_, .valueMissing hm hd hr (by omega)⟩
    · exact ⟨_, .valuesLeft hm hd hr hmany⟩

/-- **The table of a bookmark line.** Flags that exclude each other are refused before anything
else, by the first pair. Of the other lines only those are refused that have `-r` with a number of
values other than none or two. All the rest is delegated, as the table says. -/
theorem bookmark_decides (inv : Invocation) :
    let result := bookmark.resolve inv
    ((∃ e, result = .error e ∧ e.kind = .incompatibleOptions) ↔ 2 ≤ exclusiveCount inv) ∧
    (inv.hasOption "-m" = true → inv.hasOption "-d" = true →
      result = .error (.incompatible "-m" "-d")) ∧
    (inv.hasOption "-m" = false → inv.hasOption "-d" = true → inv.hasOption "-r" = true →
      result = .error (.incompatible "-d" "-r")) ∧
    (inv.hasOption "-m" = true → inv.hasOption "-d" = false → inv.hasOption "-r" = true →
      result = .error (.incompatible "-m" "-r")) ∧
    (exclusiveCount inv < 2 →
      ((∃ e, result = .error e) ↔
        inv.hasOption "-r" = true ∧ valueCount inv ≠ 0 ∧ valueCount inv ≠ 2) ∧
      (inv.hasOption "-r" = true → valueCount inv = 1 →
        result = .error (.tooFew 2 bookmarkRevisionPhrase)) ∧
      (inv.hasOption "-r" = true → 2 < valueCount inv →
        result = .error (.tooMany 2 bookmarkRevisionPhrase))) ∧
    ∀ resolution, result = .ok resolution →
      ∃ command line, resolution = .delegated command line ∧ BookmarkResult inv command line := by
  intro result
  refine ⟨exists_incompatible_iff, fun hm hd => ?_, fun hm hd hr => ?_, fun hm hd hr => ?_,
    fun hone => ⟨exists_error_iff hone, fun hr hcount => ?_, fun hr hcount => ?_⟩, ?_⟩
  · exact bookmark_eq_error_iff.mpr (.renamedDeleted hm hd)
  · exact bookmark_eq_error_iff.mpr (.deletedPlaced hm hd hr)
  · exact bookmark_eq_error_iff.mpr (.renamedPlaced hm hd hr)
  · obtain ⟨hm, hd⟩ := only_placed hone hr
    exact bookmark_eq_error_iff.mpr (.valueMissing hm hd hr hcount)
  · obtain ⟨hm, hd⟩ := only_placed hone hr
    exact bookmark_eq_error_iff.mpr (.valuesLeft hm hd hr hcount)
  · intro resolution hresolution
    have hrow : BookmarkRow inv result := bookmark_row inv
    rw [hresolution] at hrow
    cases hrow with
    | @delegated command line h => exact ⟨command, line, rfl, h.bookmarkResult⟩

/-- A bookmark with `-r` and some value is placed, and it has the two values for that. -/
theorem Delegates.bookmark_placed {inv : Invocation} {command : Canonical} {line : Invocation}
    (h : bookmark.Delegates inv command line) (hr : inv.hasOption "-r" = true)
    (hvalues : inv.optionArgs "-r" ++ inv.general ≠ []) :
    command = .branch ∧ ∃ revision name, inv.optionArgs "-r" ++ inv.general = [revision, name] ∧
      line.general = [name, revision] := by
  have hresult := h.bookmarkResult
  have htwo : valueCount inv = 2 := by
    refine (h.bookmark_counts.2 hr).resolve_left fun hnone => hvalues ?_
    rw [valueCount, ← List.length_append] at hnone
    exact List.length_eq_zero_iff.mp hnone
  refine ⟨(hresult.branched fun hcheckout => ?_).1, (hresult.placed hr htwo).2⟩
  have hcount := (hresult.checkout_iff.mp hcheckout).1
  rw [exclusiveCount_eq, hr] at hcount
  simp at hcount

end Handler

namespace Registry

/-! ## The revision of a placed bookmark -/

open Handler (BookmarkRow bookmark_row)

/-- A bookmark is placed as it was asked for: at the first value that `-r` took, under the one other
value, whether `-r` took it or it stands alone. -/
def PlacedAsGiven (taken alone general : List String) : Prop :=
  ∃ revision name, general = [name, revision] ∧ taken.head? = some revision ∧
    taken.tail ++ alone = [name]

/-- Of two values, the first is the given revision unless `-r` took nothing. -/
theorem placedAsGiven_iff {taken alone : List String} {revision name : String}
    (h : taken ++ alone = [revision, name]) :
    PlacedAsGiven taken alone [name, revision] ↔ taken ≠ [] := by
  constructor
  · rintro ⟨given, -, -, hhead, -⟩ hnil
    rw [hnil] at hhead
    cases hhead
  · intro hsome
    cases taken with
    | nil => exact absurd rfl hsome
    | cons first more =>
        obtain ⟨rfl, hmore⟩ := List.cons.inj h
        exact ⟨first, name, rfl, rfl, hmore⟩

/-- A bookmark line that is converted is delegated. -/
theorem delegates_of_bookmark {r : Registry} {line : String} {d : Definition} {a : Arguments}
    {engine : Engine} {c : Conversion} (hrecognize : r.recognize line = .ok (d, a))
    (hbookmark : d.handler = .bookmark) (h : (r.convert line engine).1 = .ok c) :
    ∃ command line', Handler.bookmark.Delegates (Invocation.ofArguments d.name a) command line' ∧
      c.outcome = .delegated .git command line'.options line'.general := by
  simp only [convert, hrecognize, Conversion.ofArguments, hbookmark] at h
  have hrow := bookmark_row (Invocation.ofArguments d.name a)
  generalize Handler.bookmark.resolve (Invocation.ofArguments d.name a) = result at h hrow
  cases hrow with
  | refused => cases h
  | @delegated command line' hd =>
      cases h
      exact ⟨command, line', hd, rfl⟩

/-- **A bookmark is placed at the revision given to `-r` exactly if one was given to it.** A line
with `-r` and some value becomes a branch of a name and a revision, which are the values of `-r` and
those in front of all flags, in this order. The revision is then the first value that `-r` took, but
for a line whose `-r` took nothing: there it is the first value that stands alone. -/
theorem placed_revision_iff {d : Definition} {line : String} {args : List String}
    {engine : Engine} {c : Conversion} (hd : d ∈ builtin.definitions)
    (hbookmark : d.handler = .bookmark) (hnames : Names (Text.trim line) d.handler args)
    (hplaced : "-r" ∈ args) (hvalues : Arguments.absorbed d.flags "-r" false args ++
      Arguments.leading d.flags args ≠ []) (h : (builtin.convert line engine).1 = .ok c) :
    let taken := Arguments.absorbed d.flags "-r" false args
    let alone := Arguments.leading d.flags args
    ∃ options general, c.outcome = .delegated .git .branch options general ∧
      (∃ revision name, taken ++ alone = [revision, name] ∧ general = [name, revision]) ∧
      (PlacedAsGiven taken alone general ↔ taken ≠ []) := by
  intro taken alone
  have hrecognize : builtin.recognize line = .ok (d, Arguments.parse d.flags args) :=
    recognize_eq_ok_iff.mpr ⟨hd, args, hnames, rfl⟩
  obtain ⟨command, line', hdelegates, hout⟩ := delegates_of_bookmark hrecognize hbookmark h
  have hr : (Invocation.ofArguments d.name (Arguments.parse d.flags args)).hasOption "-r" = true := by
    refine Arguments.hasOption_ofArguments d.name d.flags args ?_ hplaced
    rw [Handler.flags_bookmark _ (mem_declarations hd) hbookmark]
    decide
  have hplace := hdelegates.bookmark_placed hr
  rw [Arguments.optionArgs_ofArguments, Arguments.general_ofArguments] at hplace
  obtain ⟨rfl, revision, name, hboth, hgeneral⟩ := hplace hvalues
  exact ⟨line'.options, line'.general, hout, ⟨revision, name, hboth, hgeneral⟩,
    hgeneral ▸ placedAsGiven_iff hboth⟩

/-- The definition and the arguments of a converted bookmark line, by its tokens. -/
theorem exists_bookmark_of_convert {line word : String} {given : List String} {engine : Engine}
    {c : Conversion} {vcs : Vcs} {command : Canonical} {options : Options} {general : List String}
    (h : (builtin.convert line engine).1 = .ok c)
    (hboth : (c.command, c.outcome) = ("bookmark", .delegated vcs command options general))
    (htokens : Token.tokenize (Text.trim line) = system :: word :: given) :
    ∃ d ∈ builtin.definitions, d.handler = .bookmark ∧ d.flags = ["-r", "-f", "-d", "-m"] ∧
      Names (Text.trim line) d.handler given := by
  obtain ⟨hcommand, hout⟩ := Prod.mk.inj hboth
  obtain ⟨d, a, -, hrecognize, hname, -⟩ := delegates_of_convert h hout
  obtain ⟨hmem, args, hnames, -⟩ := names_of_recognize hrecognize
  have hbookmark : d.handler = .bookmark := by
    have hall : ∀ d ∈ declarations, "bookmark" = d.name → d.handler = .bookmark := by decide
    exact hall _ (mem_declarations hmem) (hcommand.symm.trans hname)
  obtain rfl : args = given := by
    obtain ⟨⟨word', -, hline⟩, -⟩ := hnames
    exact (List.cons.inj (List.cons.inj (hline.symm.trans htokens)).2).2
  exact ⟨d, hmem, hbookmark, Handler.flags_bookmark _ (mem_declarations hmem) hbookmark, hnames⟩

/-- The revision may be given to the second `-r`, after the name and another flag. -/
theorem placed_revision_iff_second_flag :
    ∃ c options, (builtin.convert "hg book feature -r -f -r C1" .new).1 = .ok c ∧
      c.outcome = .delegated .git .branch options ["feature", "C1"] ∧
      PlacedAsGiven ["C1"] ["feature"] ["feature", "C1"] := by
  have hresult : (builtin.convert "hg book feature -r -f -r C1" .new).1.toOption.map
      (fun c => (c.command, c.outcome)) =
        some ("bookmark", .delegated .git .branch (.singleton "-f" []) ["feature", "C1"]) := by
    decide +kernel
  have htokens : Token.tokenize (Text.trim "hg book feature -r -f -r C1") =
      [system, "book", "feature", "-r", "-f", "-r", "C1"] := by
    decide +kernel
  obtain ⟨c, hconvert, hboth⟩ := Handler.exists_of_toOption_map_eq_some hresult
  obtain ⟨d, hmem, hbookmark, hflags, hnames⟩ := exists_bookmark_of_convert hconvert hboth htokens
  obtain ⟨options, general, hout, -, hgiven⟩ := placed_revision_iff hmem hbookmark hnames
    (by decide) (by rw [hflags]; decide) hconvert
  obtain ⟨-, -, rfl, rfl⟩ := Outcome.delegated.inj ((Prod.mk.inj hboth).2.symm.trans hout)
  rw [hflags] at hgiven
  exact ⟨c, _, hconvert, hout, hgiven.mpr (by decide)⟩

/-- With nothing given to `-r`, the first of two names becomes the revision. -/
theorem placed_revision_not_given :
    ∃ d ∈ builtin.definitions, d.handler = .bookmark ∧
      ∃ args c options general, Names (Text.trim "hg bookmark a b -r") d.handler args ∧
        "-r" ∈ args ∧ Arguments.leading d.flags args ≠ [] ∧
        (builtin.convert "hg bookmark a b -r" .new).1 = .ok c ∧
        c.outcome = .delegated .git .branch options general ∧ general = ["b", "a"] ∧
        ¬ PlacedAsGiven (Arguments.absorbed d.flags "-r" false args)
          (Arguments.leading d.flags args) general := by
  have hresult : (builtin.convert "hg bookmark a b -r" .new).1.toOption.map
      (fun c => (c.command, c.outcome)) =
        some ("bookmark", .delegated .git .branch .empty ["b", "a"]) := by
    decide +kernel
  have htokens : Token.tokenize (Text.trim "hg bookmark a b -r") =
      [system, "bookmark", "a", "b", "-r"] := by
    decide +kernel
  obtain ⟨c, hconvert, hboth⟩ := Handler.exists_of_toOption_map_eq_some hresult
  obtain ⟨d, hmem, hbookmark, hflags, hnames⟩ := exists_bookmark_of_convert hconvert hboth htokens
  refine ⟨d, hmem, hbookmark, _, c, _, _, hnames, by decide, by rw [hflags]; decide, hconvert,
    (Prod.mk.inj hboth).2, rfl, ?_⟩
  rw [hflags]
  rintro ⟨revision, name, -, hhead, -⟩
  cases hhead

end Registry

end HgToGit
