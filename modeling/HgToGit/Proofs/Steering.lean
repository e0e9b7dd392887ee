/-
# HgToGit.Proofs.Steering -- flags that steer a command do not get into the result

Some flags only say what a line is to become: files to add to a commit, the revisions of a graft, the
start of a log, what is done to a bookmark. They are taken off the line once they have been used.

One way to delegate a line leaves them on: bookmarks are listed if nothing is named, whatever flags
were given for it, and a flag that was given without names is then still there. This is the only
case (`Registry.keeps_steering_flag_iff`), and it occurs (`Registry.bookmark_list_keeps_delete_flag`).
-/
import HgToGit.Proofs.ArgumentGroups
import HgToGit.Proofs.Delegation
import HgToGit.Proofs.Recognition

namespace HgToGit

namespace Handler

/-- The flags of a command that only steer what becomes of a line. -/
def steeringFlags : Handler → List String
  | commit => ["-A"]
  | graft => ["-r"]
  | log => ["-f"]
  | bookmark => ["-d", "-r"]
  | _ => []

/-- A bookmark line that names nothing, though a flag for names was given. -/
def NamesNothing (options : Options) (general : List String) : Prop :=
  general = [] ∧ (options.get? "-d" = some [] ∨ options.get? "-r" = some [])

variable {inv line : Invocation} {command : Canonical} {h : Handler}

theorem get?_dropOption (flag : String) : (inv.dropOption flag).options.get? flag = none := by
  show (inv.options.erase flag).get? flag = none
  rw [TextMap.get?_erase, if_pos rfl]

/-- The commands other than `bookmark` leave none of their steering flags. -/
theorem Delegates.get?_eq_none (hd : h.Delegates inv command line) (hne : h ≠ .bookmark) :
    ∀ flag ∈ h.steeringFlags, line.options.get? flag = none := by
  have hnil : ∀ flag ∈ ([] : List String), line.options.get? flag = none := by simp
  cases hd with
  | commit hfiles =>
      intro flag hflag
      rw [List.mem_singleton.mp hflag]
      exact hfiles
  | commitAdding | graft | graftIgnoring =>
      intro flag hflag
      rw [List.mem_singleton.mp hflag]
      exact get?_dropOption _
  | log =>
      intro flag hflag
      rw [List.mem_singleton.mp hflag]
      show ((inv.dropOption "-f").options.mapValues _).get? "-f" = none
      rw [TextMap.get?_mapValues, get?_dropOption]
      rfl
  | exportCommits | update | backout | histedit | pull | summary => exact hnil
  | bookmarkRenamed | bookmarkDeleted | bookmarkPlaced | bookmarkHere | bookmarkListed =>
      exact absurd rfl hne

theorem optionArgs_eq_nil_iff {flag : String} :
    inv.optionArgs flag = [] ↔
      inv.options.get? flag = none ∨ inv.options.get? flag = some [] := by
  unfold Invocation.optionArgs
  cases inv.options.get? flag with
  | none => simp
  | some args => simp

/-- A bookmark line keeps a steering flag exactly if it names nothing. -/
theorem Delegates.bookmark_keeps_iff (hd : Handler.bookmark.Delegates inv command line) :
    (∃ flag ∈ bookmark.steeringFlags, line.options.contains flag) ↔
      NamesNothing inv.options inv.general := by
  have hflags : (∃ flag ∈ bookmark.steeringFlags, line.options.contains flag) ↔
      (line.options.get? "-d").isSome ∨ (line.options.get? "-r").isSome := by
    simp [steeringFlags]
  rw [hflags, NamesNothing]
  -- On every way the flags left on the line are compared with those that were given.
  cases hd with
  | @bookmarkRenamed names hnames hdeleted hplaced =>
      have hset : ∀ flag, "-m" ≠ flag →
          ((inv.setOption "-m" (names ++ inv.general)).setGeneral []).options.get? flag =
            inv.options.get? flag :=
        fun flag hne => TextMap.get?_insert_of_ne inv.options hne (names ++ inv.general)
      rw [hset "-d" (by decide), hset "-r" (by decide), hdeleted, hplaced]
      simp
  | @bookmarkDeleted names _ hdeleted hplaced hnot =>
      have hd : ((inv.dropOption "-d").setOption "-D" names).options.get? "-d" = none :=
        (TextMap.get?_insert_of_ne _ (by decide) _).trans (get?_dropOption "-d")
      have hr : ((inv.dropOption "-d").setOption "-D" names).options.get? "-r" = none := by
        show ((inv.options.erase "-d").insert "-D" names).get? "-r" = none
        rw [TextMap.get?_insert_of_ne _ (by decide), TextMap.get?_erase, if_neg (by decide), hplaced]
      rw [hd, hr, hdeleted, hplaced]
      simpa [and_comm] using hnot
  | @bookmarkPlaced values revision name _ hdeleted hvalues hboth =>
      have hd : ((inv.dropOption "-r").setGeneral [name, revision]).options.get? "-d" = none := by
        show (inv.options.erase "-r").get? "-d" = none
        rw [TextMap.get?_erase, if_neg (by decide), hdeleted]
      have hr : ((inv.dropOption "-r").setGeneral [name, revision]).options.get? "-r" = none :=
        get?_dropOption "-r"
      have hsome : ¬ (inv.general = [] ∧ values = []) := by
        rintro ⟨hgeneral, rfl⟩
        rw [hgeneral] at hboth
        cases hboth
      rw [hd, hr, hdeleted, hvalues]
      simpa using hsome
  | @bookmarkHere name others _ hdeleted hplaced hgeneral =>
      have hget : ∀ flag, "-b" ≠ flag →
          (Handler.bookmarkHere inv name others).options.get? flag = none := by
        intro flag hne
        exact TextMap.get?_insert_of_ne _ hne _
      rw [hget "-d" (by decide), hget "-r" (by decide), hgeneral]
      simp
  | bookmarkListed _ _ hdeleted hplaced hgeneral =>
      rcases optionArgs_eq_nil_iff.mp hdeleted with hdeleted | hdeleted <;>
        rcases optionArgs_eq_nil_iff.mp hplaced with hplaced | hplaced <;>
        simp [hdeleted, hplaced, hgeneral]

end Handler

namespace Registry

/-- **A steering flag gets into the result only where bookmarks are listed for want of names.** A
line that becomes a canonical command leaves no flag that only steers the translation, but for a
bookmark line that names nothing while `-d` or `-r` was given. -/
theorem keeps_steering_flag_iff {r : Registry} {line : String} {engine : Engine} {c : Conversion}
    {vcs : Vcs} {command : Canonical} {options : Options} {general : List String}
    (h : (r.convert line engine).1 = .ok c)
    (hout : c.outcome = .delegated vcs command options general) :
    ∃ d a, r.recognize line = .ok (d, a) ∧ c.command = d.name ∧
      ((∃ flag ∈ d.handler.steeringFlags, options.contains flag) ↔
        d.handler = .bookmark ∧ Handler.NamesNothing a.options a.general) := by
  obtain ⟨d, a, line', hrecognize, hname, -, hd, rfl, -, -⟩ := delegates_of_convert h hout
  refine ⟨d, a, hrecognize, hname, ?_⟩
  by_cases hbookmark : d.handler = .bookmark
  · rw [hbookmark] at hd ⊢
    rw [hd.bookmark_keeps_iff]
    simp [Invocation.ofArguments]
  · have hnone := hd.get?_eq_none hbookmark
    constructor
    · rintro ⟨flag, hflag, hkept⟩
      rw [TextMap.contains_eq, hnone flag hflag] at hkept
      cases hkept
    · rintro ⟨h, -⟩
      exact absurd h hbookmark

/-- A commit that names files to add says nothing about adding. -/
theorem keeps_steering_flag_iff_commit :
    ∃ c options, (builtin.convert "hg ci -m msg -A a.txt" .new).1 = .ok c ∧
      c.outcome = .delegated .git .commit options [] ∧ options.contains "-A" = false := by
  have hresult : (builtin.convert "hg ci -m msg -A a.txt" .new).1.toOption.map
      (fun c => (c.command, c.outcome)) =
        some ("commit", .delegated .git .commit (.singleton "-m" ["msg"]) []) := by
    decide +kernel
  obtain ⟨c, hconvert, hboth⟩ := Handler.exists_of_toOption_map_eq_some hresult
  obtain ⟨hcommand, hout⟩ := Prod.mk.inj hboth
  obtain ⟨d, a, hrecognize, hname, hkeeps⟩ := keeps_steering_flag_iff hconvert hout
  obtain ⟨hmem, -⟩ := names_of_recognize hrecognize
  have hcommit : d.handler = .commit := by
    have hall : ∀ d ∈ declarations, "commit" = d.name → d.handler = .commit := by decide
    exact hall _ (mem_declarations hmem) (hcommand.symm.trans hname)
  refine ⟨c, _, hconvert, hout, ?_⟩
  rw [hcommit] at hkeeps
  rw [← Bool.not_eq_true]
  intro hkept
  cases (hkeeps.mp ⟨"-A", by decide, hkept⟩).1

/-- Bookmarks are listed with the flag that would have deleted them still on the line. -/
theorem bookmark_list_keeps_delete_flag :
    ∃ c options, (builtin.convert "hg bookmark -d" .new).1 = .ok c ∧ c.command = "bookmark" ∧
      c.outcome = .delegated .git .branch options [] ∧ options.contains "-d" = true := by
  have hresult : (builtin.convert "hg bookmark -d" .new).1.toOption.map
      (fun c => (c.command, c.outcome)) =
        some ("bookmark", .delegated .git .branch (.singleton "-d" []) []) := by
    decide +kernel
  obtain ⟨c, hconvert, hboth⟩ := Handler.exists_of_toOption_map_eq_some hresult
  obtain ⟨hcommand, hout⟩ := Prod.mk.inj hboth
  exact ⟨c, _, hconvert, hcommand, hout, by decide⟩

end Registry

end HgToGit
