/-
# HgToGit.Proofs.GroupOrder -- the order of the flags on a line

The groups of a line are filed by their flags. What a flag gets depends on its own groups and their
order, so groups of different flags may change places (`Reordered`), and the line is sorted into the
same arguments (`Reordered.collect_eq`). Whatever becomes of a recognized line is made of its command and
its sorted arguments, so lines that differ in such an order only have one fate.
-/
import HgToGit.Proofs.ResolvedLine
import HgToGit.Proofs.WrittenArguments

namespace HgToGit

namespace Arguments

/-- The same groups in another order, in which those of one flag come as they did. -/
structure Reordered (gs gs' : List Group) : Prop where
  perm : gs.Perm gs'
  order : ∀ flag, (gs.filter fun g => g.1 = flag) = gs'.filter fun g => g.1 = flag

variable {known general : List String} {gs gs' : List Group}

/-- Two groups that stand together may change places if they are of different flags. -/
theorem Reordered.swap {g g' : Group} (hne : g.1 ≠ g'.1) (front rest : List Group) :
    Reordered (front ++ g :: g' :: rest) (front ++ g' :: g :: rest) := by
  refine ⟨(List.Perm.swap g' g rest).append_left front, ?_⟩
  intro flag
  rw [List.filter_append, List.filter_append]
  congr 1
  by_cases hflag : g.1 = flag
  · have hother : g'.1 ≠ flag := fun heq => hne (hflag.trans heq.symm)
    simp [hflag, hother]
  · simp [List.filter_cons, hflag]

/-- Each flag is filed with what its own groups take, in their order. -/
theorem Reordered.collect_eq (h : Reordered gs gs') : collect gs = collect gs' := by
  apply TextMap.ext_get?
  intro flag
  have hmem : flag ∈ gs.map Prod.fst ↔ flag ∈ gs'.map Prod.fst := (h.perm.map _).mem_iff
  rw [get?_collect, get?_collect, h.order flag]
  simp only [hmem]

theorem Reordered.parse_eq (h : Reordered gs gs') (hgeneral : general.Disjoint known)
    (hgs : ∀ g ∈ gs, IsGroup known g) :
    parse known (general ++ written gs) = parse known (general ++ written gs') := by
  have hgs' : ∀ g ∈ gs', IsGroup known g := fun g hg => hgs g (h.perm.mem_iff.mpr hg)
  rw [parse_append_written hgeneral hgs, parse_append_written hgeneral hgs', h.collect_eq]

end Arguments

namespace Registry

open Arguments (Group IsGroup Reordered written)

/-- **The order of the flags on a line does not matter.** If groups change places, but not those of one
flag among themselves, a line has the same sorted arguments. Two lines of a command that differ in such
an order only have the same result, be it an outcome with its warnings or a failure, and leave every
engine in the same state. -/
theorem convert_of_reordered {d : Definition} (hd : d ∈ builtin.definitions) {general : List String}
    {gs gs' : List Group} (hgeneral : general.Disjoint d.flags) (hgs : ∀ g ∈ gs, IsGroup d.flags g)
    (h : Reordered gs gs') :
    Arguments.parse d.flags (general ++ written gs) =
        Arguments.parse d.flags (general ++ written gs') ∧
      ∀ line line', Names (Text.trim line) d.handler (general ++ written gs) →
        Names (Text.trim line') d.handler (general ++ written gs') →
          ∀ engine, builtin.convert line engine = builtin.convert line' engine := by
  have hparse := h.parse_eq hgeneral hgs
  refine ⟨hparse, ?_⟩
  intro line line' hline hline' engine
  rw [convert_of_names hd hline, convert_of_names hd hline', hparse]

/-- The flag of the destination may be given twice, and the group of the base stand between the two or
before them. -/
theorem convert_of_reordered_rebase :
    Reordered [("-d", []), ("-b", ["C1"]), ("-d", ["C2"])]
        [("-b", ["C1"]), ("-d", []), ("-d", ["C2"])] ∧
      builtin.convert "hg rebase -d -b C1 -d C2" .new =
        builtin.convert "hg rebase  -b C1 -d -d C2" .new ∧
      (builtin.convert "hg rebase -d -b C1 -d C2" .new).2.calls = [.rebase "C2" "C1"] := by
  obtain ⟨d, hd, hrebase⟩ := exists_mem_builtin .rebase
  have hflags : d.flags = ["-d", "-s", "-b"] := by
    have hall : ∀ d ∈ declarations, d.handler = .rebase → d.flags = ["-d", "-s", "-b"] := by decide
    exact hall _ (mem_declarations hd) hrebase
  have hreordered : Reordered [("-d", []), ("-b", ["C1"]), ("-d", ["C2"])]
      [("-b", ["C1"]), ("-d", []), ("-d", ["C2"])] :=
    .swap (by decide) [] [("-d", ["C2"])]
  have hgs : ∀ g ∈ [("-d", []), ("-b", ["C1"]), ("-d", ["C2"])], IsGroup d.flags g := by
    rw [hflags]
    decide
  have hnames : Names (Text.trim "hg rebase -d -b C1 -d C2") d.handler
      ["-d", "-b", "C1", "-d", "C2"] := by
    rw [hrebase]
    exact names_of_handler "rebase" (by decide +kernel) (by decide +kernel)
  have hnames' : Names (Text.trim "hg rebase  -b C1 -d -d C2") d.handler
      ["-b", "C1", "-d", "-d", "C2"] := by
    rw [hrebase]
    exact names_of_handler "rebase" (by decide +kernel) (by decide +kernel)
  have hsame := (convert_of_reordered hd (List.disjoint_nil_left _) hgs hreordered).2
  exact ⟨hreordered, hsame _ _ hnames hnames' .new, by decide +kernel⟩

end Registry

end HgToGit
