/-
# HgToGit.Proofs.WrittenArguments -- sorted arguments, written as a line and read back

A line is its general arguments and then its groups, each a known flag with the tokens that it takes
(`written`). It falls into groups in one way only (`groups_eq_iff`), so reading is undone by writing
as long as no argument is a known flag.

Sorted arguments are written with one group for each flag. They are read back exactly if every flag
among them is known and no argument is (`SortedBy`), and every line is sorted into such arguments.
-/
import HgToGit.Proofs.ArgumentGroups
import HgToGit.Proofs.ByteOrder

namespace HgToGit.Arguments

/-! ## Groups on a line -/

/-- Groups as tokens, each flag in front of what it takes. -/
def written (gs : List Group) : List String := gs.flatMap fun g => g.1 :: g.2

/-- A known flag with tokens that are none. -/
structure IsGroup (known : List String) (g : Group) : Prop where
  flag : g.1 ∈ known
  args : g.2.Disjoint known

/-- Each argument is looked at once. -/
instance (known : List String) : DecidablePred (IsGroup known) := fun g =>
  decidable_of_iff (g.1 ∈ known ∧ ∀ arg ∈ g.2, arg ∉ known)
    ⟨fun h => ⟨h.1, h.2⟩, fun h => ⟨h.flag, h.args⟩⟩

variable {known : List String}

theorem written_cons (g : Group) (gs : List Group) : written (g :: gs) = g.1 :: (g.2 ++ written gs) :=
  List.flatMap_cons

theorem groups_append {front : List String} (h : front.Disjoint known) (tokens : List String) :
    groups known (front ++ tokens) =
      (front ++ (groups known tokens).1, (groups known tokens).2) := by
  induction front with
  | nil => rfl
  | cons token front ih =>
      obtain ⟨htoken, hfront⟩ := List.disjoint_cons_left.mp h
      simp [groups, ih hfront, htoken]

theorem groups_written {gs : List Group} (h : ∀ g ∈ gs, IsGroup known g) :
    groups known (written gs) = ([], gs) := by
  induction gs with
  | nil => rfl
  | cons g gs ih =>
      obtain ⟨⟨hflag, hargs⟩, hmore⟩ := List.forall_mem_cons.mp h
      simp [written_cons, groups, groups_append hargs, ih hmore, hflag]

/-- Reading a line divides it into general arguments and groups. -/
theorem append_written_groups (known tokens : List String) :
    (groups known tokens).1 ++ written (groups known tokens).2 = tokens ∧
      (groups known tokens).1.Disjoint known ∧ ∀ g ∈ (groups known tokens).2, IsGroup known g := by
  induction tokens with
  | nil => simp [groups, written]
  | cons token rest ih =>
      obtain ⟨htext, hgeneral, hgs⟩ := ih
      by_cases htoken : token ∈ known
      · simp only [groups, htoken, if_true]
        refine ⟨by rw [written_cons, htext, List.nil_append], List.disjoint_nil_left known, ?_⟩
        exact List.forall_mem_cons.mpr ⟨⟨htoken, hgeneral⟩, hgs⟩
      · simp only [groups, htoken, if_false]
        exact ⟨by rw [List.cons_append, htext], List.disjoint_cons_left.mpr ⟨htoken, hgeneral⟩, hgs⟩

/-- **A line falls into general arguments and groups in one way.** -/
theorem groups_eq_iff {tokens general : List String} {gs : List Group} :
    groups known tokens = (general, gs) ↔
      tokens = general ++ written gs ∧ general.Disjoint known ∧ ∀ g ∈ gs, IsGroup known g := by
  constructor
  · intro h
    have hread := append_written_groups known tokens
    rw [h] at hread
    exact ⟨hread.1.symm, hread.2⟩
  · rintro ⟨rfl, hgeneral, hgs⟩
    rw [groups_append hgeneral, groups_written hgs, List.append_nil]

theorem parse_append_written {general : List String} {gs : List Group}
    (hgeneral : general.Disjoint known) (hgs : ∀ g ∈ gs, IsGroup known g) :
    parse known (general ++ written gs) = ⟨collect gs, general⟩ := by
  rw [parse, groups_eq_iff.mpr ⟨rfl, hgeneral, hgs⟩]

/-! ## Groups of sorted arguments -/

/-- Filing the entries of a map makes the map. -/
theorem collect_entries (m : Options) : collect m.entries = m := by
  apply TextMap.ext_get?
  intro flag
  obtain ⟨entries, hsorted⟩ := m
  show (collect entries).get? flag = TextMap.lookup flag entries
  induction entries generalizing flag with
  | nil => rfl
  | cons e entries ih =>
      obtain ⟨hfirst, hmore⟩ := List.pairwise_cons.mp hsorted
      -- The first flag is smaller than the others, so it has no entry among them.
      have hnone : (collect entries).get? e.1 = none := by
        rw [ih e.1 hmore, TextMap.lookup_eq_none_of_forall_ne]
        intro e' he' heq
        exact String.lt_irrefl _ (heq ▸ hfirst e' he')
      have hstep : collect (e :: entries) = (collect entries).prepend e.1 e.2 := rfl
      rw [hstep, TextMap.prepend, hnone, TextMap.get?_insert, ih flag hmore]
      simp [TextMap.lookup]

/-- Arguments as a line can have them: every flag is known, and no argument is a known flag. -/
structure SortedBy (known : List String) (a : Arguments) : Prop where
  flags : a.options.keys ⊆ known
  args : (TextMap.arguments a.options).Disjoint known
  general : a.general.Disjoint known

theorem SortedBy.isGroup {a : Arguments} (h : SortedBy known a) :
    ∀ g ∈ a.options.entries, IsGroup known g := by
  intro g hg
  refine ⟨h.flags (List.mem_map_of_mem hg), ?_⟩
  intro arg harg
  exact h.args (List.mem_flatMap_of_mem hg harg)

/-- What a line is sorted into is sorted. -/
theorem sortedBy_parse (known tokens : List String) : SortedBy known (parse known tokens) := by
  have hnot : ∀ arg ∈ TextMap.arguments (parse known tokens).options ++
      (parse known tokens).general, arg ∉ known := by
    intro arg harg
    have hmem := (parse_perm known tokens).subset harg
    simpa using (List.mem_filter.mp hmem).2
  refine ⟨?_, ?_, ?_⟩
  · intro flag hflag
    apply mem_known_of_get?_parse
    exact Option.isSome_iff_ne_none.mp (TextMap.mem_keys_iff.mp hflag)
  · exact fun arg harg => hnot arg (List.mem_append_left _ harg)
  · exact fun arg harg => hnot arg (List.mem_append_right _ harg)

theorem parse_flatten {a : Arguments} (h : SortedBy known a) : parse known a.flatten = a := by
  have hread := parse_append_written h.general h.isGroup
  rw [collect_entries] at hread
  exact hread

/-- **Sorting a line and writing it out are inverse.** Arguments that are written out, flags in the
order of their bytes, are sorted again exactly if all their flags are known and none of their arguments
is. What any line is sorted into is of this kind, so sorting a line, writing it out and sorting it again
is sorting it. -/
theorem parse_flatten_iff (known : List String) :
    (∀ a : Arguments, (a.options.keys.map Text.bytes).Pairwise (· < ·)) ∧
    (∀ a : Arguments, parse known a.flatten = a ↔ SortedBy known a) ∧
    (∀ tokens, SortedBy known (parse known tokens)) ∧
    ∀ tokens, parse known (parse known tokens).flatten = parse known tokens := by
  refine ⟨?_, ?_, sortedBy_parse known, fun tokens => parse_flatten (sortedBy_parse known tokens)⟩
  · intro a
    rw [List.pairwise_map, TextMap.keys, List.pairwise_map]
    exact a.options.sorted.imp fun hlt => Text.bytes_lt_iff.mpr hlt
  · intro a
    constructor
    · intro h
      rw [← h]
      exact sortedBy_parse known _
    · exact parse_flatten

end HgToGit.Arguments
