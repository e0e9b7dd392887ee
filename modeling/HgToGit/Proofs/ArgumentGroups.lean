/-
# HgToGit.Proofs.ArgumentGroups -- where the tokens of a line go

A line is sorted by reading it once from its end (`Arguments.groups`) and filing what each flag took
(`Arguments.collect`). Read from the front, a token that is no flag goes to the last known flag in
front of it (`Arguments.absorbed`), or to the general arguments if there is none. The two readings
agree (`get?_parse`), and no token that is no flag is lost or doubled (`parse_perm`). The only flag of
a command takes all that stands behind its first occurrence (`absorbed_append`).

A map of flags is a bag of arguments for that purpose: what filing a flag and taking one away do to
the bag is said here once, for the commands that move arguments about.
-/
import HgToGit.Invocation
import Mathlib.Data.List.Nodup
import Mathlib.Data.List.Perm.Basic
import Mathlib.Data.List.TakeWhile

namespace HgToGit

namespace TextMap

variable {α : Type}

/-! ## Entries up to their order -/

theorem nodup_entries (m : TextMap α) : m.entries.Nodup := by
  refine m.sorted.imp ?_
  rintro a b hlt rfl
  exact String.lt_irrefl _ hlt

/-- The entries after an insertion are the new one and those of the other keys. -/
theorem entries_insert_perm (m : TextMap α) (key : String) (value : α) :
    (m.insert key value).entries.Perm ((key, value) :: (m.erase key).entries) := by
  have hnew : (key, value) ∉ (m.erase key).entries := by
    rw [← get?_eq_some_iff, get?_erase]
    simp
  have hnodup : ((key, value) :: (m.erase key).entries).Nodup :=
    List.nodup_cons.mpr ⟨hnew, nodup_entries _⟩
  rw [List.perm_ext_iff_of_nodup (nodup_entries _) hnodup]
  rintro ⟨key', value'⟩
  rw [List.mem_cons, ← get?_eq_some_iff, ← get?_eq_some_iff, get?_insert, get?_erase]
  by_cases hkey : key = key'
  · subst hkey
    simp [eq_comm]
  · have hne : key' ≠ key := fun h => hkey h.symm
    simp [hkey, hne]

theorem erase_of_get?_eq_none {m : TextMap α} {key : String} (h : m.get? key = none) :
    m.erase key = m := by
  apply ext_get?
  intro key'
  rw [get?_erase]
  by_cases hkey : key = key'
  · rw [if_pos hkey, ← hkey, h]
  · rw [if_neg hkey]

theorem insert_erase_of_get?_eq_some {m : TextMap α} {key : String} {value : α}
    (h : m.get? key = some value) : (m.erase key).insert key value = m := by
  apply ext_get?
  intro key'
  rw [get?_insert, get?_erase]
  by_cases hkey : key = key'
  · rw [if_pos hkey, ← hkey, h]
  · rw [if_neg hkey, if_neg hkey]

theorem insert_mapValues {β : Type} (f : α → β) (m : TextMap α) (key : String) (value : α) :
    (m.mapValues f).insert key (f value) = (m.insert key value).mapValues f := by
  apply ext_get?
  intro key'
  rw [get?_insert, get?_mapValues, get?_mapValues, get?_insert]
  by_cases hkey : key = key'
  · simp [hkey]
  · simp [hkey]

theorem erase_mapValues {β : Type} (f : α → β) (m : TextMap α) (key : String) :
    (m.mapValues f).erase key = (m.erase key).mapValues f := by
  apply ext_get?
  intro key'
  rw [get?_erase, get?_mapValues, get?_mapValues, get?_erase]
  by_cases hkey : key = key'
  · simp [hkey]
  · simp [hkey]

/-! ## The arguments of all flags -/

/-- The arguments of all flags, in the order of the flags. -/
def arguments (m : Options) : List String := m.entries.flatMap Prod.snd

@[simp] theorem arguments_empty : arguments .empty = [] := rfl

@[simp] theorem arguments_singleton (flag : String) (args : List String) :
    arguments (.singleton flag args) = args := by
  simp [arguments, singleton, insert, insertEntry, empty]

theorem arguments_mapValues (f : String → String) (m : Options) :
    arguments (m.mapValues (List.map f)) = (arguments m).map f := by
  simp only [arguments, mapValues, List.flatMap_map, List.map_flatMap]

/-- A flag with its arguments is filed in place of what the flag had. -/
theorem arguments_insert_perm (m : Options) (flag : String) (args : List String) :
    (arguments (m.insert flag args)).Perm (args ++ arguments (m.erase flag)) :=
  (m.entries_insert_perm flag args).flatMap_right Prod.snd

/-- The arguments of one flag, and those of the others. -/
theorem arguments_perm (m : Options) (flag : String) :
    (arguments m).Perm ((m.get? flag).getD [] ++ arguments (m.erase flag)) := by
  cases h : m.get? flag with
  | none => rw [erase_of_get?_eq_none h, Option.getD_none, List.nil_append]
  | some args =>
      have hfile := arguments_insert_perm (m.erase flag) flag args
      rw [insert_erase_of_get?_eq_some h,
        erase_of_get?_eq_none (m := m.erase flag) (by rw [get?_erase, if_pos rfl])] at hfile
      exact hfile

/-- If no other flag was given, a flag has all the arguments. -/
theorem arguments_eq_of_get?_eq_none {m : Options} {flag : String}
    (h : ∀ other, other ≠ flag → m.get? other = none) : arguments m = (m.get? flag).getD [] := by
  have herase : m.erase flag = .empty := by
    apply ext_get?
    intro other
    rw [get?_erase]
    by_cases hflag : flag = other
    · simp [hflag]
    · rw [if_neg hflag, h other fun heq => hflag heq.symm, get?_empty]
  cases hget : m.get? flag with
  | none =>
      rw [erase_of_get?_eq_none hget] at herase
      rw [herase]
      rfl
  | some args =>
      rw [← insert_erase_of_get?_eq_some hget, herase]
      exact arguments_singleton flag args

end TextMap

namespace Arguments

/-! ## Reading a line from the front -/

/-- The tokens before the first known flag. -/
def leading (known tokens : List String) : List String :=
  tokens.takeWhile fun token => token ∉ known

/-- The tokens that a flag takes: those whose last known flag in front is this one. `taking` says
whether it was the last one so far. -/
def absorbed (known : List String) (flag : String) (taking : Bool) : List String → List String
  | [] => []
  | token :: rest =>
    if token ∈ known then absorbed known flag (token = flag) rest
    else if taking then token :: absorbed known flag taking rest
    else absorbed known flag taking rest

theorem mem_of_mem_absorbed {known : List String} {flag arg : String} {taking : Bool}
    {tokens : List String} (h : arg ∈ absorbed known flag taking tokens) : arg ∈ tokens := by
  induction tokens generalizing taking with
  | nil => simp [absorbed] at h
  | cons token rest ih =>
      rw [absorbed] at h
      split at h
      · exact List.mem_cons_of_mem _ (ih h)
      · split at h
        · rcases List.mem_cons.mp h with rfl | h
          · exact List.mem_cons_self
          · exact List.mem_cons_of_mem _ (ih h)
        · exact List.mem_cons_of_mem _ (ih h)

/-- The general arguments are the tokens before the first known flag. -/
theorem general_parse (known tokens : List String) :
    (parse known tokens).general = leading known tokens := by
  show (groups known tokens).1 = leading known tokens
  induction tokens with
  | nil => rfl
  | cons token rest ih =>
      unfold leading at ih ⊢
      by_cases htoken : token ∈ known
      · simp [groups, htoken]
      · simp [groups, htoken, ih]

theorem filter_eq_groups (known tokens : List String) :
    tokens.filter (fun token => token ∉ known) =
      (groups known tokens).1 ++ (groups known tokens).2.flatMap Prod.snd := by
  induction tokens with
  | nil => rfl
  | cons token rest ih =>
      by_cases htoken : token ∈ known
      · rw [List.filter_cons_of_neg (by simpa using htoken), ih]
        simp [groups, htoken]
      · rw [List.filter_cons_of_pos (by simpa using htoken), ih]
        simp [groups, htoken]

/-- What a flag takes in its groups, after what it takes of the tokens before the first group. -/
theorem absorbed_eq_groups (known : List String) (flag : String) (taking : Bool)
    (tokens : List String) :
    absorbed known flag taking tokens =
      (if taking then (groups known tokens).1 else []) ++
        ((groups known tokens).2.filter fun g => g.1 = flag).flatMap Prod.snd := by
  induction tokens generalizing taking with
  | nil => cases taking <;> rfl
  | cons token rest ih =>
      by_cases htoken : token ∈ known
      · by_cases hflag : token = flag
        · subst hflag
          simp [absorbed, groups, htoken, ih]
        · simp [absorbed, groups, htoken, hflag, ih]
      · cases taking <;> simp [absorbed, groups, htoken, ih]

theorem mem_flags_groups_iff {known tokens : List String} {flag : String} :
    flag ∈ (groups known tokens).2.map Prod.fst ↔ flag ∈ known ∧ flag ∈ tokens := by
  induction tokens with
  | nil => simp [groups]
  | cons token rest ih =>
      by_cases htoken : token ∈ known
      · by_cases hflag : flag = token
        · simp [groups, hflag, htoken]
        · simp only [groups, htoken, if_true, List.map_cons, List.mem_cons, hflag, false_or, ih]
      · have hne : flag ∈ known → flag ≠ token := fun hknown h => htoken (h ▸ hknown)
        simp only [groups, htoken, if_false, ih, List.mem_cons]
        constructor
        · rintro ⟨hknown, hrest⟩
          exact ⟨hknown, Or.inr hrest⟩
        · rintro ⟨hknown, hrest⟩
          exact ⟨hknown, hrest.resolve_left (hne hknown)⟩

/-! ## Filing the groups -/

open scoped List

theorem filter_eq_nil_of_notMem_flags {gs : List Group} {flag : String}
    (h : flag ∉ gs.map Prod.fst) : gs.filter (fun g => g.1 = flag) = [] := by
  rw [List.filter_eq_nil_iff]
  intro g hg hflag
  exact h (List.mem_map.mpr ⟨g, hg, by simpa using hflag⟩)

theorem get?_collect (gs : List Group) (flag : String) :
    (collect gs).get? flag =
      if flag ∈ gs.map Prod.fst then some ((gs.filter fun g => g.1 = flag).flatMap Prod.snd)
      else none := by
  induction gs with
  | nil => rfl
  | cons g gs ih =>
      have hstep : collect (g :: gs) = (collect gs).prepend g.1 g.2 := rfl
      rw [hstep, TextMap.prepend, TextMap.get?_insert]
      by_cases hflag : g.1 = flag
      · rw [if_pos hflag, hflag, ih]
        by_cases hmem : flag ∈ gs.map Prod.fst
        · simp [hflag, hmem]
        · simp [hflag, hmem, filter_eq_nil_of_notMem_flags hmem]
      · have hne : ¬ flag = g.1 := fun h => hflag h.symm
        rw [if_neg hflag, ih]
        simp only [List.map_cons, List.mem_cons, hne, false_or]
        rw [List.filter_cons_of_neg (by simpa using hflag)]

/-- **A flag is on the line exactly if it is known and stands there, and it has the tokens that it
takes.** -/
theorem get?_parse (known tokens : List String) (flag : String) :
    (parse known tokens).options.get? flag =
      if flag ∈ known ∧ flag ∈ tokens then some (absorbed known flag false tokens) else none := by
  show (collect (groups known tokens).2).get? flag = _
  rw [get?_collect, absorbed_eq_groups]
  simp only [mem_flags_groups_iff, Bool.false_eq_true, if_false, List.nil_append]

theorem arguments_collect_perm (gs : List Group) :
    (TextMap.arguments (collect gs)).Perm (gs.flatMap Prod.snd) := by
  induction gs with
  | nil => exact List.Perm.nil
  | cons g gs ih =>
      have hstep : collect (g :: gs) = (collect gs).prepend g.1 g.2 := rfl
      rw [hstep, TextMap.prepend, List.flatMap_cons]
      calc TextMap.arguments ((collect gs).insert g.1 (g.2 ++ ((collect gs).get? g.1).getD []))
          ~ g.2 ++ ((collect gs).get? g.1).getD [] ++ TextMap.arguments ((collect gs).erase g.1) :=
            TextMap.arguments_insert_perm _ _ _
        _ = g.2 ++
              (((collect gs).get? g.1).getD [] ++ TextMap.arguments ((collect gs).erase g.1)) :=
            List.append_assoc _ _ _
        _ ~ g.2 ++ TextMap.arguments (collect gs) :=
            ((collect gs).arguments_perm g.1).symm.append_left g.2
        _ ~ g.2 ++ gs.flatMap Prod.snd := ih.append_left g.2

/-- What a flag has is what it takes; a flag that was not given has nothing. -/
theorem getD_get?_parse (known tokens : List String) (flag : String) :
    ((parse known tokens).options.get? flag).getD [] = absorbed known flag false tokens := by
  show ((collect (groups known tokens).2).get? flag).getD [] = _
  rw [get?_collect, absorbed_eq_groups]
  split
  · rfl
  · rename_i hnot
    rw [filter_eq_nil_of_notMem_flags hnot]
    rfl

theorem mem_known_of_get?_parse {known tokens : List String} {flag : String}
    (h : (parse known tokens).options.get? flag ≠ none) : flag ∈ known := by
  rw [get?_parse] at h
  by_contra hnot
  exact h (if_neg fun hgiven => hnot hgiven.1)

/-- **Sorting a line loses and doubles no token.** The arguments of the flags and the general
arguments are the tokens that are no known flags. -/
theorem parse_perm (known tokens : List String) :
    (TextMap.arguments (parse known tokens).options ++ (parse known tokens).general).Perm
      (tokens.filter fun token => token ∉ known) := by
  rw [filter_eq_groups]
  have hfile : (TextMap.arguments (parse known tokens).options).Perm
      ((groups known tokens).2.flatMap Prod.snd) := arguments_collect_perm _
  exact (hfile.append_right _).trans List.perm_append_comm

/-! ## The invocation of a line -/

section Invocation

variable (command : String) (known tokens : List String)

theorem general_ofArguments :
    (Invocation.ofArguments command (parse known tokens)).general = leading known tokens :=
  general_parse known tokens

theorem optionArgs_ofArguments (flag : String) :
    (Invocation.ofArguments command (parse known tokens)).optionArgs flag =
      absorbed known flag false tokens :=
  getD_get?_parse known tokens flag

theorem hasOption_ofArguments {flag : String} (hknown : flag ∈ known) (hgiven : flag ∈ tokens) :
    (Invocation.ofArguments command (parse known tokens)).hasOption flag = true := by
  show ((parse known tokens).options.get? flag).isSome = true
  rw [get?_parse, if_pos ⟨hknown, hgiven⟩, Option.isSome_some]

end Invocation

/-! ## Commands that know one flag, or none -/

theorem options_parse_nil (tokens : List String) : (parse [] tokens).options = .empty := by
  apply TextMap.ext_get?
  intro flag
  rw [get?_parse, if_neg fun hgiven => List.not_mem_nil hgiven.1, TextMap.get?_empty]

theorem general_parse_nil (tokens : List String) : (parse [] tokens).general = tokens := by
  rw [general_parse, leading, List.takeWhile_eq_self_iff]
  simp

section OneFlag

variable {flag : String}

/-- A line without its only flag has no flags. -/
theorem erase_options_parse (flag : String) (tokens : List String) :
    (parse [flag] tokens).options.erase flag = .empty := by
  apply TextMap.ext_get?
  intro other
  rw [TextMap.get?_erase, TextMap.get?_empty]
  split
  · rfl
  · rename_i hne
    rw [get?_parse, if_neg]
    rintro ⟨hknown, -⟩
    exact hne (List.mem_singleton.mp hknown).symm

/-- A flag that takes goes on to take every token but itself. -/
theorem absorbed_of_taking (flag : String) (tokens : List String) :
    absorbed [flag] flag true tokens = tokens.filter (· ≠ flag) := by
  induction tokens with
  | nil => rfl
  | cons token rest ih =>
      by_cases hflag : token = flag
      · simp [absorbed, hflag, ih]
      · simp [absorbed, hflag, ih]

/-- A flag takes every token after its first occurrence but itself. -/
theorem absorbed_append {before : List String} (hbefore : flag ∉ before) (after : List String) :
    absorbed [flag] flag false (before ++ flag :: after) = after.filter (· ≠ flag) := by
  induction before with
  | nil => simp [absorbed, absorbed_of_taking]
  | cons token rest ih =>
      obtain ⟨hne, hrest⟩ : flag ≠ token ∧ flag ∉ rest := by simpa using hbefore
      have hother : token ∉ [flag] := fun hmem => hne (List.mem_singleton.mp hmem).symm
      rw [List.cons_append, absorbed, if_neg hother, if_neg Bool.false_ne_true, ih hrest]

theorem absorbed_of_notMem {tokens : List String} (h : flag ∉ tokens) :
    absorbed [flag] flag false tokens = [] := by
  rw [← getD_get?_parse, get?_parse, if_neg fun hgiven => h hgiven.2]
  rfl

end OneFlag

/-! ## Tokens that change before a line is sorted -/

section Map

variable {f : String → String} {known : List String}

theorem groups_map (hmem : ∀ token, f token ∈ known ↔ token ∈ known)
    (hflag : ∀ flag ∈ known, f flag = flag) (tokens : List String) :
    groups known (tokens.map f) =
      ((groups known tokens).1.map f, (groups known tokens).2.map fun g => (g.1, g.2.map f)) := by
  induction tokens with
  | nil => rfl
  | cons token rest ih =>
      rw [List.map_cons, groups, groups, ih]
      by_cases htoken : token ∈ known
      · simp [htoken, hflag token htoken]
      · simp [htoken, hmem]

theorem collect_map (gs : List Group) :
    collect (gs.map fun g => (g.1, g.2.map f)) = (collect gs).mapValues (List.map f) := by
  induction gs with
  | nil => rfl
  | cons g gs ih =>
      show (collect (gs.map fun g => (g.1, g.2.map f))).prepend g.1 (g.2.map f) =
        ((collect gs).prepend g.1 g.2).mapValues (List.map f)
      rw [ih, TextMap.prepend, TextMap.prepend, ← TextMap.insert_mapValues, TextMap.get?_mapValues,
        List.map_append]
      cases (collect gs).get? g.1 <;> rfl

/-- What keeps the flags, and makes no other token a flag, can be done to the tokens of a line or to
its sorted arguments. -/
theorem parse_map (hmem : ∀ token, f token ∈ known ↔ token ∈ known)
    (hflag : ∀ flag ∈ known, f flag = flag) (tokens : List String) :
    parse known (tokens.map f) =
      ⟨(parse known tokens).options.mapValues (List.map f), (parse known tokens).general.map f⟩ := by
  rw [parse, groups_map hmem hflag]
  show Arguments.mk (collect ((groups known tokens).2.map fun g => (g.1, g.2.map f))) _ = _
  rw [collect_map]
  rfl

end Map

end Arguments

end HgToGit
