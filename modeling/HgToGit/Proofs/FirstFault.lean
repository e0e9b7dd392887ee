/-
# HgToGit.Proofs.FirstFault -- the first faulty entry of a list of declarations

An entry of a list is faulty if it has the name of an earlier entry, or a pattern that cannot be
read. Compiling goes through the list and stops at the first faulty entry
(`compileWith_eq_error_iff`): what was compiled before it says which names are taken, and these are
the names of the earlier entries. An entry with both faults is told about its name. All this does
not depend on which patterns can be read.

A list without a faulty entry compiles to the registry that declares it, and there a name finds the
one command that has it.
-/
import HgToGit.Proofs.RegistryTable
import Mathlib.Data.List.Nodup

namespace HgToGit

/-- A fold that can fail fails at the first entry at which its step does. -/
theorem foldlM_eq_error_iff {α β ε : Type} {f : β → α → Except ε β} {l : List α} {b : β} {e : ε} :
    l.foldlM f b = .error e ↔
      ∃ before a after, l = before ++ a :: after ∧
        ∃ b', before.foldlM f b = .ok b' ∧ f b' a = .error e := by
  induction l generalizing b with
  | nil =>
      constructor
      · intro h
        cases h
      · rintro ⟨before, a, after, hl, -⟩
        exact absurd hl (by simp)
  | cons x l ih =>
      rw [List.foldlM_cons]
      constructor
      · intro h
        cases hx : f b x with
        | error e' =>
            rw [hx] at h
            cases h
            exact ⟨[], x, l, rfl, b, rfl, hx⟩
        | ok next =>
            rw [hx] at h
            obtain ⟨before, a, after, rfl, b', hbefore, ha⟩ := ih.mp h
            refine ⟨x :: before, a, after, rfl, b', ?_, ha⟩
            rw [List.foldlM_cons, hx]
            exact hbefore
      · rintro ⟨before, a, after, hl, b', hbefore, ha⟩
        cases before with
        | nil =>
            obtain ⟨rfl, rfl⟩ := List.cons.inj hl
            cases hbefore
            rw [ha]
            rfl
        | cons y before =>
            obtain ⟨rfl, rfl⟩ := List.cons.inj hl
            rw [List.foldlM_cons] at hbefore
            cases hx : f b x with
            | error e' =>
                rw [hx] at hbefore
                cases hbefore
            | ok next =>
                rw [hx] at hbefore
                exact ih.mpr ⟨before, a, after, rfl, b', hbefore, ha⟩

namespace Registry

variable {read : String → Option Matcher} {ds before after : List Declaration} {d : Declaration}
  {r : Registry} {i : Nat}

/-! ## Faulty entries -/

/-- An entry has the name of an earlier one. -/
def RepeatsName (ds : List Declaration) (i : Nat) : Prop :=
  ∃ d, ds[i]? = some d ∧ ∃ earlier ∈ ds.take i, earlier.name = d.name

/-- An entry has a pattern that cannot be read. -/
def IsUnreadable (read : String → Option Matcher) (ds : List Declaration) (i : Nat) : Prop :=
  ∃ d, ds[i]? = some d ∧ read d.pattern = none

/-- An entry has a fault, or both. -/
def IsFaulty (read : String → Option Matcher) (ds : List Declaration) (i : Nat) : Prop :=
  RepeatsName ds i ∨ IsUnreadable read ds i

/-- What is told about a faulty entry. -/
inductive FaultAt (read : String → Option Matcher) (ds : List Declaration) (i : Nat) :
    Fault → Prop where
  /-- Its name, whatever its pattern is. -/
  | repeatsName {d : Declaration} : ds[i]? = some d → RepeatsName ds i →
      FaultAt read ds i (.duplicateName d.name)
  /-- Its pattern, if its name is new. -/
  | unreadable {d : Declaration} : ds[i]? = some d → ¬ RepeatsName ds i → IsUnreadable read ds i →
      FaultAt read ds i (.invalidPattern d.name)

theorem FaultAt.isFaulty {fault : Fault} (h : FaultAt read ds i fault) : IsFaulty read ds i := by
  cases h with
  | repeatsName _ hname => exact .inl hname
  | unreadable _ _ hpattern => exact .inr hpattern

theorem repeatsName_append_cons (before after : List Declaration) (d : Declaration) :
    RepeatsName (before ++ d :: after) before.length ↔ d.name ∈ before.map (·.name) := by
  simp [RepeatsName]

theorem isUnreadable_append_cons (before after : List Declaration) (d : Declaration) :
    IsUnreadable read (before ++ d :: after) before.length ↔ read d.pattern = none := by
  simp [IsUnreadable]

/-- Whether an entry is faulty is decided by the entries up to it. -/
theorem isFaulty_append (hi : i < before.length) :
    IsFaulty read (before ++ after) i ↔ IsFaulty read before i := by
  simp only [IsFaulty, RepeatsName, IsUnreadable, List.getElem?_append_left hi,
    List.take_append_of_le_length (Nat.le_of_lt hi)]

/-! ## The first of them -/

theorem add_eq_error_iff {fault : Fault} :
    r.add read d = .error fault ↔
      (d.name ∈ r.names ∧ fault = .duplicateName d.name) ∨
        (d.name ∉ r.names ∧ read d.pattern = none ∧ fault = .invalidPattern d.name) := by
  by_cases hname : d.name ∈ r.names
  · rw [add, dif_pos hname]
    simp [hname, eq_comm]
  · rw [add, dif_neg hname]
    cases hread : read d.pattern with
    | none => simp [hname, eq_comm]
    | some m => simp [hname]

/-- What a list that has been compiled says of the entry after it. -/
theorem add_eq_error_iff_faultAt {fault : Fault} (h : compileWith read before = .ok r)
    (after : List Declaration) :
    r.add read d = .error fault ↔ FaultAt read (before ++ d :: after) before.length fault := by
  have hentry : (before ++ d :: after)[before.length]? = some d := by simp
  have hnames : r.names = before.map (·.name) := by
    rw [names_eq_map_declared, (compileWith_eq_ok_iff.mp h).1]
  rw [add_eq_error_iff, hnames, ← repeatsName_append_cons before after d,
    ← isUnreadable_append_cons before after d]
  constructor
  · rintro (⟨hname, rfl⟩ | ⟨hname, hpattern, rfl⟩)
    · exact .repeatsName hentry hname
    · exact .unreadable hentry hname hpattern
  · intro hfault
    cases hfault with
    | repeatsName hget hname =>
        obtain rfl := Option.some.inj (hentry.symm.trans hget)
        exact .inl ⟨hname, rfl⟩
    | unreadable hget hname hpattern =>
        obtain rfl := Option.some.inj (hentry.symm.trans hget)
        exact .inr ⟨hname, hpattern, rfl⟩

theorem exists_faultAt_of_compileWith {fault : Fault} (h : compileWith read ds = .error fault) :
    ∃ before d after, ds = before ++ d :: after ∧ (∃ r, compileWith read before = .ok r) ∧
      FaultAt read ds before.length fault := by
  obtain ⟨before, d, after, rfl, r, hbefore, hadd⟩ := foldlM_eq_error_iff.mp h
  exact ⟨before, d, after, rfl, ⟨r, hbefore⟩, (add_eq_error_iff_faultAt hbefore after).mp hadd⟩

/-- A list compiles exactly if no entry is faulty. -/
theorem exists_compileWith_eq_ok_iff :
    (∃ r, compileWith read ds = .ok r) ↔ ∀ i, ¬ IsFaulty read ds i := by
  constructor
  · rintro ⟨r, hr⟩ i
    obtain ⟨rfl, hread⟩ := compileWith_eq_ok_iff.mp hr
    rintro (⟨d, hd, earlier, hearlier, hname⟩ | ⟨d, hd, hnone⟩)
    · -- The entry is in the rest of the list, and no name of the front comes again there.
      obtain ⟨hi, rfl⟩ := List.getElem?_eq_some_iff.mp hd
      have hnodup := r.nodup_names_declared
      rw [← List.take_append_drop i r.declared, List.map_append, List.nodup_append] at hnodup
      refine hnodup.2.2 _ (List.mem_map_of_mem hearlier) _ (List.mem_map_of_mem ?_) hname
      rw [List.drop_eq_getElem_cons hi]
      exact List.mem_cons_self
    · obtain ⟨definition, hmem, rfl⟩ := List.mem_map.mp (List.mem_of_getElem? hd)
      cases hnone.symm.trans (hread definition hmem)
  · intro hnone
    cases hds : compileWith read ds with
    | ok r => exact ⟨r, rfl⟩
    | error fault =>
        obtain ⟨before, d, after, -, -, hfault⟩ := exists_faultAt_of_compileWith hds
        exact absurd hfault.isFaulty (hnone _)

/-- **Compiling tells about the first faulty entry.** -/
theorem compileWith_eq_error_iff {fault : Fault} :
    compileWith read ds = .error fault ↔
      ∃ i, FaultAt read ds i fault ∧ ∀ j < i, ¬ IsFaulty read ds j := by
  constructor
  · intro h
    obtain ⟨before, d, after, rfl, hbefore, hfault⟩ := exists_faultAt_of_compileWith h
    refine ⟨before.length, hfault, fun j hj => ?_⟩
    rw [isFaulty_append hj]
    exact exists_compileWith_eq_ok_iff.mp hbefore j
  · rintro ⟨i, hfault, hfirst⟩
    obtain ⟨d, hd⟩ : ∃ d, ds[i]? = some d := by
      cases hfault with
      | repeatsName hd => exact ⟨_, hd⟩
      | unreadable hd => exact ⟨_, hd⟩
    obtain ⟨hi, rfl⟩ := List.getElem?_eq_some_iff.mp hd
    have hds : ds = ds.take i ++ ds[i] :: ds.drop (i + 1) := by
      rw [List.getElem_cons_drop, List.take_append_drop]
    have hlength : (ds.take i).length = i := List.length_take_of_le (Nat.le_of_lt hi)
    -- None of the entries before the first faulty one is faulty, so they are a table of their own.
    obtain ⟨r, hr⟩ : ∃ r, compileWith read (ds.take i) = .ok r := by
      refine exists_compileWith_eq_ok_iff.mpr fun j hfaulty => ?_
      have hj : j < (ds.take i).length := by
        rcases hfaulty with ⟨d, hd, -⟩ | ⟨d, hd, -⟩ <;> exact (List.getElem?_eq_some_iff.mp hd).1
      refine hfirst j (hlength ▸ hj) ?_
      rw [hds]
      exact (isFaulty_append hj).mpr hfaulty
    refine foldlM_eq_error_iff.mpr ⟨ds.take i, ds[i], ds.drop (i + 1), hds, r, hr, ?_⟩
    rw [add_eq_error_iff_faultAt hr (ds.drop (i + 1)), ← hds, hlength]
    exact hfault

/-! ## Commands by name -/

theorem get?_eq_some_iff {name : String} {definition : Definition} :
    r.get? name = some definition ↔ definition ∈ r.definitions ∧ definition.name = name := by
  constructor
  · intro h
    exact ⟨List.mem_of_find?_eq_some h, by simpa using List.find?_some h⟩
  · rintro ⟨hmem, rfl⟩
    cases hget : r.get? definition.name with
    | none =>
        have hne : definition.name ≠ definition.name := by
          simpa using List.find?_eq_none.mp hget definition hmem
        exact absurd rfl hne
    | some found =>
        have hname : found.name = definition.name := by simpa using List.find?_some hget
        rw [List.inj_on_of_nodup_map r.distinct (List.mem_of_find?_eq_some hget) hmem hname]

theorem get?_eq_none_iff {name : String} :
    r.get? name = none ↔ ∀ d ∈ r.declared, d.name ≠ name := by
  simp [get?, declared]

/-- **A list compiles to its table, or its first faulty entry is told**, whichever patterns can be
read. Compiling fails exactly if an entry repeats an earlier name or has a pattern that cannot be
read, and what is told is the fault of the first such entry, its name before its pattern. If it
succeeds, the table has the entries of the list in their order and nothing else, each with what its
pattern is read as, no two of them have one name, and a name finds the one command that has it, or
nothing if no entry does. -/
theorem compile_accounts_for_entries (read : String → Option Matcher) (ds : List Declaration) :
    ((∃ fault, compileWith read ds = .error fault) ↔ ∃ i, IsFaulty read ds i) ∧
    (∀ fault, compileWith read ds = .error fault ↔
      ∃ i, FaultAt read ds i fault ∧ ∀ j < i, ¬ IsFaulty read ds j) ∧
    ∀ r, compileWith read ds = .ok r →
      r.definitions.map (·.toDeclaration) = ds ∧
      (∀ d ∈ r.definitions, read d.pattern = some d.matcher) ∧
      (ds.map (·.name)).Nodup ∧ r.size = ds.length ∧
      ∀ name,
        (∀ d, r.get? name = some d ↔
          d ∈ r.definitions ∧ ∀ d' ∈ r.definitions, d'.name = name ↔ d' = d) ∧
        (r.get? name = none ↔ ∀ d ∈ ds, d.name ≠ name) := by
  refine ⟨?_, fun fault => compileWith_eq_error_iff, ?_⟩
  · constructor
    · rintro ⟨fault, hfault⟩
      obtain ⟨i, hfault, -⟩ := compileWith_eq_error_iff.mp hfault
      exact ⟨i, hfault.isFaulty⟩
    · rintro ⟨i, hfaulty⟩
      cases h : compileWith read ds with
      | error fault => exact ⟨fault, rfl⟩
      | ok r => exact absurd hfaulty (exists_compileWith_eq_ok_iff.mp ⟨r, h⟩ i)
  · intro r hr
    obtain ⟨rfl, hread⟩ := compileWith_eq_ok_iff.mp hr
    refine ⟨rfl, hread, r.nodup_names_declared, by simp [size, declared],
      fun name => ⟨fun d => ?_, ?_⟩⟩
    · rw [get?_eq_some_iff]
      refine and_congr_right fun hd => ⟨?_, fun honly => (honly d hd).mpr rfl⟩
      rintro rfl d' hd'
      exact ⟨List.inj_on_of_nodup_map r.distinct hd' hd, fun h => h ▸ rfl⟩
    · exact get?_eq_none_iff

/-- An entry with both faults is told about its name, and a fault after it is not told. In front of it
there is a table of one command. -/
theorem compile_accounts_for_entries_both_faults :
    let entry (name pattern : String) : Declaration := ⟨name, pattern, ["-f"], true, .log⟩
    let ds := [entry "log" "^hg +log", entry "log" "^hg +(", entry "pull" "+"]
    IsUnreadable Pattern.matcher? ds 1 ∧ compile ds = .error (.duplicateName "log") ∧
      ∃ r, compile (ds.take 1) = .ok r ∧ r.size = 1 ∧ r.get? "pull" = none := by
  intro entry ds
  have hrepeats : RepeatsName ds 1 :=
    ⟨entry "log" "^hg +(", rfl, entry "log" "^hg +log", by decide, rfl⟩
  have hunreadable : IsUnreadable Pattern.matcher? ds 1 :=
    ⟨entry "log" "^hg +(", rfl, by rw [Pattern.matcher?, Option.map_eq_none_iff]; decide⟩
  have hsound : ∀ j < 1, ¬ IsFaulty Pattern.matcher? ds j := by
    intro j hj
    obtain rfl : j = 0 := by omega
    rintro (⟨d, -, earlier, hearlier, -⟩ | ⟨d, hd, hnone⟩)
    · exact absurd hearlier List.not_mem_nil
    · cases hd
      exact absurd hnone (by decide)
  refine ⟨hunreadable, ?_, ?_⟩
  · exact ((compile_accounts_for_entries Pattern.matcher? ds).2.1 _).mpr
      ⟨1, .repeatsName rfl hrepeats, hsound⟩
  · have hfront : (compile (ds.take 1)).toOption.isSome := by decide
    cases hcompile : compile (ds.take 1) with
    | error fault =>
        rw [hcompile] at hfront
        cases hfront
    | ok r =>
        obtain ⟨-, -, -, hsize, hget⟩ :=
          (compile_accounts_for_entries Pattern.matcher? (ds.take 1)).2.2 r hcompile
        exact ⟨r, rfl, hsize, (hget "pull").2.mpr (by decide)⟩

end Registry

end HgToGit
