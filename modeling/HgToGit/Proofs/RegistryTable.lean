/-
# HgToGit.Proofs.RegistryTable -- a registry is the list of its declarations

A registry may have any matchers. One that is made of a list of declarations has those that its
patterns are read as (`Registry.IsReadBy`), so it is determined by the list: compiling a list yields
a registry exactly if that registry declares the list and is read in the same way
(`compileWith_eq_ok_iff`).

The order of a registry counts only where two of its commands match one line: if none do,
`recognize_eq_of_perm` lets the commands change places.
-/
import HgToGit.Registry.Builtin
import Mathlib.Data.List.Perm.Basic

namespace HgToGit

namespace Registry

/-! ## Registries and their declarations -/

/-- The declarations of a registry, in its order. -/
def declared (r : Registry) : List Declaration := r.definitions.map (·.toDeclaration)

/-- The matchers of a registry are what its patterns are read as. -/
def IsReadBy (read : String → Option Matcher) (r : Registry) : Prop :=
  ∀ d ∈ r.definitions, read d.pattern = some d.matcher

variable {read : String → Option Matcher}

theorem ext_definitions {r r' : Registry} (h : r.definitions = r'.definitions) : r = r' := by
  obtain ⟨definitions, hdistinct⟩ := r
  obtain ⟨definitions', hdistinct'⟩ := r'
  obtain rfl : definitions = definitions' := h
  rfl

theorem names_eq_map_declared (r : Registry) : r.names = r.declared.map (·.name) := by
  rw [names, declared, List.map_map]
  rfl

theorem nodup_names_declared (r : Registry) : (r.declared.map (·.name)).Nodup := by
  rw [← names_eq_map_declared]
  exact r.distinct

/-! ## Compiling -/

theorem add_eq_ok_iff {r r' : Registry} {d : Declaration} :
    r.add read d = .ok r' ↔ d.name ∉ r.names ∧
      ∃ m, read d.pattern = some m ∧ r'.definitions = r.definitions ++ [⟨d, m⟩] := by
  by_cases hname : d.name ∈ r.names
  · rw [add, dif_pos hname]
    simp [hname]
  · rw [add, dif_neg hname]
    cases hread : read d.pattern with
    | none => simp
    | some m =>
        constructor
        · intro h
          cases h
          exact ⟨hname, m, rfl, rfl⟩
        · rintro ⟨-, m', hm', hdefinitions⟩
          obtain rfl : m = m' := Option.some.inj hm'
          exact congrArg Except.ok (ext_definitions hdefinitions.symm)

/-- What is compiled behind a registry is put behind its commands. -/
theorem foldlM_add_eq_ok_iff {ds : List Declaration} {r r' : Registry} :
    ds.foldlM (add read) r = .ok r' ↔
      ∃ more, r'.definitions = r.definitions ++ more ∧ more.map (·.toDeclaration) = ds ∧
        ∀ d ∈ more, read d.pattern = some d.matcher := by
  induction ds generalizing r with
  | nil =>
      rw [List.foldlM_nil]
      constructor
      · intro h
        cases h
        exact ⟨[], (List.append_nil _).symm, rfl, by simp⟩
      · rintro ⟨more, hdefinitions, hmore, -⟩
        rw [List.map_eq_nil_iff.mp hmore, List.append_nil] at hdefinitions
        exact congrArg Except.ok (ext_definitions hdefinitions.symm)
  | cons d ds ih =>
      rw [List.foldlM_cons]
      constructor
      · intro h
        cases hadd : r.add read d with
        | error e =>
            rw [hadd] at h
            cases h
        | ok next =>
            rw [hadd] at h
            obtain ⟨-, m, hm, hnext⟩ := add_eq_ok_iff.mp hadd
            obtain ⟨more, hdefinitions, rfl, hread⟩ := ih.mp h
            refine ⟨⟨d, m⟩ :: more, ?_, rfl, List.forall_mem_cons.mpr ⟨hm, hread⟩⟩
            rw [hdefinitions, hnext, List.append_assoc, List.singleton_append]
      · rintro ⟨more, hdefinitions, hmore, hread⟩
        obtain ⟨definition, more, rfl, rfl, rfl⟩ := List.map_eq_cons_iff.mp hmore
        obtain ⟨hm, hread⟩ := List.forall_mem_cons.mp hread
        rw [← List.singleton_append, ← List.append_assoc] at hdefinitions
        have hdistinct : ((r.definitions ++ [definition]).map (·.name)).Nodup := by
          have hall := r'.distinct
          rw [hdefinitions, List.map_append, List.nodup_append] at hall
          exact hall.1
        have hnew : definition.name ∉ r.names := by
          intro hmem
          rw [List.map_append, List.nodup_append] at hdistinct
          exact hdistinct.2.2 _ hmem definition.name (by simp) rfl
        -- The commands up to this one are a registry of their own.
        have hadd : r.add read definition.toDeclaration =
            .ok ⟨r.definitions ++ [definition], hdistinct⟩ :=
          add_eq_ok_iff.mpr ⟨hnew, definition.matcher, hm, rfl⟩
        rw [hadd]
        exact ih.mpr ⟨more, hdefinitions, rfl, hread⟩

/-- A list of declarations compiles to a registry exactly if the registry declares it and is read in
the same way. -/
theorem compileWith_eq_ok_iff {ds : List Declaration} {r : Registry} :
    compileWith read ds = .ok r ↔ r.declared = ds ∧ r.IsReadBy read := by
  rw [compileWith, foldlM_add_eq_ok_iff]
  constructor
  · rintro ⟨more, hdefinitions, hmore, hread⟩
    obtain rfl : r.definitions = more := hdefinitions
    exact ⟨hmore, hread⟩
  · rintro ⟨hdeclared, hread⟩
    exact ⟨r.definitions, rfl, hdeclared, hread⟩

theorem compile_declarations : compile declarations = .ok builtin := by
  cases h : compile declarations with
  | error e => exact absurd compile_declarations_isSome (by simp [h, Except.toOption])
  | ok r => simp [builtin, h, Except.toOption]

theorem declared_builtin : builtin.declared = declarations :=
  (compileWith_eq_ok_iff.mp compile_declarations).1

theorem isReadBy_builtin : builtin.IsReadBy Pattern.matcher? :=
  (compileWith_eq_ok_iff.mp compile_declarations).2

/-! ## What is found first for a line -/

section

variable {r r' : Registry} {text line : String} {d : Definition}

theorem find?_of_firstMatch? {place : Cursor} (h : r.firstMatch? text = some (d, place)) :
    d ∈ r.definitions ∧ d.find? text = some place := by
  obtain ⟨d', hd, hmap⟩ := List.exists_of_findSome?_eq_some h
  obtain ⟨place', hfind, hpair⟩ := Option.map_eq_some_iff.mp hmap
  obtain ⟨rfl, rfl⟩ := Prod.mk.inj hpair
  exact ⟨hd, hfind⟩

theorem firstMatch?_eq_none_iff :
    r.firstMatch? text = none ↔ ∀ d ∈ r.definitions, d.find? text = none := by
  simp [firstMatch?]

/-- A line is recognized by what is found first for it, and by nothing else of the table. -/
theorem recognize_congr
    (h : r'.firstMatch? (Text.trim line) = r.firstMatch? (Text.trim line)) :
    r'.recognize line = r.recognize line := by
  simp only [recognize, h]

/-- The command of a line is the one found first, and the arguments begin where its match ends. -/
theorem recognize_eq_ok_iff_found {a : Arguments} :
    r.recognize line = .ok (d, a) ↔
      ∃ place, r.firstMatch? (Text.trim line) = some (d, place) ∧
        a = d.parseArguments (String.ofList place.rest) := by
  simp only [recognize]
  cases r.firstMatch? (Text.trim line) with
  | none => simp
  | some found =>
      obtain ⟨d', place⟩ := found
      constructor
      · intro h
        cases h
        exact ⟨place, rfl, rfl⟩
      · rintro ⟨place', h, rfl⟩
        cases h
        rfl

/-- A line that no command matches is told back without the blanks around it. -/
theorem recognize_eq_error_iff_unmatched {e : Failure} :
    r.recognize line = .error e ↔
      (∀ d ∈ r.definitions, d.find? (Text.trim line) = none) ∧
        e = .unrecognized (Text.trim line) := by
  rw [← firstMatch?_eq_none_iff]
  simp only [recognize]
  cases r.firstMatch? (Text.trim line) with
  | none => simp [eq_comm]
  | some found => simp

end

/-! ## Commands that change places -/

/-- A list of declarations that compiles still does when its entries change places. -/
theorem exists_compileWith_of_perm {r : Registry} {ds : List Declaration} (h : ds.Perm r.declared)
    (hread : r.IsReadBy read) :
    ∃ r', compileWith read ds = .ok r' ∧ r'.definitions.Perm r.definitions := by
  have hmap : Relation.Comp (fun ds l => ds = l.map fun d : Definition => d.toDeclaration)
      List.Perm ds r.definitions := by
    rw [List.eq_map_comp_perm]
    exact h
  obtain ⟨definitions, hds, hperm⟩ := hmap
  let r' : Registry := ⟨definitions, (hperm.map _).nodup_iff.mpr r.distinct⟩
  have hread' : r'.IsReadBy read := fun d hd => hread d (hperm.mem_iff.mp hd)
  exact ⟨r', compileWith_eq_ok_iff.mpr ⟨hds.symm, hread'⟩, hperm⟩

/-- What is found first in a list does not depend on its order if it is found only once. -/
theorem findSome?_eq_of_perm {α β : Type} {f : α → Option β} {l l' : List α} (h : l.Perm l')
    (honce : ∀ a ∈ l, ∀ a' ∈ l, (f a).isSome → (f a').isSome → a = a') :
    l.findSome? f = l'.findSome? f := by
  have hmem : ∀ {l : List α} {b : β},
      (∀ a ∈ l, ∀ a' ∈ l, (f a).isSome → (f a').isSome → a = a') →
        (l.findSome? f = some b ↔ ∃ a ∈ l, f a = some b) := by
    intro l b honce
    refine ⟨List.exists_of_findSome?_eq_some, ?_⟩
    rintro ⟨a, ha, hb⟩
    cases hfind : l.findSome? f with
    | none => exact absurd (List.findSome?_eq_none_iff.mp hfind a ha) (by simp [hb])
    | some b' =>
        obtain ⟨a', ha', hb'⟩ := List.exists_of_findSome?_eq_some hfind
        obtain rfl := honce a ha a' ha' (by simp [hb]) (by simp [hb'])
        rw [← hb, ← hb']
  apply Option.ext
  intro b
  rw [hmem honce, hmem fun a ha a' ha' => honce a (h.mem_iff.mpr ha) a' (h.mem_iff.mpr ha')]
  simp only [h.mem_iff]

theorem recognize_eq_of_perm {r r' : Registry} (h : r'.definitions.Perm r.definitions)
    {line : String}
    (honce : ∀ d ∈ r.definitions, ∀ d' ∈ r.definitions, (d.find? (Text.trim line)).isSome →
      (d'.find? (Text.trim line)).isSome → d = d') :
    r'.recognize line = r.recognize line := by
  refine recognize_congr (findSome?_eq_of_perm h fun d hd d' hd' hsome hsome' => ?_)
  exact honce d (h.mem_iff.mp hd) d' (h.mem_iff.mp hd') (by simpa using hsome)
    (by simpa using hsome')

end Registry

end HgToGit
