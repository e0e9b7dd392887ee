/-
# HgToGit.Proofs.FirstPlace -- the settings come from one document

Loading first decides on a path, by looking for what exists, and then reads what is at that path,
whatever comes of it. The two do not mix: the outcome is that of the document alone
(`Settings.outcome_loadFrom`), so a fault in it is never answered by trying another place, and the
path depends on nothing behind the first place at which something exists
(`Settings.place?_eq_some_iff`). That something exists says nothing about reading it: what exists
may fail to be read for any reason (`Settings.load_unreadable`).
-/
import HgToGit.Proofs.Overrides

namespace HgToGit.Settings

/-! ## What comes of a document -/

/-- What comes of the document at a path, by what is found there. -/
inductive Outcome (path : String) (entry : FileEntry) : Except LoadError Loaded → Prop where
  /-- What is found has no text. -/
  | unreadable (fault : ReadFault) : entry.read = .error fault →
      Outcome path entry (.error (.unreadable path fault))
  /-- The text has a mistake in it. -/
  | malformed (text : String) : entry.read = .ok text → ofDocument? text = none →
      Outcome path entry (.error (.malformed path))
  /-- The text words a message that does not exist; the first such is named. -/
  | unknownMessage (text name : String) (s : Settings) : entry.read = .ok text →
      ofDocument? text = some s → s.IsFirstUnknown name →
      Outcome path entry (.error (.unknownMessage name))
  /-- The settings are those of the text, and they come from the path. -/
  | loaded (text : String) (s : Settings) : entry.read = .ok text → ofDocument? text = some s →
      (∀ name, ¬ s.IsUnknown name) →
      Outcome path entry (.ok ⟨s, some path, s.blankNames.map (blankRemark path)⟩)

theorem outcome_loadFrom (files : String → FileEntry) (path : String) :
    Outcome path (files path) (loadFrom files path) := by
  unfold loadFrom
  cases hread : (files path).read with
  | error fault => exact .unreadable fault hread
  | ok text =>
      cases hdocument : ofDocument? text with
      | none =>
          simp only [ofText, hdocument]
          exact .malformed text hread hdocument
      | some s =>
          cases hunknown : s.unknownName? with
          | some name =>
              show Outcome path (files path) (ofText path text)
              rw [ofText_eq_error hdocument hunknown]
              exact .unknownMessage text name s hread hdocument
                (isFirstUnknown_of_unknownName? hunknown)
          | none =>
              show Outcome path (files path) (ofText path text)
              rw [ofText_eq_ok hdocument hunknown]
              exact .loaded text s hread hdocument (unknownName?_eq_none_iff.mp hunknown)

/-- Settings that come from a document name its path. -/
theorem Outcome.source {path : String} {entry : FileEntry} {loaded : Loaded}
    (h : Outcome path entry (.ok loaded)) : loaded.source = some path := by
  cases h
  rfl

theorem loadFrom_congr {files files' : String → FileEntry} {path : String}
    (h : files' path = files path) : loadFrom files' path = loadFrom files path := by
  rw [loadFrom, loadFrom, h]

/-! ## Which document it is -/

/-- The three places that are tried, in order. A place is missing if the environment does not say
where it is. -/
def Environment.candidates (env : Environment) : List (Option String) :=
  [env.document,
    env.configHome.map fun directory => joinPath directory "hgshim/config.toml",
    (env.home.filter (· ≠ "")).map fun directory => joinPath directory ".hgshim/config.toml"]

theorem Environment.places_eq (env : Environment) : env.places = env.candidates.filterMap id := by
  obtain ⟨document, configHome, home⟩ := env
  cases document <;> cases configHome <;> cases home with
    | none => rfl
    | some directory =>
        by_cases h : directory = "" <;> simp [places, candidates, h]

/-- The first place at which something exists, and the candidates in front of it. -/
structure IsFirstPlace (files : String → FileEntry) (env : Environment)
    (before : List (Option String)) (path : String) : Prop where
  /-- The place is a candidate; any others may be behind it. -/
  candidate : ∃ behind, env.candidates = before ++ some path :: behind
  /-- Something exists there. -/
  present : (files path).isPresent = true
  /-- Nothing exists at the candidates in front. -/
  absent : ∀ earlier, some earlier ∈ before → (files earlier).isPresent = false

/-- Nothing exists at any candidate. -/
def NoPlace (files : String → FileEntry) (env : Environment) : Prop :=
  ∀ path, some path ∈ env.candidates → (files path).isPresent = false

variable {files : String → FileEntry} {env : Environment} {path : String}

theorem place?_eq_findSome? (files : String → FileEntry) (env : Environment) :
    place? files env none =
      env.candidates.findSome? (Option.filter fun path => (files path).isPresent) := by
  rw [place?, env.places_eq]
  generalize env.candidates = candidates
  induction candidates with
  | nil => rfl
  | cons candidate candidates ih =>
      rw [List.findSome?_cons, ← ih]
      cases candidate with
      | none => rfl
      | some path =>
          show List.find? _ (path :: candidates.filterMap id) = _
          rw [List.find?_cons, Option.filter_some]
          cases (files path).isPresent <;> rfl

theorem place?_eq_some_iff :
    place? files env none = some path ↔ ∃ before, IsFirstPlace files env before path := by
  rw [place?_eq_findSome?, List.findSome?_eq_some_iff]
  constructor
  · rintro ⟨before, candidate, behind, hcandidates, hpath, hbefore⟩
    obtain ⟨rfl, hpresent⟩ := Option.filter_eq_some_iff.mp hpath
    refine ⟨before, ⟨behind, hcandidates⟩, hpresent, fun earlier hearlier => ?_⟩
    simpa using hbefore _ hearlier
  · rintro ⟨before, ⟨behind, hcandidates⟩, hpresent, habsent⟩
    refine ⟨before, some path, behind, hcandidates, by simp [hpresent], fun candidate hmem => ?_⟩
    cases candidate with
    | none => rfl
    | some earlier => simp [habsent earlier hmem]

theorem place?_eq_none_iff : place? files env none = none ↔ NoPlace files env := by
  rw [place?_eq_findSome?, List.findSome?_eq_none_iff]
  constructor
  · intro h path hpath
    simpa using h _ hpath
  · intro h candidate hmem
    cases candidate with
    | none => rfl
    | some path => simp [h path hmem]

theorem IsFirstPlace.load_eq {before : List (Option String)}
    (h : IsFirstPlace files env before path) : load files env none = loadFrom files path := by
  rw [load, place?_eq_some_iff.mpr ⟨before, h⟩]

/-- Whatever keeps the document at the first place from being read is told, with its path. -/
theorem load_unreadable {before : List (Option String)} (h : IsFirstPlace files env before path)
    {fault : ReadFault} (hread : (files path).read = .error fault) :
    load files env none = .error (.unreadable path fault) := by
  rw [h.load_eq, loadFrom, hread]

/-- Settings that mention nothing have the defaults: text, advisories shown, English. -/
theorem empty_defaults : empty.writesJson = false ∧ empty.showsWarnings = true ∧
    ∀ m : Message, empty.catalog.render m = Catalog.english.render m :=
  ⟨rfl, rfl, fun _ => render_catalog_of_override?_eq_none rfl⟩

/-- **The settings are those of the first place at which something exists, and of no other.** A
given path is read whatever the environment and the other files are. Without one, the first
candidate at which something exists is read, whatever is behind it. What comes of the document
there is the outcome, a fault as well, and settings that are loaded from it name its path. If
nothing exists at any candidate, the settings are the defaults, nothing is remarked and no path is
named. -/
theorem load_from_first_place (files : String → FileEntry) (env : Environment) :
    (∀ path, Outcome path (files path) (load files env (some path)) ∧
      ∀ files' env', files' path = files path →
        load files' env' (some path) = load files env (some path)) ∧
    (∀ before path, IsFirstPlace files env before path →
      Outcome path (files path) (load files env none) ∧
      ∀ files' env', IsFirstPlace files' env' before path → files' path = files path →
        load files' env' none = load files env none) ∧
    (NoPlace files env → load files env none = .ok ⟨empty, none, []⟩ ∧
      empty.writesJson = false ∧ empty.showsWarnings = true ∧
      ∀ m : Message, empty.catalog.render m = Catalog.english.render m) ∧
    (NoPlace files env ∨ ∃ before path, IsFirstPlace files env before path) ∧
    ∀ given path loaded,
      (given = some path ∨ given = none ∧ ∃ before, IsFirstPlace files env before path) →
      load files env given = .ok loaded → loaded.source = some path := by
  refine ⟨fun path => ⟨outcome_loadFrom files path, fun files' env' h => loadFrom_congr h⟩,
    fun before path h => ⟨?_, fun files' env' h' hentry => ?_⟩, fun h => ⟨?_, empty_defaults⟩, ?_,
    fun given path loaded hread hload => ?_⟩
  · rw [h.load_eq]
    exact outcome_loadFrom files path
  · rw [h.load_eq, h'.load_eq, loadFrom_congr hentry]
  · rw [load, place?_eq_none_iff.mpr h]
  · cases hplace : place? files env none with
    | none => exact .inl (place?_eq_none_iff.mp hplace)
    | some path =>
        obtain ⟨before, h⟩ := place?_eq_some_iff.mp hplace
        exact .inr ⟨before, path, h⟩
  · have hpath : load files env given = loadFrom files path := by
      rcases hread with rfl | ⟨rfl, before, h⟩
      · rfl
      · exact h.load_eq
    have houtcome := outcome_loadFrom files path
    rw [← hpath, hload] at houtcome
    exact houtcome.source

/-- With nothing at the first candidate, what is at the second decides: it is told that it cannot be
read, or that it has a mistake in it, and what is at the third does not count. Where nothing exists,
the defaults are taken. -/
theorem load_from_first_place_second :
    let denied : FileEntry := .unreadable true (.other "Permission denied (os error 13)")
    let files (second : FileEntry) : String → FileEntry := fun path =>
      if path = "x/hgshim/config.toml" then second
      else if path = "h/.hgshim/config.toml" then .file "json = true".toUTF8 else .missing
    let env (home : Option String) : Environment := ⟨some "gone.toml", some "x", home⟩
    IsFirstPlace (files denied) (env (some "h")) [some "gone.toml"] "x/hgshim/config.toml" ∧
      load (files denied) (env (some "h")) none =
        .error (.unreadable "x/hgshim/config.toml" (.other "Permission denied (os error 13)")) ∧
      (∀ home, load (files (.file "json = 1".toUTF8)) (env home) none =
        .error (.malformed "x/hgshim/config.toml")) ∧
      NoPlace (files denied) ⟨some "gone.toml", none, some ""⟩ ∧
      load (files denied) ⟨some "gone.toml", none, some ""⟩ none = .ok ⟨empty, none, []⟩ := by
  intro denied files env
  have hfirst (second : FileEntry) (home : Option String) (h : second.isPresent = true) :
      IsFirstPlace (files second) (env home) [some "gone.toml"] "x/hgshim/config.toml" :=
    ⟨⟨_, rfl⟩, h, by simp [files, FileEntry.isPresent]⟩
  have hnone : NoPlace (files denied) ⟨some "gone.toml", none, some ""⟩ :=
    place?_eq_none_iff.mp (by decide +kernel)
  have hmistake : load (files (.file "json = 1".toUTF8)) (env (some "h")) none =
      .error (.malformed "x/hgshim/config.toml") := by
    decide +kernel
  refine ⟨hfirst denied _ rfl, ?_, fun home => ?_, hnone,
    ((load_from_first_place _ _).2.2.1 hnone).1⟩
  · exact load_unreadable (hfirst denied _ rfl) rfl
  · obtain ⟨-, hplaced, -⟩ :=
      load_from_first_place (files (.file "json = 1".toUTF8)) (env (some "h"))
    exact ((hplaced _ _ (hfirst _ _ rfl)).2 _ (env home) (hfirst _ _ rfl) rfl).trans hmistake

end HgToGit.Settings
