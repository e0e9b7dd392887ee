/-
# HgToGit.Proofs.Overrides -- what becomes of the texts in the settings

The table of texts is gone through three times: for a name that no message has, for blank texts,
and for the texts that replace the English ones. The three agree on what a name means and on what
is blank, so no text is lost: either the settings are refused, with the first name that no message
has, or each text is in force or remarked on, and not both (`Settings.load_accounts_for_texts`).

The names in a table strictly increase (`TextMap.keys_pairwise`), from which follow that the name
in a refusal is the least one, that a blank text is remarked on once, and the order of remarks. A
remark quotes its name, and no name of a message has a mark of quotation in it, so a remark is
about one message only (`Settings.quotes_blankRemark_iff`).
-/
import HgToGit.Proofs.ByteOrder
import HgToGit.Proofs.TemplateDivision
import HgToGit.Settings.Source

namespace HgToGit

open HgToGit.Text (bytes bytes_lt_iff isBlank isBlankText)

/-! ## Names of messages -/

namespace MessageKey

theorem ofText?_eq_none_iff {name : String} :
    ofText? name = none ↔ ∀ key : MessageKey, key.text ≠ name := by
  simp [ofText?, mem_all]

theorem text_injective : Function.Injective text := by
  intro key key' h
  have hsome := ofText?_text key
  rw [h, ofText?_text key'] at hsome
  exact (Option.some.inj hsome).symm

theorem apostrophe_notMem_text (key : MessageKey) :
    Settings.Quoted.apostrophe ∉ key.text.toList := by
  cases key <;> decide

end MessageKey

/-! ## Texts without parameters -/

/-- Without parameters every slot stays as it is written. -/
theorem Template.fill_empty (t : Template) : t.fill .empty = String.ofList t.text := rfl

theorem Catalog.render_plain {catalog : Catalog} {key : MessageKey} {text : String}
    (h : catalog.template? key = some text) : catalog.render (.plain key) = text := by
  have hrender : catalog.render (.plain key) = (Template.ofText text).fill .empty := by
    simp only [render, Message.plain, h]
  rw [hrender, Template.fill_empty, Template.text_ofText, String.ofList_toList]

/-- A message is worded by the template of its key alone. -/
theorem Catalog.render_congr {catalog catalog' : Catalog} {m : Message}
    (h : catalog.template? m.key = catalog'.template? m.key) :
    catalog.render m = catalog'.render m := by
  rw [render, render, h]

/-! ## Names in order -/

theorem TextMap.keys_pairwise {α : Type} (m : TextMap α) : m.keys.Pairwise (· < ·) :=
  List.pairwise_map.mpr m.sorted

namespace Settings

variable {s : Settings} {name : String}

/-! ## Names that no message has -/

/-- The name is in the table of texts, and no message has it. -/
def IsUnknown (s : Settings) (name : String) : Prop :=
  name ∈ s.texts.keys ∧ ∀ key : MessageKey, key.text ≠ name

/-- The name is the first that no message has, in the order of bytes. -/
def IsFirstUnknown (s : Settings) (name : String) : Prop :=
  s.IsUnknown name ∧ ∀ other, s.IsUnknown other → other ≠ name → bytes name < bytes other

theorem unknownName?_eq_none_iff : s.unknownName? = none ↔ ∀ name, ¬ s.IsUnknown name := by
  simp only [unknownName?, IsUnknown, List.find?_eq_none, Option.isNone_iff_eq_none,
    MessageKey.ofText?_eq_none_iff, not_and]

theorem isFirstUnknown_of_unknownName? (h : s.unknownName? = some name) :
    s.IsFirstUnknown name := by
  obtain ⟨hname, before, after, hkeys, hbefore⟩ := List.find?_eq_some_iff_append.mp h
  rw [Option.isNone_iff_eq_none, MessageKey.ofText?_eq_none_iff] at hname
  refine ⟨⟨by simp [hkeys], hname⟩, ?_⟩
  rintro other ⟨hmem, hother⟩ hne
  have hsorted := s.texts.keys_pairwise
  rw [hkeys] at hmem hsorted
  rcases List.mem_append.mp hmem with hmem | hmem
  · have hknown := hbefore other hmem
    rw [Option.isNone_iff_eq_none.mpr (MessageKey.ofText?_eq_none_iff.mpr hother)] at hknown
    cases hknown
  · have hafter : other ∈ after := (List.mem_cons.mp hmem).resolve_left hne
    exact bytes_lt_iff.mpr
      ((List.pairwise_cons.mp (List.pairwise_append.mp hsorted).2.1).1 other hafter)

/-! ## Blank texts -/

theorem mem_blankNames_iff :
    name ∈ s.blankNames ↔ ∃ text, s.texts.get? name = some text ∧ isBlankText text = true := by
  simp [blankNames, TextMap.get?_eq_some_iff]

theorem blankNames_pairwise : s.blankNames.Pairwise (· < ·) :=
  List.pairwise_map.mpr (s.texts.sorted.filter _)

/-! ## Remarks -/

/-- The remark quotes the name. -/
def Remark.Quotes (remark : Remark) (name : String) : Prop :=
  Quoted.apostrophe :: name.toList ++ [Quoted.apostrophe] <:+: remark.message.toList

instance (remark : Remark) (name : String) : Decidable (remark.Quotes name) :=
  inferInstanceAs (Decidable (_ <:+: _))

theorem toList_message_blankRemark (path name : String) :
    (blankRemark path name).message.toList =
      "message override for ".toList ++ Quoted.apostrophe ::
        (name.toList ++ Quoted.apostrophe :: " is empty; using the built-in text".toList) := by
  have hopen : "message override for '".toList =
      "message override for ".toList ++ [Quoted.apostrophe] := by decide +kernel
  have hclose : "' is empty; using the built-in text".toList =
      Quoted.apostrophe :: " is empty; using the built-in text".toList := by decide +kernel
  have hmessage : (blankRemark path name).message =
      "message override for '" ++ name ++ "' is empty; using the built-in text" := rfl
  rw [hmessage, String.toList_append, String.toList_append, hopen, hclose, List.append_assoc,
    List.append_assoc, List.singleton_append]

/-- Two texts that are the same have the same in front of their first mark and after it. -/
theorem eq_of_append_mark {mark : Char} {a b c d : List Char} (ha : mark ∉ a) (hc : mark ∉ c)
    (h : a ++ mark :: b = c ++ mark :: d) : a = c ∧ b = d := by
  induction a generalizing c with
  | nil =>
      cases c with
      | nil => exact ⟨rfl, (List.cons.inj h).2⟩
      | cons x c => exact absurd (List.cons.inj h).1 fun heq => hc (heq ▸ List.mem_cons_self)
  | cons x a ih =>
      cases c with
      | nil => exact absurd (List.cons.inj h).1 fun heq => ha (heq ▸ List.mem_cons_self)
      | cons y c =>
          obtain ⟨rfl, htail⟩ : x = y ∧ a ++ mark :: b = c ++ mark :: d := List.cons.inj h
          obtain ⟨rfl, rfl⟩ := ih (List.not_mem_of_not_mem_cons ha)
            (List.not_mem_of_not_mem_cons hc) htail
          exact ⟨rfl, rfl⟩

/-- A remark on a blank text quotes the name of the text and nothing else. -/
theorem quotes_blankRemark_iff {path name other : String}
    (hname : Quoted.apostrophe ∉ name.toList) :
    (blankRemark path name).Quotes other ↔ name = other := by
  rw [Remark.Quotes, toList_message_blankRemark]
  have hbefore : Quoted.apostrophe ∉ "message override for ".toList := by decide +kernel
  have hafter : Quoted.apostrophe ∉ " is empty; using the built-in text".toList := by
    decide +kernel
  generalize "message override for ".toList = before at hbefore ⊢
  generalize " is empty; using the built-in text".toList = after at hafter ⊢
  constructor
  · rintro ⟨front, rest, h⟩
    -- The message has two marks, so there is none in front of the quoted name or in it.
    have hcount := congrArg (List.count Quoted.apostrophe) h
    simp only [List.count_append, List.count_cons_self, List.count_nil,
      List.count_eq_zero.mpr hbefore, List.count_eq_zero.mpr hname,
      List.count_eq_zero.mpr hafter] at hcount
    have hfront : Quoted.apostrophe ∉ front := List.count_eq_zero.mp (by omega)
    have hother : Quoted.apostrophe ∉ other.toList := List.count_eq_zero.mp (by omega)
    have hparts : front ++ Quoted.apostrophe :: (other.toList ++ Quoted.apostrophe :: rest) =
        before ++ Quoted.apostrophe :: (name.toList ++ Quoted.apostrophe :: after) := by
      simpa using h
    exact String.toList_injective
      (eq_of_append_mark hother hname (eq_of_append_mark hfront hbefore hparts).2).1.symm
  · rintro rfl
    exact ⟨before, after, by simp⟩

/-- Each name that is remarked on is quoted once. -/
theorem countP_quotes {names : List String} (path : String) (hnodup : names.Nodup)
    (hnames : ∀ name ∈ names, Quoted.apostrophe ∉ name.toList) (name : String) :
    (names.map (blankRemark path)).countP (·.Quotes name) = if name ∈ names then 1 else 0 := by
  have hquotes : ∀ other ∈ names,
      (decide ((blankRemark path other).Quotes name) = true ↔ (other == name) = true) := by
    intro other hother
    rw [decide_eq_true_iff, beq_iff_eq, quotes_blankRemark_iff (hnames other hother)]
  calc (names.map (blankRemark path)).countP (·.Quotes name)
      = names.countP (fun other => (blankRemark path other).Quotes name) := List.countP_map
    _ = names.count name := List.countP_congr hquotes
    _ = if name ∈ names then 1 else 0 := hnodup.count

/-! ## Loading -/

variable {files : String → FileEntry} {env : Environment} {given : Option String}
  {path text : String}

/-- The texts of a table are accounted for: the settings and the remarks say what becomes of each
message. -/
structure Loaded.AccountsFor (loaded : Loaded) (s : Settings) (path : String) : Prop where
  /-- The settings are those of the document. -/
  settings : loaded.settings = s
  /-- They come from the document. -/
  source : loaded.source = some path
  /-- Every name in the table is the name of one message. -/
  known : ∀ name ∈ s.texts.keys, ∃! key : MessageKey, key.text = name
  /-- A blank text is remarked on once, and its message is worded as in English. -/
  blank : ∀ (key : MessageKey) (text : String), s.texts.get? key.text = some text →
    (∀ c ∈ text.toList, isBlank c = true) →
    loaded.remarks.countP (·.Quotes key.text) = 1 ∧
      ∀ m : Message, m.key = key → loaded.settings.catalog.render m = Catalog.english.render m
  /-- Any other text is not remarked on. It is the template of its message, and it is what is said
  if there are no parameters. -/
  used : ∀ (key : MessageKey) (text : String), s.texts.get? key.text = some text →
    ¬ (∀ c ∈ text.toList, isBlank c = true) →
    loaded.remarks.countP (·.Quotes key.text) = 0 ∧
      loaded.settings.catalog.template? key = some text ∧
      loaded.settings.catalog.render (.plain key) = text
  /-- A message without a text is not remarked on and worded as in English. -/
  absent : ∀ key : MessageKey, s.texts.get? key.text = none →
    loaded.remarks.countP (·.Quotes key.text) = 0 ∧
      ∀ m : Message, m.key = key → loaded.settings.catalog.render m = Catalog.english.render m
  /-- The remarks are on names in the order of their bytes, and each has the path of the
  document. -/
  ordered : ∃ names : List String, loaded.remarks = names.map (blankRemark path) ∧
    names.Pairwise fun a b => bytes a < bytes b

theorem template?_catalog (s : Settings) (key : MessageKey) :
    s.catalog.template? key = (s.override? key).or (Catalog.english.template? key) :=
  Option.orElse_eq_or

/-- A message that no text replaces is worded as in English. -/
theorem render_catalog_of_override?_eq_none {m : Message} (h : s.override? m.key = none) :
    s.catalog.render m = Catalog.english.render m :=
  Catalog.render_congr (by rw [template?_catalog, h, Option.none_or])

section Known

variable (hknown : ∀ name, ¬ s.IsUnknown name)

include hknown

theorem existsUnique_key_of_mem_keys (h : name ∈ s.texts.keys) :
    ∃! key : MessageKey, key.text = name := by
  have hsome : ∃ key : MessageKey, key.text = name := by
    by_contra hnone
    exact hknown name ⟨h, not_exists.mp hnone⟩
  obtain ⟨key, hkey⟩ := hsome
  exact ⟨key, hkey, fun key' hkey' => MessageKey.text_injective (hkey'.trans hkey.symm)⟩

theorem countP_remarks (path name : String) :
    (s.blankNames.map (blankRemark path)).countP (·.Quotes name) =
      if name ∈ s.blankNames then 1 else 0 := by
  refine countP_quotes path (blankNames_pairwise.imp fun hlt heq => ?_) (fun other hother => ?_) name
  · exact String.lt_irrefl _ (heq ▸ hlt)
  · obtain ⟨text, htext, -⟩ := mem_blankNames_iff.mp hother
    obtain ⟨key, rfl, -⟩ := existsUnique_key_of_mem_keys hknown
      (TextMap.mem_keys_iff.mpr (Option.isSome_of_eq_some htext))
    exact key.apostrophe_notMem_text

/-- If no name is unknown, the settings account for the texts. -/
theorem accountsFor_of_known (path : String) :
    Loaded.AccountsFor ⟨s, some path, s.blankNames.map (blankRemark path)⟩ s path where
  settings := rfl
  source := rfl
  known _ h := existsUnique_key_of_mem_keys hknown h
  blank key text htext hblank := by
    have hisBlank : isBlankText text = true := List.all_eq_true.mpr hblank
    have hnone : s.override? key = none := by simp [override?, htext, hisBlank]
    refine ⟨?_, fun m hm => render_catalog_of_override?_eq_none (hm ▸ hnone)⟩
    rw [countP_remarks hknown, if_pos (mem_blankNames_iff.mpr ⟨text, htext, hisBlank⟩)]
  used key text htext hblank := by
    have hisBlank : isBlankText text = false :=
      Bool.eq_false_iff.mpr fun h => hblank (List.all_eq_true.mp h)
    have hsome : s.override? key = some text := by simp [override?, htext, hisBlank]
    have htemplate : s.catalog.template? key = some text := by
      rw [template?_catalog, hsome, Option.some_or]
    refine ⟨?_, htemplate, Catalog.render_plain htemplate⟩
    rw [countP_remarks hknown, if_neg (by simp [mem_blankNames_iff, htext, hisBlank])]
  absent key htext := by
    have hnone : s.override? key = none := by simp [override?, htext]
    refine ⟨?_, fun m hm => render_catalog_of_override?_eq_none (hm ▸ hnone)⟩
    rw [countP_remarks hknown, if_neg (by simp [mem_blankNames_iff, htext])]
  ordered := ⟨s.blankNames, rfl, blankNames_pairwise.imp bytes_lt_iff.mpr⟩

end Known

theorem ofText_eq_error (hdocument : ofDocument? text = some s)
    (hunknown : s.unknownName? = some name) :
    ofText path text = .error (.unknownMessage name) := by
  simp only [ofText, hdocument, hunknown]

theorem ofText_eq_ok (hdocument : ofDocument? text = some s) (hunknown : s.unknownName? = none) :
    ofText path text = .ok ⟨s, some path, s.blankNames.map (blankRemark path)⟩ := by
  simp only [ofText, hdocument, hunknown]

theorem load_eq_ofText (hplace : place? files env given = some path)
    (hread : (files path).read = .ok text) : load files env given = ofText path text := by
  simp only [load, hplace, loadFrom, hread]

/-- **Every text in the settings is in force or remarked on, and not both.** A document that can be
read is refused exactly if its table has a name that no message has, and then the first such name
is named. Otherwise the texts are accounted for. -/
theorem load_accounts_for_texts (hplace : place? files env given = some path)
    (hread : (files path).read = .ok text) (hdocument : ofDocument? text = some s) :
    ((∃ e, load files env given = .error e) ↔ ∃ name, s.IsUnknown name) ∧
      (∀ e, load files env given = .error e →
        ∃ name, e = .unknownMessage name ∧ s.IsFirstUnknown name) ∧
      ∀ loaded, load files env given = .ok loaded → loaded.AccountsFor s path := by
  rw [load_eq_ofText hplace hread]
  cases hunknown : s.unknownName? with
  | some name =>
      have hfirst := isFirstUnknown_of_unknownName? hunknown
      rw [ofText_eq_error hdocument hunknown]
      refine ⟨⟨fun _ => ⟨name, hfirst.1⟩, fun _ => ⟨_, rfl⟩⟩, ?_, fun loaded h => nomatch h⟩
      rintro e ⟨⟩
      exact ⟨name, rfl, hfirst⟩
  | none =>
      have hknown := unknownName?_eq_none_iff.mp hunknown
      rw [ofText_eq_ok hdocument hunknown]
      refine ⟨⟨fun ⟨e, h⟩ => (nomatch h), fun ⟨name, h⟩ => absurd h (hknown name)⟩,
        fun e h => (nomatch h), ?_⟩
      rintro loaded ⟨⟩
      exact accountsFor_of_known hknown path

/-- A blank text is remarked on, and a text with a brace that is never closed is in force. -/
theorem load_accounts_for_texts_blank_and_brace :
    let document := "[messages]\nhg-a-option = \" \\u3000\"\nengine-error = \"no \x7buse\"\n"
    let files : String → FileEntry := fun _ => .file document.toUTF8
    let s : Settings :=
      ⟨none, none, some (.ofList [("hg-a-option", " \u3000"), ("engine-error", "no \x7buse")])⟩
    let loaded : Loaded := ⟨s, some "c", [blankRemark "c" "hg-a-option"]⟩
    place? files ⟨none, none, none⟩ (some "c") = some "c" ∧ (files "c").read = .ok document ∧
      ofDocument? document = some s ∧ load files ⟨none, none, none⟩ (some "c") = .ok loaded ∧
      loaded.AccountsFor s "c" := by
  intro document files s loaded
  have hread : (files "c").read = .ok document := by decide +kernel
  have hdocument : ofDocument? document = some s := by decide +kernel
  have hload : load files ⟨none, none, none⟩ (some "c") = .ok loaded := by decide +kernel
  exact ⟨rfl, hread, hdocument, hload,
    (load_accounts_for_texts rfl hread hdocument).2.2 loaded hload⟩

end Settings

end HgToGit
