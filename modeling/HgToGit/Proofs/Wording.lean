/-
# HgToGit.Proofs.Wording -- every message fits its template

A message names its parameters where it is put together, and a template names its slots in the
catalog. Nothing but the names ties the two: a parameter that no slot asks for would be lost, and a
slot without a parameter would stay in the text. `Message.Fits` says that neither is the case.

All failures fit, whatever they are about (`Failure.fits_message`), and so do the advisories of the
handlers. So the English text of what is said about a line is always its template with a value in
each slot, and a value is not read again, even if it is made of braces.
-/
import HgToGit.Proofs.Accounting
import HgToGit.Proofs.Effect
import HgToGit.Proofs.TemplateDivision

namespace HgToGit

/-! ## Parameters by name -/

namespace TextMap

variable {α : Type}

theorem mem_keys_insert {m : TextMap α} {key key' : String} {value : α} :
    key' ∈ (m.insert key value).keys ↔ key' = key ∨ key' ∈ m.keys := by
  rw [mem_keys_iff, mem_keys_iff, get?_insert]
  by_cases hkey : key = key'
  · simp [hkey]
  · simp [hkey, Ne.symm hkey]

theorem mem_keys_ofList {l : List (String × α)} {key : String} :
    key ∈ (ofList l).keys ↔ key ∈ l.map Prod.fst := by
  -- The entries are filed into a map that may have entries already.
  have hfile : ∀ m : TextMap α, key ∈ (l.foldl (fun m e => m.insert e.1 e.2) m).keys ↔
      key ∈ l.map Prod.fst ∨ key ∈ m.keys := by
    induction l with
    | nil => simp
    | cons e l ih =>
        intro m
        rw [List.foldl_cons, ih, mem_keys_insert, List.map_cons, List.mem_cons, or_left_comm, or_assoc]
  rw [ofList, hfile]
  simp [keys, empty]

end TextMap

/-! ## Messages and their templates -/

namespace MessageKey

/-- The English template of a key, divided at its slots. -/
def template (key : MessageKey) : Template := .ofText (Catalog.englishText key)

/-- What the message of a key is told about, in the order of the English wording. -/
def slotNames : MessageKey → List String
  | commandNotSupported => ["command"]
  | bookmarkExtraNames | graftExtraRevisions => ["ignored"]
  | optionsIncompatible => ["first", "second"]
  | optionRequired => ["option", "command"]
  | tooFewArguments => ["lower", "what"]
  | tooManyArguments => ["upper", "what"]
  | engineFailure => ["message"]
  | addFlagUnneeded | statusMissing | logNeedsFollow | rebaseNeedsDestination
  | generalArgumentsRefused => []

/-- Every English template has the slots of its key, and does not end in a slot that is never
closed. -/
theorem names_template_and_tail (key : MessageKey) :
    key.template.names = key.slotNames ∧ key.template.tail = [] := by
  cases key <;> decide +kernel

end MessageKey

namespace Message

/-- The parameters of a message are named as the slots of its template are. -/
def Fits (m : Message) : Prop := ∀ name, name ∈ m.params.keys ↔ name ∈ m.key.template.names

/-- A text is the template of a message with a value in each slot, and the values are those of the
parameters. -/
def SaidInFull (m : Message) (text : String) : Prop :=
  ∃ values, m.key.template.names.map m.params.get? = values.map some ∧
    text = m.key.template.filledWith values

theorem fits_ofList {key : MessageKey} (params : List (String × String))
    (h : params.map Prod.fst = key.slotNames) : Fits ⟨key, .ofList params⟩ := by
  intro name
  rw [TextMap.mem_keys_ofList, h, key.names_template_and_tail.1]

/-- A message that fits is said in full. -/
theorem Fits.saidInFull {m : Message} (h : m.Fits) : m.SaidInFull (Catalog.english.render m) :=
  Template.exists_fill_eq_filledWith fun name hname =>
    TextMap.mem_keys_iff.mp ((h name).mpr hname)

end Message

/-! ## Failures and advisories -/

/-- The message of a failure fits, whatever the failure is about. -/
theorem Failure.fits_message (e : Failure) : e.message.Fits := by
  cases e with
  | unrecognized line => exact Message.fits_ofList [("command", line)] rfl
  | incompatible first second =>
      exact Message.fits_ofList [("first", first), ("second", second)] rfl
  | optionRequired option command =>
      exact Message.fits_ofList [("option", option), ("command", command)] rfl
  | tooFew lower what =>
      exact Message.fits_ofList [("lower", toString lower), ("what", what)] rfl
  | tooMany upper what =>
      exact Message.fits_ofList [("upper", toString upper), ("what", what)] rfl
  | engineRejected reason =>
      exact Message.fits_ofList [("message", "engine rejected operation: " ++ reason)] rfl
  | statusUnsupported | destinationMissing | followMissing | generalRefused =>
      exact Message.fits_ofList [] rfl

namespace Handler

theorem fits_of_mem_advisories {h : Handler} {adds : Bool} {ignored : List String} {m : Message}
    (hm : m ∈ h.advisories adds ignored) : m.Fits := by
  unfold advisories at hm
  split at hm
  · split at hm
    · rw [List.mem_singleton.mp hm]
      exact Message.fits_ofList [] rfl
    · cases hm
  · rw [List.mem_singleton.mp hm]
    exact Message.fits_ofList [("ignored", _)] rfl
  · rw [List.mem_singleton.mp hm]
    exact Message.fits_ofList [("ignored", _)] rfl
  · cases hm

/-- An operation leaves the line as it was. -/
theorem line_of_direct {h : Handler} {inv line : Invocation} {call : EngineCall}
    (hr : h.resolve inv = .ok (.direct call line)) : line = inv := by
  cases h with
  | rebase =>
      unfold resolve at hr
      obtain ⟨call', -, hdirect⟩ := exists_of_map_eq_ok hr
      cases hdirect
      rfl
  | graft | log | histedit | bookmark => exact absurd hr (map_delegated_ne_direct _ _ _)
  | commit | status | exportCommits | update | backout | pull | summary => cases hr

end Handler

namespace Registry

/-- A line that the engine executes has no advisories. -/
theorem warnings_of_executed {r : Registry} {line : String} {engine : Engine} {c : Conversion}
    (h : (r.convert line engine).1 = .ok c) (hout : c.outcome = .executed) : c.warnings = [] := by
  rw [convert] at h
  cases hrecognize : r.recognize line with
  | error e =>
      rw [hrecognize] at h
      cases h
  | ok found =>
      obtain ⟨d, a⟩ := found
      simp only [hrecognize, Conversion.ofArguments] at h
      cases hresolve : d.handler.resolve (Invocation.ofArguments d.name a) with
      | error e =>
          rw [hresolve] at h
          cases h
      | ok resolution =>
          rw [hresolve] at h
          cases resolution with
          | delegated command line' =>
              cases h
              cases hout
          | direct call line' =>
              obtain ⟨calls, refusal⟩ := engine
              cases refusal with
              | some reason => cases h
              | none =>
                  cases h
                  rw [Handler.line_of_direct hresolve]
                  rfl

theorem fits_of_mem_warnings {r : Registry} {line : String} {engine : Engine} {c : Conversion}
    (h : (r.convert line engine).1 = .ok c) {m : Message} (hm : m ∈ c.warnings) : m.Fits := by
  cases hout : c.outcome with
  | executed =>
      rw [warnings_of_executed h hout] at hm
      cases hm
  | delegated vcs command options general =>
      obtain ⟨d, a, line', -, -, -, hd, -, -, hwarnings⟩ := delegates_of_convert h hout
      rw [← hwarnings, hd.warnings_eq] at hm
      exact Handler.fits_of_mem_advisories hm

end Registry

/-! ## What is said about a line -/

/-- The messages of a result: why the line was refused, or what is to be said about it besides. -/
def Conversion.messages : Except Failure Conversion → List Message
  | .error e => [e.message]
  | .ok c => c.warnings

/-- **Every message fits its template.** Whatever the registry, the line and the engine are, each
message about the line has exactly the parameters that the English template of its key has slots
for. Its English text is the template with these values in place of its slots, and there are no
other slots: the template is made of the literal parts and the slots, and no brace is left open. -/
theorem Registry.messages_fit (r : Registry) (line : String) (engine : Engine) :
    ∀ m ∈ Conversion.messages (r.convert line engine).1,
      m.Fits ∧ m.SaidInFull (Catalog.english.render m) ∧
        m.key.template.text = (Catalog.englishText m.key).toList ∧ m.key.template.WellFormed ∧
        m.key.template.tail = [] := by
  intro m hm
  have hfits : m.Fits := by
    cases hconvert : (r.convert line engine).1 with
    | error e =>
        rw [hconvert] at hm
        rw [List.mem_singleton.mp hm]
        exact e.fits_message
    | ok c =>
        rw [hconvert] at hm
        exact fits_of_mem_warnings hconvert hm
  exact ⟨hfits, hfits.saidInFull, Template.text_ofText _, Template.wellFormed_ofText _,
    m.key.names_template_and_tail.2⟩

/-- An engine that refuses for a reason made of a slot of the very template is quoted as it is. -/
theorem Registry.messages_fit_reason_in_braces :
    let engine : Engine := .fresh (some "\x7bmessage\x7d")
    let m := (Failure.engineRejected "\x7bmessage\x7d").message
    m ∈ Conversion.messages (builtin.convert "hg rebase -d .^" engine).1 ∧ m.Fits ∧
      m.SaidInFull (Catalog.english.render m) ∧
      Catalog.english.render m = "engine rejected operation: \x7bmessage\x7d" := by
  intro engine m
  have hmem : m ∈ Conversion.messages (builtin.convert "hg rebase -d .^" engine).1 := by
    decide +kernel
  obtain ⟨hfits, hsaid, -⟩ := messages_fit builtin "hg rebase -d .^" engine m hmem
  exact ⟨hmem, hfits, hsaid, by decide +kernel⟩

end HgToGit
