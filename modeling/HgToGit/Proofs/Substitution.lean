/-
# HgToGit.Proofs.Substitution -- wording a message is one substitution from left to right

A text can be divided into literal parts and slots in one way only (`Template.existsUnique_division`):
the first opening brace begins a slot if a closing brace follows it, and if none does it begins what
is never closed.

The wording of a message is told a second time as a process. A `Round` goes on to the next opening
brace of what is left and puts the value of the name in place of the slot; what it has made it never
looks at again. A round makes what is left shorter, so the process comes to an end, and it keeps the
`outcome` of what stands between made and left, so where it ends it has made the wording
(`Template.eq_outcome_of_rounds`).
-/
import HgToGit.Message
import HgToGit.Proofs.TemplateDivision
import Mathlib.Logic.ExistsUnique
import Mathlib.Logic.Relation

namespace HgToGit

namespace Template

/-! ## A text is divided in one way -/

theorem divide_literal_append {before : List Char} (h : opening ∉ before) (literal cs : List Char) :
    divide literal none (before ++ cs) = divide (before.reverse ++ literal) none cs := by
  induction before generalizing literal with
  | nil => rfl
  | cons c before ih =>
      obtain ⟨hc, hbefore⟩ := List.ne_and_not_mem_of_not_mem_cons h
      rw [List.cons_append, divide_literal_cons, if_neg (Ne.symm hc), ih hbefore]
      simp

theorem divide_name_append {part : List Char} (h : closing ∉ part) (literal name cs : List Char) :
    divide literal (some name) (part ++ cs) = divide literal (some (part.reverse ++ name)) cs := by
  induction part generalizing name with
  | nil => rfl
  | cons c part ih =>
      obtain ⟨hc, hpart⟩ := List.ne_and_not_mem_of_not_mem_cons h
      rw [List.cons_append, divide_name_cons, if_neg (Ne.symm hc), ih hpart]
      simp

/-- The first slot of a text is the first of its template. -/
theorem divide_slot {before name : List Char} (hbefore : opening ∉ before) (hname : closing ∉ name)
    (rest : List Char) :
    divide [] none (before ++ written name ++ rest) =
      ⟨(before, name) :: (divide [] none rest).slots, (divide [] none rest).last,
        (divide [] none rest).tail⟩ := by
  have htext : before ++ written name ++ rest = before ++ opening :: (name ++ closing :: rest) := by
    simp [written]
  rw [htext, divide_literal_append hbefore, divide_literal_cons, if_pos rfl,
    divide_name_append hname, divide_name_cons, if_pos rfl]
  simp

theorem divide_unclosed {before rest : List Char} (hbefore : opening ∉ before)
    (hrest : closing ∉ rest) :
    divide [] none (before ++ opening :: rest) = ⟨[], before, opening :: rest⟩ := by
  have hend := divide_name_append hrest before.reverse [] []
  rw [divide_literal_append hbefore, divide_literal_cons, if_pos rfl, List.append_nil,
    ← List.append_nil rest, hend]
  simp [divide]

theorem divide_literal {text : List Char} (h : opening ∉ text) :
    divide [] none text = ⟨[], text, []⟩ := by
  have hend := divide_literal_append h [] []
  rw [List.append_nil, List.append_nil] at hend
  rw [hend]
  simp [divide]

/-- A template whose parts have their form is the division of its text. -/
theorem divide_text {t : Template} (h : t.WellFormed) : divide [] none t.text = t := by
  obtain ⟨slots, last, tail⟩ := t
  obtain ⟨hslots, hlast, htail, hclosing⟩ := h
  -- By induction on the slots: the first one is found first, and the rest is a template again.
  induction slots with
  | nil =>
      cases tail with
      | nil => simpa [text] using divide_literal hlast
      | cons c rest =>
          obtain rfl : c = opening := by simpa using htail
          simpa [text] using divide_unclosed hlast fun hrest =>
            hclosing (List.mem_cons_of_mem _ hrest)
  | cons slot slots ih =>
      obtain ⟨hbefore, hname⟩ := hslots slot List.mem_cons_self
      have hlater : divide [] none (text ⟨slots, last, tail⟩) = ⟨slots, last, tail⟩ :=
        ih (fun slot hslot => hslots slot (List.mem_cons_of_mem _ hslot)) hlast htail hclosing
      have htext : text ⟨slot :: slots, last, tail⟩ =
          slot.1 ++ written slot.2 ++ text ⟨slots, last, tail⟩ := by
        simp [text]
      rw [htext, divide_slot hbefore hname, hlater]

theorem ofText_eq_of_text_eq {t : Template} {s : String} (h : t.WellFormed)
    (htext : t.text = s.toList) : ofText s = t := by
  rw [ofText, ← htext, divide_text h]

/-- **A text is divided in one way.** -/
theorem existsUnique_division (s : String) : ∃! t : Template, t.WellFormed ∧ t.text = s.toList :=
  ⟨ofText s, ⟨wellFormed_ofText s, text_ofText s⟩,
    fun _ ⟨h, htext⟩ => (ofText_eq_of_text_eq h htext).symm⟩

/-! ## The substitution in rounds -/

/-- A substitution on its way. -/
structure Progress where
  /-- What has been made. -/
  made : List Char
  /-- What is left of the template. -/
  left : List Char

/-- A round goes on to the next opening brace of what is left. -/
inductive Round (params : TextMap String) : Progress → Progress → Prop where
  /-- A closing brace follows. The slot is gone, and what stands for it has been made. -/
  | slot (made before name rest : List Char) : opening ∉ before → closing ∉ name →
      Round params ⟨made, before ++ written name ++ rest⟩ ⟨made ++ before ++ value params name, rest⟩
  /-- No closing brace follows. All that is left is copied. -/
  | unclosed (made before rest : List Char) : opening ∉ before → closing ∉ rest →
      Round params ⟨made, before ++ opening :: rest⟩ ⟨made ++ (before ++ opening :: rest), []⟩

/-- The text of a template with its slots filled, as `fill` has it. -/
def filled (t : Template) (params : TextMap String) : List Char :=
  t.slots.flatMap (fun slot => slot.1 ++ value params slot.2) ++ t.last ++ t.tail

/-- A template in which no name has a value is filled with itself. -/
theorem filled_eq_text {t : Template} {params : TextMap String}
    (h : ∀ name ∈ t.names, params.get? name = none) : t.filled params = t.text := by
  have hvalue : ∀ slot ∈ t.slots, value params slot.2 = written slot.2 := by
    intro slot hslot
    rw [value, h (String.ofList slot.2) (List.mem_map_of_mem hslot)]
  rw [filled, text, List.flatMap_def, List.flatMap_def,
    List.map_congr_left fun slot hslot => congrArg (slot.1 ++ ·) (hvalue slot hslot)]

variable {params : TextMap String} {p q : Progress}

/-- What a substitution on its way comes to. -/
def Progress.outcome (params : TextMap String) (p : Progress) : List Char :=
  p.made ++ (divide [] none p.left).filled params

theorem Round.length_left_lt (h : Round params p q) : q.left.length < p.left.length := by
  cases h with
  | slot made before name rest =>
      simp only [written, List.length_append, List.length_cons]
      omega
  | unclosed made before rest =>
      simp only [List.length_append, List.length_cons, List.length_nil]
      omega

/-- There is no end to rounds but where no opening brace is left. -/
theorem exists_round_of_mem (h : opening ∈ p.left) : ∃ q, Round params p q := by
  obtain ⟨made, left⟩ := p
  obtain ⟨before, after, rfl, hbefore⟩ := List.eq_append_cons_of_mem h
  by_cases hclosing : closing ∈ after
  · obtain ⟨name, rest, rfl, hname⟩ := List.eq_append_cons_of_mem hclosing
    have htext : before ++ opening :: (name ++ closing :: rest) = before ++ written name ++ rest := by
      simp [written]
    rw [htext]
    exact ⟨_, .slot made before name rest hbefore hname⟩
  · exact ⟨_, .unclosed made before after hbefore hclosing⟩

/-- A round changes nothing about what the substitution comes to. -/
theorem Round.outcome_eq (h : Round params p q) : q.outcome params = p.outcome params := by
  cases h with
  | slot made before name rest hbefore hname =>
      rw [Progress.outcome, Progress.outcome, divide_slot hbefore hname]
      simp [filled]
  | unclosed made before rest hbefore hrest =>
      simp [Progress.outcome, divide_unclosed hbefore hrest, filled, divide]

theorem outcome_eq_of_rounds (h : Relation.ReflTransGen (Round params) p q) :
    q.outcome params = p.outcome params := by
  induction h with
  | refl => rfl
  | tail _ hround ih => rw [hround.outcome_eq, ih]

/-- Where rounds have ended, the substitution has come to what was made and is left. -/
theorem eq_outcome_of_rounds (h : Relation.ReflTransGen (Round params) p q)
    (hend : opening ∉ q.left) : q.made ++ q.left = p.outcome params := by
  rw [← outcome_eq_of_rounds h, Progress.outcome, divide_literal hend]
  simp [filled]

/-- Rounds do not go on for ever. -/
theorem wellFounded_round (params : TextMap String) :
    WellFounded fun later earlier => Round params earlier later :=
  Subrelation.wf (fun h => h.length_left_lt) (measure fun p : Progress => p.left.length).wf

/-- From everywhere rounds lead to an end. -/
theorem exists_rounds (params : TextMap String) (p : Progress) :
    ∃ q, Relation.ReflTransGen (Round params) p q ∧ opening ∉ q.left := by
  induction p using (wellFounded_round params).induction with
  | _ p ih =>
      by_cases hleft : opening ∈ p.left
      · obtain ⟨next, hround⟩ := exists_round_of_mem hleft
        obtain ⟨q, hrounds, hend⟩ := ih next hround
        exact ⟨q, .head hround hrounds, hend⟩
      · exact ⟨p, .refl, hleft⟩

end Template

/-! ## The wording of a message -/

namespace Catalog

open Template (Progress Round closing opening written)

theorem toList_render_of_template {catalog : Catalog} {m : Message} {s : String}
    (h : catalog.template? m.key = some s) :
    (catalog.render m).toList = (Template.ofText s).filled m.params := by
  simp only [render, h, Template.fill, String.toList_ofList]
  rfl

/-- **Wording a message is one substitution from left to right.** Every text is in one way literal
parts without an opening brace, slots with names without a closing one, and at the end an opening
brace that is never closed, if there is one. A message whose key has the text in a catalog is worded
by the literal parts as they are, with the value of each name in place of its slot, or the slot if the
name has no value; so a text that has a value for no name is the wording itself. The substitution can
be made in rounds, each of which looks only at what is left: they do not go on for ever, and wherever
they end they have made the wording. -/
theorem render_substitutes (s : String) :
    (∃! t : Template, t.WellFormed ∧ t.text = s.toList) ∧
    ∀ (catalog : Catalog) (m : Message), catalog.template? m.key = some s →
      (∀ t : Template, t.WellFormed → t.text = s.toList →
        (catalog.render m).toList =
            t.slots.flatMap (fun slot => slot.1 ++
              ((m.params.get? (String.ofList slot.2)).map String.toList).getD (written slot.2)) ++
            t.last ++ t.tail ∧
          ((∀ name ∈ t.names, m.params.get? name = none) → catalog.render m = s)) ∧
      WellFounded (fun later earlier => Round m.params earlier later) ∧
      (∃ last, Relation.ReflTransGen (Round m.params) ⟨[], s.toList⟩ last ∧ opening ∉ last.left) ∧
      ∀ last, Relation.ReflTransGen (Round m.params) ⟨[], s.toList⟩ last → opening ∉ last.left →
        last.made ++ last.left = (catalog.render m).toList := by
  refine ⟨Template.existsUnique_division s, fun catalog m htemplate => ?_⟩
  have hrender := toList_render_of_template htemplate
  refine ⟨?_, Template.wellFounded_round m.params, Template.exists_rounds m.params _, ?_⟩
  · intro t hwf htext
    obtain rfl := Template.ofText_eq_of_text_eq hwf htext
    refine ⟨?_, ?_⟩
    · have hvalue : Template.value m.params = fun name =>
          ((m.params.get? (String.ofList name)).map String.toList).getD (written name) := by
        funext name
        rw [Template.value]
        cases m.params.get? (String.ofList name) <;> rfl
      rw [hrender, Template.filled, hvalue]
    · intro hnone
      rw [← String.toList_inj, hrender, Template.filled_eq_text hnone, htext]
  · intro last hrounds hend
    rw [Template.eq_outcome_of_rounds hrounds hend, hrender]
    rfl

/-- Stray and nested braces are text, the empty name is a name, a value made of slots is not filled,
and what is never closed stays. -/
theorem render_substitutes_braces :
    let s := "\x7da\x7b\x7bx\x7d\x7b\x7d\x7by\x7db\x7bz"
    let t : Template :=
      ⟨[(['\x7d', 'a'], ['\x7b', 'x']), ([], []), ([], ['y'])], ['b'], ['\x7b', 'z']⟩
    let catalog := overriding fun _ => some s
    let m : Message := ⟨.engineFailure, .ofList [("x", "never"), ("", "\x7d\x7b"), ("y", "\x7by\x7d")]⟩
    catalog.template? m.key = some s ∧ t.WellFormed ∧ t.text = s.toList ∧
      catalog.render m = "\x7da\x7b\x7bx\x7d" ++ "\x7d\x7b" ++ "\x7by\x7d" ++ "b\x7bz" := by
  intro s t catalog m
  have hwf : t.WellFormed := by
    refine ⟨?_, ?_, ?_, ?_⟩ <;> decide
  have htext : t.text = s.toList := by decide
  obtain ⟨hrender, -⟩ := ((render_substitutes s).2 catalog m rfl).1 t hwf htext
  refine ⟨rfl, hwf, htext, ?_⟩
  rw [← String.toList_inj, hrender]
  decide +kernel

end Catalog

end HgToGit
