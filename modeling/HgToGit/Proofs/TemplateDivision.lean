/-
# HgToGit.Proofs.TemplateDivision -- a template divided at its slots, and filled

The division of a text goes through it once and carries what it has read of the current part. The
parts together are the text (`Template.text_ofText`), and they are what the form of a template asks
for: no opening brace in a literal part, no closing one in a name (`Template.wellFormed_ofText`).

Filling puts the value of each name in place of its slot. If every name has a value, the slots are
gone and the literal parts alternate with the values (`Template.exists_fill_eq_filledWith`),
whatever braces the values hold.
-/
import HgToGit.Message.Template

namespace HgToGit.Template

/-! ## The division of a text -/

theorem divide_literal_cons (literal : List Char) (c : Char) (cs : List Char) :
    divide literal none (c :: cs) =
      if c = opening then divide literal (some []) cs else divide (c :: literal) none cs := rfl

theorem divide_name_cons (literal name : List Char) (c : Char) (cs : List Char) :
    divide literal (some name) (c :: cs) =
      if c = closing then
        ⟨(literal.reverse, name.reverse) :: (divide [] none cs).slots, (divide [] none cs).last,
          (divide [] none cs).tail⟩
      else divide literal (some (c :: name)) cs := rfl

/-- What has been read of a slot, as it is written. -/
def opened (name : Option (List Char)) : List Char :=
  name.elim [] fun reversed => opening :: reversed.reverse

theorem text_divide (literal : List Char) (name : Option (List Char)) (cs : List Char) :
    (divide literal name cs).text = literal.reverse ++ opened name ++ cs := by
  induction cs generalizing literal name with
  | nil => cases name <;> simp [divide, text, opened]
  | cons c cs ih =>
      cases name with
      | none =>
          rw [divide_literal_cons]
          split
          · rename_i hc
            rw [ih, hc]
            simp [opened]
          · rw [ih]
            simp [opened]
      | some name =>
          rw [divide_name_cons]
          split
          · rename_i hc
            have hlater : (divide [] none cs).text = cs := by
              rw [ih]
              simp [opened]
            rw [text] at hlater ⊢
            rw [List.flatMap_cons, List.append_assoc, List.append_assoc, ← List.append_assoc _ _
              (divide [] none cs).tail, hlater, hc]
            simp [opened, written]
          · rw [ih]
            simp [opened]

/-- A text is made of the parts into which it is divided. -/
theorem text_ofText (s : String) : (ofText s).text = s.toList := by
  rw [ofText, text_divide]
  rfl

theorem wellFormed_divide {literal : List Char} {name : Option (List Char)} {cs : List Char}
    (hliteral : opening ∉ literal) (hname : ∀ reversed ∈ name, closing ∉ reversed) :
    (divide literal name cs).WellFormed := by
  induction cs generalizing literal name with
  | nil =>
      cases name with
      | none => simp [divide, WellFormed, hliteral]
      | some name =>
          have hclosing : closing ≠ opening := by decide
          simp [divide, WellFormed, hliteral, hname name rfl, hclosing]
  | cons c cs ih =>
      cases name with
      | none =>
          rw [divide_literal_cons]
          split
          · exact ih hliteral (by simp)
          · rename_i hc
            exact ih (by simp [hliteral, Ne.symm hc]) (by simp)
      | some name =>
          rw [divide_name_cons]
          split
          · obtain ⟨hslots, hlast, htail⟩ : (divide [] none cs).WellFormed := ih (by simp) (by simp)
            refine ⟨?_, hlast, htail⟩
            intro slot hslot
            rcases List.mem_cons.mp hslot with rfl | hslot
            · simp [hliteral, hname name rfl]
            · exact hslots slot hslot
          · rename_i hc
            refine ih hliteral fun reversed hreversed => ?_
            obtain rfl : c :: name = reversed := Option.some.inj hreversed
            simp [hname name rfl, Ne.symm hc]

theorem wellFormed_ofText (s : String) : (ofText s).WellFormed :=
  wellFormed_divide (by simp) (by simp)

/-! ## Filled templates -/

/-- The text of a template with values in place of its slots, one after the other. -/
def filledWith (t : Template) (values : List String) : String :=
  String.ofList ((List.zipWith (fun slot value => slot.1 ++ value.toList) t.slots values).flatten ++
    t.last ++ t.tail)

/-- If all names have values, filling puts the values in place of the slots. -/
theorem exists_fill_eq_filledWith {t : Template} {params : TextMap String}
    (h : ∀ name ∈ t.names, (params.get? name).isSome) :
    ∃ values, t.names.map params.get? = values.map some ∧ t.fill params = t.filledWith values := by
  refine ⟨t.names.map fun name => (params.get? name).getD "", ?_, ?_⟩
  · rw [List.map_map]
    refine List.map_congr_left fun name hname => ?_
    obtain ⟨value, hvalue⟩ := Option.isSome_iff_exists.mp (h name hname)
    simp [hvalue]
  · have hslot : ∀ slot ∈ t.slots, value params slot.2 =
        ((params.get? (String.ofList slot.2)).getD "").toList := by
      intro slot hslot
      obtain ⟨text, htext⟩ := Option.isSome_iff_exists.mp
        (h (String.ofList slot.2) (List.mem_map_of_mem hslot))
      rw [value, htext, Option.getD_some]
    rw [fill, filledWith, names, List.map_map, List.zipWith_map_right, List.zipWith_self,
      List.flatMap_def,
      List.map_congr_left fun slot hmem => congrArg (slot.1 ++ ·) (hslot slot hmem)]
    rfl

end HgToGit.Template
