/-
# HgToGit.Proofs.MatchPlace -- a match ends at a place of its text

A match ends at a place that has the bytes of some characters in front of it and the other
characters after it. The byte offset of such a place can be used to cut the text: `Text.from?` cuts
only between characters, and there it yields exactly what follows the match
(`Text.from?_of_reaches`).
-/
import HgToGit.Pattern.Remainder

namespace HgToGit

theorem byteLength_eq_utf8ByteSize (cs : List Char) :
    byteLength cs = (String.ofList cs).utf8ByteSize := by
  induction cs with
  | nil => simp [byteLength]
  | cons c cs ih =>
      rw [byteLength, ih, String.ofList_cons, String.utf8ByteSize_append,
        String.utf8ByteSize_singleton]

namespace Text

/-- The text from a byte offset on. There is none if the offset lies past the end of the text or
inside a character. -/
def from? (text : String) (offset : Nat) : Option String :=
  if h : (⟨offset⟩ : String.Pos.Raw).IsValid text then
    some (text.sliceFrom (text.pos ⟨offset⟩ h)).copy
  else none

theorem from?_append (front rest : String) :
    from? (front ++ rest) front.utf8ByteSize = some rest := by
  have hvalid : (⟨front.utf8ByteSize⟩ : String.Pos.Raw).IsValid (front ++ rest) :=
    String.Pos.Raw.isValid_iff_exists_append.mpr ⟨front, rest, rfl, rfl⟩
  have hsplits : ((front ++ rest).pos ⟨front.utf8ByteSize⟩ hvalid).Splits front rest := ⟨rfl, rfl⟩
  rw [from?, dif_pos hvalid, hsplits.copy_sliceFrom_eq]

/-- Cut at a place that is reached from its beginning, a text leaves what follows the place. -/
theorem from?_of_reaches {text : String} {b : Cursor} (h : Cursor.Reaches ⟨0, text.toList⟩ b) :
    from? text b.offset = some (String.ofList b.rest) := by
  obtain ⟨taken, hrest, hoffset⟩ := h
  have htext : text = String.ofList taken ++ String.ofList b.rest := by
    rw [← String.ofList_append, ← hrest, String.ofList_toList]
  have hsize : b.offset = (String.ofList taken).utf8ByteSize := by
    rw [hoffset, Nat.zero_add, byteLength_eq_utf8ByteSize]
  rw [hsize, htext, from?_append]

theorem isSome_from?_iff {text : String} {offset : Nat} :
    (from? text offset).isSome ↔ (⟨offset⟩ : String.Pos.Raw).IsValid text := by
  unfold from?
  split <;> simp_all

end Text

end HgToGit
