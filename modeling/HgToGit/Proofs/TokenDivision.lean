/-
# HgToGit.Proofs.TokenDivision -- a text has one division into blanks and tokens

`Splits` says without a scanner how a text falls into blanks and tokens, and the scanner finds
exactly that (`split_eq_iff_splits`). A `Division` also keeps the blanks: what stands in front of the
first token, and after each token. Written one after the other its parts are the text again, so a
division leaves no character out.

Every text has one division and no other (`tokenize_eq_iff_division`). Its tokens are unique because
the scanner reads them off any division. Its blanks are, because a token neither begins with a blank
nor, if another one follows, ends with one: a run of blanks can only be cut where it begins and ends.
-/
import HgToGit.Proofs.TokenLanguage
import Mathlib.Data.List.Basic
import Mathlib.Data.List.TakeWhile
import Mathlib.Logic.ExistsUnique

namespace HgToGit.Token

open HgToGit.Text (isBlank)

/-! ## The ends of a token -/

theorem exists_cons_of_isToken {t : List Char} (ht : IsComplete t ∨ IsUnterminated t) :
    ∃ c cs, t = c :: cs ∧ isBlank c = false := by
  rcases ht with (⟨hne, hblank, -⟩ | ⟨q, inner, tail, rfl, hq, -, -⟩) | ⟨q, inner, rfl, hq, -⟩
  · obtain ⟨c, cs, rfl⟩ := List.exists_cons_of_ne_nil hne
    exact ⟨c, cs, rfl, hblank c List.mem_cons_self⟩
  · exact ⟨q, _, rfl, isBlank_of_isQuote hq⟩
  · exact ⟨q, _, rfl, isBlank_of_isQuote hq⟩

theorem IsComplete.isBlank_getLast? {t : List Char} (ht : IsComplete t) :
    ∀ c ∈ t.getLast?, isBlank c = false := by
  intro c hc
  rcases ht with ⟨-, hblank, -⟩ | ⟨q, inner, tail, rfl, hq, -, htail⟩
  · exact hblank c (List.mem_of_getLast? hc)
  · rw [List.getLast?_append_of_ne_nil _ (List.cons_ne_nil _ _)] at hc
    rcases List.mem_cons.mp (List.mem_of_getLast? hc) with rfl | hmem
    · exact isBlank_of_isQuote hq
    · exact htail c hmem

/-- A text that does not begin with a blank is a quoted run without end, or it begins with a complete
token. -/
theorem isUnterminated_or_exists_isComplete {c : Char} (hc : isBlank c = false) (cs : List Char) :
    IsUnterminated (c :: cs) ∨
      ∃ t rest, c :: cs = t ++ rest ∧ IsComplete t ∧ ∀ x ∈ rest.head?, isBlank x = true := by
  have hbreak : ∀ text : List Char,
      ∀ x ∈ (text.dropWhile fun x => !isBlank x).head?, isBlank x = true := by
    intro text x hx
    simpa using Text.eq_false_of_mem_head?_dropWhile x hx
  have htake : ∀ text : List Char, ∀ x ∈ text.takeWhile fun x => !isBlank x, isBlank x = false := by
    intro text x hx
    simpa using List.mem_takeWhile_imp hx
  cases hquote : isQuote c with
  | false =>
      have hbare : IsBare (c :: cs.takeWhile fun x => !isBlank x) := by
        refine ⟨List.cons_ne_nil _ _, ?_, by simpa using hquote⟩
        intro x hx
        rcases List.mem_cons.mp hx with rfl | hx
        · exact hc
        · exact htake cs x hx
      refine Or.inr ⟨_, cs.dropWhile fun x => !isBlank x, ?_, Or.inl hbare, hbreak cs⟩
      rw [List.cons_append, List.takeWhile_append_dropWhile]
  | true =>
      by_cases hend : c ∈ cs
      · -- The run ends at the first quote of its kind, and the token at the next blank.
        obtain ⟨inner, after, rfl, hinner⟩ := List.eq_append_cons_of_mem hend
        refine Or.inr ⟨c :: inner ++ c :: after.takeWhile fun x => !isBlank x,
          after.dropWhile fun x => !isBlank x, ?_,
          Or.inr ⟨c, inner, _, rfl, hquote, hinner, htake after⟩, hbreak after⟩
        rw [List.append_assoc, List.cons_append, List.cons_append, List.takeWhile_append_dropWhile]
      · exact Or.inl ⟨c, cs, rfl, hquote, hend⟩

/-! ## The scanner and the division agree -/

theorem split_eq_of_splitsAtToken {cs : List Char} {ts : List (List Char)}
    (h : SplitsAtToken cs ts) : split cs = ts := by
  have hgap : ∀ {w : List Char}, IsGap w → ∀ c ∈ w.head?, isBlank c = true := by
    intro w hw c hc
    exact hw c (List.mem_of_mem_head? hc)
  induction h with
  | last t w ht hw => rw [split_complete_append ht (hgap hw), split_eq_nil_iff.mpr hw]
  | unterminated t ht => exact split_unterminated ht
  | cons t w rest ts ht hw hne _ ih =>
      have hbreak : ∀ c ∈ (w ++ rest).head?, isBlank c = true := by
        rw [List.head?_append_of_ne_nil _ hne]
        exact hgap hw
      rw [List.append_assoc, split_complete_append ht hbreak, split_gap_append hw, ih]

/-- A text that begins at a token falls into the tokens that the scanner finds. -/
theorem splitsAtToken_split {cs : List Char} (hne : cs ≠ [])
    (hfirst : ∀ c ∈ cs.head?, isBlank c = false) : SplitsAtToken cs (split cs) := by
  induction hlength : cs.length using Nat.strong_induction_on generalizing cs with
  | _ n ih =>
      obtain ⟨c, cs, rfl⟩ := List.exists_cons_of_ne_nil hne
      rcases isUnterminated_or_exists_isComplete (hfirst c rfl) cs with hopen | hcomplete
      · rw [split_unterminated hopen]
        exact .unterminated _ hopen
      · obtain ⟨t, rest, htext, ht, hrest⟩ := hcomplete
        rw [htext] at hlength ⊢
        rw [split_complete_append ht hrest]
        have hw : IsGap (rest.takeWhile isBlank) := isGap_takeWhile rest
        have hdivide : rest.takeWhile isBlank ++ rest.dropWhile isBlank = rest :=
          List.takeWhile_append_dropWhile
        by_cases hend : rest.dropWhile isBlank = []
        · rw [hend, List.append_nil] at hdivide
          rw [hdivide] at hw
          rw [split_eq_nil_iff.mpr hw]
          exact .last t rest ht hw
        · have hgap : rest.takeWhile isBlank ≠ [] := by
            intro hnil
            obtain ⟨x, after, hcons⟩ := List.exists_cons_of_ne_nil hend
            rw [hnil, List.nil_append] at hdivide
            have hblank : isBlank x = true := hrest x (by rw [← hdivide, hcons]; rfl)
            have hnot : isBlank x = false :=
              Text.eq_false_of_mem_head?_dropWhile x (by rw [hcons]; rfl)
            exact absurd (hblank.symm.trans hnot) (by decide)
          have hshorter : (rest.dropWhile isBlank).length < n := by
            have hpos : 0 < (rest.takeWhile isBlank).length := List.length_pos_iff.mpr hgap
            have hsum := congrArg List.length hdivide
            rw [List.length_append] at hlength hsum
            omega
          have hmore := ih _ hshorter hend Text.eq_false_of_mem_head?_dropWhile rfl
          rw [← hdivide, ← List.append_assoc, split_gap_append hw]
          exact .cons t _ _ _ ht hw hgap hmore

theorem splits_split (cs : List Char) : Splits cs (split cs) := by
  have hw : IsGap (cs.takeWhile isBlank) := isGap_takeWhile cs
  have hdivide : cs.takeWhile isBlank ++ cs.dropWhile isBlank = cs :=
    List.takeWhile_append_dropWhile
  by_cases hend : cs.dropWhile isBlank = []
  · rw [hend, List.append_nil] at hdivide
    rw [hdivide] at hw
    rw [split_eq_nil_iff.mpr hw]
    exact .blank cs hw
  · have hrest := splitsAtToken_split hend Text.eq_false_of_mem_head?_dropWhile
    rw [← hdivide, split_gap_append hw]
    exact .tokens _ _ _ hw hrest

/-- **The scanner finds the tokens into which a text falls, and no others.** -/
theorem split_eq_iff_splits {cs : List Char} {ts : List (List Char)} :
    split cs = ts ↔ Splits cs ts := by
  constructor
  · rintro rfl
    exact splits_split cs
  · intro h
    cases h with
    | blank w hw => exact split_eq_nil_iff.mpr hw
    | tokens w rest ts hw hrest => rw [split_gap_append hw, split_eq_of_splitsAtToken hrest]

/-! ## Divisions -/

/-- Tokens with the blanks after them. Every token but the last is complete and has blanks after it;
the last one is complete, or it is a quoted run without end and has none. -/
structure Separates (parts : List (List Char × List Char)) : Prop where
  /-- Tokens stand apart by nothing but blanks. -/
  isGap : ∀ part ∈ parts, IsGap part.2
  /-- A token in front of another one ends, and at least one blank follows it. -/
  separated : ∀ part ∈ parts.dropLast, IsComplete part.1 ∧ part.2 ≠ []
  /-- The last token ends, or the text does. -/
  ended : ∀ part ∈ parts.getLast?, IsComplete part.1 ∨ IsUnterminated part.1 ∧ part.2 = []

/-- The text of tokens and the blanks after them. -/
def partsText (parts : List (List Char × List Char)) : List Char :=
  parts.flatMap fun part => part.1 ++ part.2

theorem partsText_cons (part : List Char × List Char) (parts : List (List Char × List Char)) :
    partsText (part :: parts) = part.1 ++ part.2 ++ partsText parts :=
  List.flatMap_cons

/-- A text taken apart: blanks, and tokens with the blanks after them. -/
@[ext] structure Division where
  /-- The blanks in front of the first token. -/
  lead : List Char
  /-- The tokens, each with the blanks after it. -/
  parts : List (List Char × List Char)
  /-- There are only blanks in front of the first token. -/
  isGap_lead : IsGap lead
  /-- The tokens stand apart. -/
  separates : Separates parts

namespace Division

/-- The text of which it is a division: its parts one after the other. -/
def text (d : Division) : List Char := d.lead ++ partsText d.parts

/-- The tokens, in order. -/
def tokens (d : Division) : List (List Char) := d.parts.map Prod.fst

end Division

namespace Separates

variable {part : List Char × List Char} {parts : List (List Char × List Char)}

theorem tail (h : Separates (part :: parts)) : Separates parts := by
  refine ⟨fun next hnext => h.isGap next (List.mem_cons_of_mem _ hnext), ?_, ?_⟩
  · intro next hnext
    cases parts with
    | nil => exact absurd hnext List.not_mem_nil
    | cons => exact h.separated next (List.mem_cons_of_mem _ hnext)
  · intro next hnext
    cases parts with
    | nil => cases hnext
    | cons => exact h.ended next (by rwa [List.getLast?_cons_cons])

theorem isToken (h : Separates (part :: parts)) : IsComplete part.1 ∨ IsUnterminated part.1 := by
  cases parts with
  | nil => exact (h.ended part rfl).imp_right And.left
  | cons => exact Or.inl (h.separated part List.mem_cons_self).1

theorem isBlank_head? (h : Separates parts) :
    ∀ c ∈ (partsText parts).head?, isBlank c = false := by
  intro c hc
  cases parts with
  | nil => cases hc
  | cons part parts =>
      obtain ⟨x, t, ht, hx⟩ := exists_cons_of_isToken h.isToken
      rw [partsText_cons, ht] at hc
      obtain rfl : x = c := Option.some.inj hc
      exact hx

theorem partsText_ne_nil (h : Separates (part :: parts)) : partsText (part :: parts) ≠ [] := by
  obtain ⟨c, cs, ht, -⟩ := exists_cons_of_isToken h.isToken
  simp [partsText_cons, ht]

theorem splitsAtToken (h : Separates (part :: parts)) :
    SplitsAtToken (partsText (part :: parts)) ((part :: parts).map Prod.fst) := by
  induction parts generalizing part with
  | nil =>
      rw [partsText, List.flatMap_singleton]
      rcases h.ended part rfl with ht | ⟨ht, hnone⟩
      · exact .last _ _ ht (h.isGap part List.mem_cons_self)
      · rw [hnone, List.append_nil]
        exact .unterminated _ ht
  | cons next parts ih =>
      obtain ⟨ht, hne⟩ := h.separated part List.mem_cons_self
      exact .cons _ _ _ _ ht (h.isGap part List.mem_cons_self) hne (ih h.tail)

end Separates

/-- Tokens with blanks between them are the tokens of their text. -/
theorem Division.split_text (d : Division) : split d.text = d.tokens := by
  rw [Division.text, split_gap_append d.isGap_lead, Division.tokens]
  have h := d.separates
  cases hparts : d.parts with
  | nil => rfl
  | cons part parts =>
      rw [hparts] at h
      exact split_eq_of_splitsAtToken h.splitsAtToken

theorem Separates.split_partsText {parts : List (List Char × List Char)} (h : Separates parts) :
    split (partsText parts) = parts.map Prod.fst :=
  Division.split_text ⟨[], parts, by simp [IsGap], h⟩

/-! ## Every text has a division -/

theorem exists_separates_of_splitsAtToken {cs : List Char} {ts : List (List Char)}
    (h : SplitsAtToken cs ts) : ∃ parts, parts ≠ [] ∧ Separates parts ∧ partsText parts = cs := by
  induction h with
  | last t w ht hw =>
      refine ⟨[(t, w)], List.cons_ne_nil _ _, ⟨?_, by simp, ?_⟩, by simp [partsText]⟩
      · simpa using hw
      · intro part hpart
        obtain rfl : (t, w) = part := Option.some.inj hpart
        exact Or.inl ht
  | unterminated t ht =>
      refine ⟨[(t, [])], List.cons_ne_nil _ _, ⟨?_, by simp, ?_⟩, by simp [partsText]⟩
      · simp [IsGap]
      · simpa using Or.inr ht
  | cons t w rest ts ht hw hne _ ih =>
      obtain ⟨parts, hparts, hmore, rfl⟩ := ih
      refine ⟨(t, w) :: parts, List.cons_ne_nil _ _, ⟨?_, ?_, ?_⟩, by simp [partsText]⟩
      · exact List.forall_mem_cons.mpr ⟨hw, hmore.isGap⟩
      · rw [List.dropLast_cons_of_ne_nil hparts]
        exact List.forall_mem_cons.mpr ⟨⟨ht, hne⟩, hmore.separated⟩
      · rw [List.getLast?_cons_of_ne_nil hparts]
        exact hmore.ended

theorem exists_division (cs : List Char) : ∃ d : Division, d.text = cs := by
  have h := splits_split cs
  generalize split cs = ts at h
  cases h with
  | blank w hw => exact ⟨⟨cs, [], hw, by simp, by simp, by simp⟩, List.append_nil cs⟩
  | tokens w rest ts hw hrest =>
      obtain ⟨parts, -, hparts, rfl⟩ := exists_separates_of_splitsAtToken hrest
      exact ⟨⟨w, parts, hw, hparts⟩, rfl⟩

/-! ## And no other one -/

/-- Blanks in front of what does not begin with one end where it begins. -/
theorem gap_append_inj {w w' a b : List Char} (hw : IsGap w) (hw' : IsGap w')
    (ha : ∀ c ∈ a.head?, isBlank c = false) (hb : ∀ c ∈ b.head?, isBlank c = false)
    (h : w ++ a = w' ++ b) : w = w' ∧ a = b := by
  have htake : ∀ {w a : List Char}, IsGap w → (∀ c ∈ a.head?, isBlank c = false) →
      (w ++ a).takeWhile isBlank = w := by
    intro w a hw ha
    rw [Text.takeWhile_append_of_head? ha, List.takeWhile_eq_self_iff]
    exact hw
  have hsame : w = w' := by rw [← htake hw ha, h, htake hw' hb]
  exact ⟨hsame, List.append_cancel_left (hsame ▸ h)⟩

/-- Tokens are followed by the same blanks in every division of a text. -/
theorem Separates.eq_of_partsText_eq {parts parts' : List (List Char × List Char)}
    (h : Separates parts) (h' : Separates parts') (htokens : parts.map Prod.fst = parts'.map Prod.fst)
    (htext : partsText parts = partsText parts') : parts = parts' := by
  induction parts generalizing parts' with
  | nil => exact (List.map_eq_nil_iff.mp htokens.symm).symm
  | cons part parts ih =>
      cases parts' with
      | nil => cases htokens
      | cons part' parts' =>
          obtain ⟨t, w⟩ := part
          obtain ⟨t', w'⟩ := part'
          obtain ⟨rfl, hmore⟩ := List.cons.inj htokens
          have hbehind : w ++ partsText parts = w' ++ partsText parts' := by
            simpa [partsText] using htext
          obtain ⟨rfl, hrest⟩ := gap_append_inj (h.isGap _ List.mem_cons_self)
            (h'.isGap _ List.mem_cons_self) h.tail.isBlank_head? h'.tail.isBlank_head? hbehind
          rw [ih h.tail h'.tail hmore hrest]

theorem Division.eq_of_text_eq {d d' : Division} (h : d.text = d'.text) : d = d' := by
  obtain ⟨hlead, hparts⟩ := gap_append_inj d.isGap_lead d'.isGap_lead
    d.separates.isBlank_head? d'.separates.isBlank_head? h
  have htokens : d.tokens = d'.tokens := by rw [← d.split_text, h, d'.split_text]
  exact Division.ext hlead (d.separates.eq_of_partsText_eq d'.separates htokens hparts)

/-! ## The tokens of a line -/

/-- A division loses no character but blanks. -/
theorem Division.filter_text (d : Division) :
    d.tokens.flatten.filter (fun c => !isBlank c) = d.text.filter fun c => !isBlank c := by
  have hgap : ∀ w, IsGap w → w.filter (fun c => !isBlank c) = [] := by
    intro w hw
    rw [List.filter_eq_nil_iff]
    intro c hc
    simp [hw c hc]
  rw [Division.text, List.filter_append, hgap _ d.isGap_lead, List.nil_append, Division.tokens]
  have h := d.separates.isGap
  generalize d.parts = parts at h ⊢
  induction parts with
  | nil => rfl
  | cons part parts ih =>
      obtain ⟨hw, hmore⟩ := List.forall_mem_cons.mp h
      rw [List.map_cons, List.flatten_cons, partsText_cons]
      simp only [List.filter_append, hgap _ hw, List.append_nil, ih hmore]

/-- **A text has one division into blanks and tokens, and its tokens are those of the division.** The
division is the text again, so no character is left out. A token is not empty, and the characters of
the tokens that are not blank are those of the text, in its order. -/
theorem tokenize_eq_iff_division (text : String) :
    (∀ tokens, tokenize text = tokens ↔
      ∃ d : Division, d.text = text.toList ∧ d.tokens = tokens.map String.toList) ∧
    (∃! d : Division, d.text = text.toList) ∧
    "" ∉ tokenize text ∧
    ((tokenize text).flatMap String.toList).filter (fun c => !isBlank c) =
      text.toList.filter fun c => !isBlank c := by
  obtain ⟨d, hd⟩ := exists_division text.toList
  have htokens : d.tokens = (tokenize text).map String.toList := by
    rw [← d.split_text, hd, tokenize]
    simp
  refine ⟨?_, ?_, ?_, ?_⟩
  · intro tokens
    constructor
    · rintro rfl
      exact ⟨d, hd, htokens⟩
    · rintro ⟨d', hd', htokens'⟩
      rw [← d'.split_text, hd'] at htokens'
      rw [tokenize, htokens']
      simp
  · refine ⟨d, hd, ?_⟩
    intro d' hd'
    exact Division.eq_of_text_eq (hd'.trans hd.symm)
  · intro hempty
    obtain ⟨t, ht, hnil⟩ := List.mem_map.mp hempty
    obtain rfl : t = [] := by simpa using hnil
    obtain ⟨c, cs, hcons, -⟩ := exists_cons_of_isToken (isComplete_or_isUnterminated ht)
    cases hcons
  · have hchars := d.filter_text
    rw [hd, htokens] at hchars
    simpa [List.flatMap] using hchars

end HgToGit.Token
