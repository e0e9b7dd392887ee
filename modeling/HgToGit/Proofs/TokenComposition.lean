/-
# HgToGit.Proofs.TokenComposition -- the tokens of texts with blanks between them

All that a text does to the tokens of what follows it is to leave a quoted run open or not, and by
which quote (`openQuote?`). If none is open, a blank behind the text ends its last token, and what
follows has tokens of its own. If one is, the blank belongs to the run: the run goes on to the next
quote of its kind and the token from there to the next blank (`Closes`), and only then a new token
can begin.

A run that is open has the last place among the tokens of a text, so the tokens can be written with
single spaces between them and are read back. The blanks around a text neither open a run nor close one.
-/
import HgToGit.Proofs.TokenLanguage
import Mathlib.Data.List.Basic

namespace HgToGit.Token

open HgToGit.Text (isBlank)

/-! ## The end of a text -/

/-- The quote that ends the run in which a scan stands. -/
def Pending.openQuote? : Pending → Option Char
  | .gap | .bare _ => none
  | .quoted quote _ => some quote

theorem Pending.openQuote?_eq_some_iff {p : Pending} {quote : Char} :
    p.openQuote? = some quote ↔ ∃ reversed, p = .quoted quote reversed := by
  cases p <;> simp [openQuote?]

/-- The quote of the run that is still open where a text ends. -/
def openQuote? (text : String) : Option Char := (scan .gap text.toList).2.openQuote?

/-- A quoted run without end, and the quote that it waits for. -/
def IsOpenRun (quote : Char) (t : List Char) : Prop :=
  ∃ inner, t = quote :: inner ∧ isQuote quote = true ∧ quote ∉ inner

theorem IsOpenRun.isUnterminated {quote : Char} {t : List Char} (h : IsOpenRun quote t) :
    IsUnterminated t :=
  ⟨quote, h⟩

theorem IsOpenRun.isQuote {quote : Char} {t : List Char} (h : IsOpenRun quote t) :
    isQuote quote = true := by
  obtain ⟨-, -, hquote, -⟩ := h
  exact hquote

theorem IsOpenRun.append {quote : Char} {t w : List Char} (h : IsOpenRun quote t) (hw : quote ∉ w) :
    IsOpenRun quote (t ++ w) := by
  obtain ⟨inner, rfl, hquote, hinner⟩ := h
  exact ⟨inner ++ w, rfl, hquote, by simp [hinner, hw]⟩

theorem IsOpenRun.unique {quote quote' : Char} {t : List Char} (h : IsOpenRun quote t)
    (h' : IsOpenRun quote' t) : quote = quote' := by
  obtain ⟨inner, rfl, -, -⟩ := h
  obtain ⟨inner', heq, -, -⟩ := h'
  exact (List.cons.inj heq).1

section End

variable {a : List Char} {quote : Char}

/-- Where no run is open, a blank ends the last token, and so does the end of the text. -/
theorem split_append_of_break (ha : (scan .gap a).2.openQuote? = none) {cs : List Char}
    (hcs : ∀ c ∈ cs.head?, isBlank c = true) : split (a ++ cs) = split a ++ split cs := by
  cases hend : (scan .gap a).2 with
  | gap => exact split_append_of_gap hend cs
  | bare reversed =>
      have hlast : split a = (scan .gap a).1 ++ [reversed.reverse] := by
        rw [split_eq_tokensFrom, tokensFrom, hend]
        rfl
      rw [split_eq_tokensFrom, tokensFrom_append, hend, tokensFrom_bare_of_break hcs, hlast]
      simp
  | quoted quote reversed =>
      rw [hend] at ha
      cases ha

/-- Where a run is open, it is the last token, and what follows goes on with it. -/
theorem exists_split_append_of_open (ha : (scan .gap a).2.openQuote? = some quote) :
    ∃ ts t, split a = ts ++ [t] ∧ IsOpenRun quote t ∧
      ∀ cs, split (a ++ cs) = ts ++ tokensFrom (.quoted quote t.reverse) cs := by
  obtain ⟨hsound, -⟩ := sound_scan (p := .gap) trivial a
  obtain ⟨reversed, hend⟩ := Pending.openQuote?_eq_some_iff.mp ha
  rw [hend] at hsound
  obtain ⟨hquote, inner, hread, hinner⟩ := hsound
  refine ⟨(scan .gap a).1, reversed.reverse, ?_, ⟨inner, hread, hquote, hinner⟩, ?_⟩
  · rw [split_eq_tokensFrom, tokensFrom, hend]
    rfl
  · intro cs
    rw [split_eq_tokensFrom, tokensFrom_append, hend, List.reverse_reverse]

theorem split_append_of_open {ts : List (List Char)} {t : List Char}
    (ha : (scan .gap a).2.openQuote? = some quote) (hsplit : split a = ts ++ [t]) :
    IsOpenRun quote t ∧
      ∀ cs, split (a ++ cs) = ts ++ tokensFrom (.quoted quote t.reverse) cs := by
  obtain ⟨ts', t', hsplit', hopen, hmore⟩ := exists_split_append_of_open ha
  obtain ⟨rfl, ht⟩ := List.append_inj' (hsplit.symm.trans hsplit') rfl
  obtain rfl : t = t' := List.singleton_inj.mp ht
  exact ⟨hopen, hmore⟩

theorem isComplete_of_mem_split (ha : (scan .gap a).2.openQuote? = none) :
    ∀ t ∈ split a, IsComplete t := by
  intro t ht
  obtain ⟨hsound, hdone⟩ := sound_scan (p := .gap) trivial a
  rw [split_eq_tokensFrom, tokensFrom, List.mem_append] at ht
  rcases ht with ht | ht
  · exact hdone t ht
  · cases hend : (scan .gap a).2 with
    | gap => simp [hend, Pending.flush] at ht
    | bare reversed =>
        rw [hend] at hsound ht
        rw [List.mem_singleton.mp ht]
        exact hsound
    | quoted quote reversed =>
        rw [hend] at ha
        cases ha

/-- A run is open at the end of a text exactly if it is the last token. -/
theorem openQuote?_scan_eq_some_iff :
    (scan .gap a).2.openQuote? = some quote ↔ ∃ ts t, split a = ts ++ [t] ∧ IsOpenRun quote t := by
  constructor
  · intro ha
    obtain ⟨ts, t, hsplit, hopen, -⟩ := exists_split_append_of_open ha
    exact ⟨ts, t, hsplit, hopen⟩
  · rintro ⟨ts, t, hsplit, hopen⟩
    cases ha : (scan .gap a).2.openQuote? with
    | none =>
        have hcomplete : IsComplete t := isComplete_of_mem_split ha t (by simp [hsplit])
        exact absurd hopen.isUnterminated hcomplete.not_isUnterminated
    | some quote' =>
        obtain ⟨hopen', -⟩ := split_append_of_open ha hsplit
        rw [hopen.unique hopen']

/-- A token in front of another one is complete. -/
theorem isComplete_of_mem_dropLast_split {t : List Char} (ht : t ∈ (split a).dropLast) :
    IsComplete t := by
  obtain ⟨-, hdone⟩ := sound_scan (p := .gap) trivial a
  have hfront : ∀ (done : List (List Char)) (p : Pending), (done ++ p.flush).dropLast ⊆ done := by
    intro done p
    cases p with
    | gap => simpa [Pending.flush] using List.dropLast_subset done
    | bare reversed => simp [Pending.flush]
    | quoted quote reversed => simp [Pending.flush]
  exact hdone t (hfront _ _ ht)

end End

/-! ## What becomes of an open run -/

/-- An open run is closed in a text: it goes on to the next quote, and the token behind it to a blank
or the end of the text. -/
structure Closes (quote : Char) (text inner tail rest : List Char) : Prop where
  /-- The text is what the run and its token take, and a rest. -/
  text_eq : text = inner ++ quote :: (tail ++ rest)
  /-- The run ends at the first quote. -/
  notMem_inner : quote ∉ inner
  /-- The token goes on over no blank. -/
  isBlank_tail : ∀ c ∈ tail, isBlank c = false
  /-- It goes on as far as it can. -/
  isBlank_head? : ∀ c ∈ rest.head?, isBlank c = true

/-- Each character is looked at once. -/
instance (quote : Char) (text inner tail rest : List Char) :
    Decidable (Closes quote text inner tail rest) :=
  decidable_of_iff (text = inner ++ quote :: (tail ++ rest) ∧ quote ∉ inner ∧
      (tail.all fun c => !isBlank c) ∧ rest.head?.all isBlank) <| by
    have htail : (tail.all fun c => !isBlank c) = true ↔ ∀ c ∈ tail, isBlank c = false := by simp
    have hrest : rest.head?.all isBlank = true ↔ ∀ c ∈ rest.head?, isBlank c = true := by
      cases rest <;> simp
    rw [htail, hrest]
    exact ⟨fun ⟨htext, hinner, ht, hr⟩ => ⟨htext, hinner, ht, hr⟩,
      fun h => ⟨h.text_eq, h.notMem_inner, h.isBlank_tail, h.isBlank_head?⟩⟩

section Continued

variable {quote : Char} {text inner tail rest : List Char}

theorem exists_closes (h : quote ∈ text) : ∃ inner tail rest, Closes quote text inner tail rest := by
  obtain ⟨inner, behind, rfl, hinner⟩ := List.eq_append_cons_of_mem h
  refine ⟨inner, behind.takeWhile fun c => !isBlank c, behind.dropWhile fun c => !isBlank c, ?_,
    hinner, ?_, ?_⟩
  · rw [List.takeWhile_append_dropWhile]
  · intro c hc
    simpa using List.mem_takeWhile_imp hc
  · intro c hc
    simpa using Text.eq_false_of_mem_head?_dropWhile c hc

theorem tokensFrom_quoted_of_notMem (h : quote ∉ text) (t : List Char) :
    tokensFrom (.quoted quote t.reverse) text = [t ++ text] := by
  have hall := tokensFrom_quoted_append h t.reverse []
  rw [List.append_nil] at hall
  rw [hall, tokensFrom_nil, Pending.flush]
  simp

theorem Closes.tokensFrom_quoted (h : Closes quote text inner tail rest) (t : List Char) :
    tokensFrom (.quoted quote t.reverse) text = (t ++ (inner ++ quote :: tail)) :: split rest := by
  rw [h.text_eq, tokensFrom_quoted_append h.notMem_inner, tokensFrom_cons]
  simp only [Pending.next, if_true, Option.toList_none, List.nil_append]
  rw [tokensFrom_bare_append h.isBlank_tail, tokensFrom_bare_of_break h.isBlank_head?]
  simp

theorem notMem_gap (hquote : isQuote quote = true) {w : List Char} (hw : IsGap w) : quote ∉ w := by
  intro hmem
  exact absurd ((hw quote hmem).symm.trans (isBlank_of_isQuote hquote)) (by decide)

/-- The blanks in front of a text belong to the run. -/
theorem Closes.gap_append (h : Closes quote text inner tail rest) {w : List Char} (hw : quote ∉ w) :
    Closes quote (w ++ text) (w ++ inner) tail rest where
  text_eq := by rw [h.text_eq, List.append_assoc]
  notMem_inner := by simp [hw, h.notMem_inner]
  isBlank_tail := h.isBlank_tail
  isBlank_head? := h.isBlank_head?

end Continued

/-! ## Texts with blanks between them -/

theorem tokenize_join_tokenize (text : String) : tokenize (join (tokenize text)) = tokenize text := by
  rw [tokenize_join_iff fun t ht => isToken_of_mem_tokenize ht]
  intro t ht hopen
  rw [tokenize, ← List.map_dropLast] at ht
  obtain ⟨cs, hcs, rfl⟩ := List.mem_map.mp ht
  rw [String.toList_ofList] at hopen
  exact (isComplete_of_mem_dropLast_split hcs).not_isUnterminated hopen

theorem openQuote?_eq_some_iff {text : String} {quote : Char} :
    openQuote? text = some quote ↔
      ∃ ts t, tokenize text = ts ++ [t] ∧ IsOpenRun quote t.toList := by
  rw [openQuote?, openQuote?_scan_eq_some_iff]
  constructor
  · rintro ⟨ts, t, hsplit, hopen⟩
    refine ⟨ts.map String.ofList, String.ofList t, ?_, by rwa [String.toList_ofList]⟩
    rw [tokenize, hsplit]
    simp
  · rintro ⟨ts, t, htokens, hopen⟩
    rw [tokenize_eq_iff, List.map_append] at htokens
    exact ⟨_, _, htokens, hopen⟩

/-- **Tokens that are joined are read back, and a text with blanks in it has the tokens of its parts.**
If no quoted run is open at the end of the first part, these are all tokens of the two parts. If one
is, it is the last token of the first part. It takes the blanks and the whole second part, unless its
quote occurs there; then it takes the second part as far as the token goes behind that quote, and the
rest has tokens of its own. -/
theorem tokenize_compositional :
    (∀ text, tokenize (join (tokenize text)) = tokenize text) ∧
    ∀ a w b : String, IsGap w.toList → w ≠ "" →
      (openQuote? a = none → tokenize (a ++ w ++ b) = tokenize a ++ tokenize b) ∧
      (∀ quote, openQuote? a = some quote ↔
        ∃ ts t, tokenize a = ts ++ [t] ∧ IsOpenRun quote t.toList) ∧
      ∀ quote ts t, openQuote? a = some quote → tokenize a = ts ++ [t] →
        (quote ∉ b.toList → tokenize (a ++ w ++ b) = ts ++ [t ++ w ++ b]) ∧
        (quote ∈ b.toList → ∃ inner tail rest : String,
          Closes quote b.toList inner.toList tail.toList rest.toList) ∧
        ∀ inner tail rest : String,
          Closes quote b.toList inner.toList tail.toList rest.toList →
            tokenize (a ++ w ++ b) =
              ts ++ (t ++ w ++ inner ++ String.singleton quote ++ tail) :: tokenize rest := by
  refine ⟨tokenize_join_tokenize, ?_⟩
  intro a w b hgap hne
  have htext : (a ++ w ++ b).toList = a.toList ++ (w.toList ++ b.toList) := by simp
  refine ⟨?_, fun quote => openQuote?_eq_some_iff, ?_⟩
  · intro ha
    have hbreak : ∀ c ∈ (w.toList ++ b.toList).head?, isBlank c = true := by
      have hwne : w.toList ≠ [] := by simpa using hne
      rw [List.head?_append_of_ne_nil _ hwne]
      exact fun c hc => hgap c (List.mem_of_mem_head? hc)
    have hsplit := split_append_of_break ha hbreak
    rw [split_gap_append hgap] at hsplit
    rw [tokenize, htext, hsplit, List.map_append]
    rfl
  · intro quote ts t ha htokens
    rw [tokenize_eq_iff, List.map_append] at htokens
    obtain ⟨hrun, hmore⟩ := split_append_of_open ha htokens
    have hnotgap : quote ∉ w.toList := notMem_gap hrun.isQuote hgap
    refine ⟨?_, ?_, ?_⟩
    · intro hnot
      have hall : quote ∉ w.toList ++ b.toList := by simp [hnotgap, hnot]
      rw [tokenize_eq_iff, htext, hmore, tokensFrom_quoted_of_notMem hall]
      simp
    · intro hmem
      obtain ⟨inner, tail, rest, hcloses⟩ := exists_closes hmem
      exact ⟨String.ofList inner, String.ofList tail, String.ofList rest, by simpa using hcloses⟩
    · intro inner tail rest hcloses
      rw [tokenize_eq_iff, htext, hmore, (hcloses.gap_append hnotgap).tokensFrom_quoted]
      simp [tokenize]

/-- A message goes on over a wide blank to its quote and the rest of its token; without an open run
the wide blank separates. -/
theorem tokenize_compositional_wide_gap :
    tokenize "-m \x22it's\u3000a day\x22! -A 'x y" =
        ["-m", "\x22it's\u3000a day\x22!"] ++ tokenize " -A 'x y" ∧
      tokenize "-m it's\u3000a day" = tokenize "-m it's" ++ tokenize "a day" := by
  obtain ⟨-, hparts⟩ := tokenize_compositional
  have hgap : IsGap "\u3000".toList := by decide
  constructor
  · have hcloses : Closes '\x22' "a day\x22! -A 'x y".toList "a day".toList "!".toList
        " -A 'x y".toList := by decide
    obtain ⟨-, -, hopen⟩ := hparts "-m \x22it's" "\u3000" "a day\x22! -A 'x y" hgap (by decide)
    exact (hopen '\x22' ["-m"] "\x22it's" (by decide) (by decide)).2.2 _ _ _ hcloses
  · obtain ⟨hclosed, -⟩ := hparts "-m it's" "\u3000" "a day" hgap (by decide)
    exact hclosed (by decide)

/-! ## Blanks around a text -/

/-- Blanks at the end of a text do not close a quoted run. -/
theorem exists_isUnterminated_of_append_gap {cs w : List Char} (hw : IsGap w)
    (h : ∃ t ∈ split cs, IsUnterminated t) : ∃ t ∈ split (cs ++ w), IsUnterminated t := by
  obtain ⟨t, ht, hopen⟩ := h
  cases hend : (scan .gap cs).2.openQuote? with
  | none => exact absurd hopen (isComplete_of_mem_split hend t ht).not_isUnterminated
  | some quote =>
      obtain ⟨ts, run, -, hrun, hmore⟩ := exists_split_append_of_open hend
      have hnot : quote ∉ w := notMem_gap hrun.isQuote hw
      refine ⟨run ++ w, ?_, (hrun.append hnot).isUnterminated⟩
      rw [hmore, tokensFrom_quoted_of_notMem hnot]
      simp

end HgToGit.Token

namespace HgToGit.Text

open HgToGit.Token (IsGap)

/-- A text is its trimmed text with blanks around it. -/
theorem exists_eq_append_trimChars (cs : List Char) :
    ∃ w w', IsGap w ∧ IsGap w' ∧ cs = w ++ (trimChars cs ++ w') := by
  refine ⟨cs.takeWhile isBlank, ((trimLeft cs).reverse.takeWhile isBlank).reverse,
    Token.isGap_takeWhile cs, ?_, ?_⟩
  · intro c hc
    exact Token.isGap_takeWhile _ c (List.mem_reverse.mp hc)
  · rw [trimChars, trimRight, ← List.reverse_append, List.takeWhile_append_dropWhile,
      List.reverse_reverse, trimLeft, List.takeWhile_append_dropWhile]

/-- If every quoted run of a text is closed, so is every one of the trimmed text. -/
theorem not_isUnterminated_of_mem_split_trimChars {cs : List Char}
    (h : ∀ t ∈ Token.split cs, ¬ Token.IsUnterminated t) :
    ∀ t ∈ Token.split (trimChars cs), ¬ Token.IsUnterminated t := by
  intro t ht hopen
  obtain ⟨w, w', hw, hw', hcs⟩ := exists_eq_append_trimChars cs
  obtain ⟨u, hu, hopen'⟩ := Token.exists_isUnterminated_of_append_gap hw' ⟨t, ht, hopen⟩
  apply h u _ hopen'
  rw [hcs, Token.split_gap_append hw]
  exact hu

end HgToGit.Text
