/-
# HgToGit.Proofs.TokenScan -- the first token of a text

`tokensFrom` is what a scan yields from any point of a token to the end of the text, and `split` is
`tokensFrom` a gap. Three facts say how a text begins: a blank in front does not count, a run of
characters without blanks and quotes in front is a token as soon as a blank or the end follows, and
the first token begins with the first character that is not blank. The last one reads tokens
backwards: a first token without a quote in front stands in the text as it is.

Trimming leaves a text without a blank at either end, which is what the reading of a line rests on.
-/
import HgToGit.Token
import Mathlib.Data.List.TakeWhile

namespace HgToGit.Text

/-! ## Where a run of characters ends -/

theorem eq_false_of_mem_head?_dropWhile {test : Char → Bool} {cs : List Char} :
    ∀ c ∈ (cs.dropWhile test).head?, test c = false := by
  intro c hc
  have h := List.head?_dropWhile_not test cs
  rw [Option.mem_def.mp hc] at h
  exact h

/-- A run of characters in front of a text ends where it ends in any longer text that does not go
on with it. -/
theorem takeWhile_append_of_head? {test : Char → Bool} {a b : List Char}
    (hb : ∀ c ∈ b.head?, test c = false) : (a ++ b).takeWhile test = a.takeWhile test := by
  have hnone : b.takeWhile test = [] := by
    cases b with
    | nil => rfl
    | cons c b => rw [List.takeWhile_cons_of_neg (by simp [hb c rfl])]
  rw [List.takeWhile_append, hnone, List.append_nil]
  split
  · rename_i hall
    exact ((List.takeWhile_prefix _).eq_of_length hall).symm
  · rfl

end HgToGit.Text

namespace HgToGit.Token

open HgToGit.Text (isBlank)

/-! ## Scanning to the end -/

/-- The tokens that end from here on, the one at the end of the text included. -/
def tokensFrom (p : Pending) (cs : List Char) : List (List Char) :=
  (scan p cs).1 ++ (scan p cs).2.flush

theorem split_eq_tokensFrom (cs : List Char) : split cs = tokensFrom .gap cs := rfl

@[simp] theorem tokensFrom_nil (p : Pending) : tokensFrom p [] = p.flush := rfl

theorem tokensFrom_cons (p : Pending) (c : Char) (cs : List Char) :
    tokensFrom p (c :: cs) = (p.next c).1.toList ++ tokensFrom (p.next c).2 cs := by
  rw [tokensFrom, scan, List.append_assoc]
  rfl

@[simp] theorem split_nil : split [] = [] := rfl

/-- What has been read of a token. -/
def Pending.text : Pending → List Char
  | .gap => []
  | .bare reversed => reversed.reverse
  | .quoted _ reversed => reversed.reverse

/-- A token that has begun goes on with what has been read of it. -/
theorem exists_tokensFrom_eq_cons {p : Pending} (hp : p ≠ .gap) (cs : List Char) :
    ∃ t ts, tokensFrom p cs = (p.text ++ t) :: ts := by
  induction cs generalizing p with
  | nil =>
      cases p with
      | gap => exact absurd rfl hp
      | bare reversed => exact ⟨[], [], by simp [Pending.text, Pending.flush]⟩
      | quoted quote reversed => exact ⟨[], [], by simp [Pending.text, Pending.flush]⟩
  | cons c cs ih =>
      rw [tokensFrom_cons]
      cases p with
      | gap => exact absurd rfl hp
      | bare reversed =>
          by_cases hc : isBlank c = true
          · exact ⟨[], tokensFrom .gap cs, by simp [Pending.next, Pending.text, hc]⟩
          · obtain ⟨t, ts, h⟩ := ih (p := .bare (c :: reversed)) (by simp)
            refine ⟨c :: t, ts, ?_⟩
            simpa [Pending.next, Pending.text, hc] using h
      | quoted quote reversed =>
          by_cases hc : c = quote
          · obtain ⟨t, ts, h⟩ := ih (p := .bare (c :: reversed)) (by simp)
            refine ⟨c :: t, ts, ?_⟩
            simpa [Pending.next, Pending.text, hc] using h
          · obtain ⟨t, ts, h⟩ := ih (p := .quoted quote (c :: reversed)) (by simp)
            refine ⟨c :: t, ts, ?_⟩
            simpa [Pending.next, Pending.text, hc] using h

/-- Tokens as texts are tokens as characters. -/
theorem tokenize_eq_iff {text : String} {tokens : List String} :
    tokenize text = tokens ↔ split text.toList = tokens.map String.toList := by
  rw [tokenize]
  constructor
  · intro h
    have hchars := congrArg (List.map String.toList) h
    simpa using hchars
  · intro h
    rw [h]
    simp

/-! ## How a text begins -/

/-- Each character is looked at once. -/
instance : DecidablePred IsGap := fun w =>
  decidable_of_iff (w.all isBlank) List.all_eq_true

theorem isGap_takeWhile (cs : List Char) : IsGap (cs.takeWhile isBlank) :=
  fun _ => List.mem_takeWhile_imp

theorem split_blank_cons {c : Char} (hc : isBlank c = true) (cs : List Char) :
    split (c :: cs) = split cs := by
  rw [split_eq_tokensFrom, tokensFrom_cons]
  simp [Pending.next, hc, split_eq_tokensFrom]

/-- Blanks in front do not count. -/
theorem split_gap_append {w : List Char} (hw : IsGap w) (cs : List Char) :
    split (w ++ cs) = split cs := by
  induction w with
  | nil => rfl
  | cons c w ih =>
      rw [List.cons_append, split_blank_cons (hw c (by simp))]
      exact ih fun x hx => hw x (List.mem_cons_of_mem _ hx)

/-- The first token begins with the first character that is not blank. -/
theorem exists_split_eq_cons {c : Char} (hc : isBlank c = false) (cs : List Char) :
    ∃ t ts, split (c :: cs) = (c :: t) :: ts := by
  rw [split_eq_tokensFrom, tokensFrom_cons]
  by_cases hq : isQuote c = true
  · obtain ⟨t, ts, h⟩ := exists_tokensFrom_eq_cons (p := .quoted c [c]) (by simp) cs
    exact ⟨t, ts, by simpa [Pending.next, Pending.text, hc, hq] using h⟩
  · obtain ⟨t, ts, h⟩ := exists_tokensFrom_eq_cons (p := .bare [c]) (by simp) cs
    exact ⟨t, ts, by simpa [Pending.next, Pending.text, hc, hq] using h⟩

/-- A text has no token exactly if it is blank. -/
theorem split_eq_nil_iff {cs : List Char} : split cs = [] ↔ IsGap cs := by
  induction cs with
  | nil => simp [IsGap]
  | cons c cs ih =>
      by_cases hc : isBlank c = true
      · rw [split_blank_cons hc, ih]
        simp [IsGap, hc]
      · rw [Bool.not_eq_true] at hc
        obtain ⟨t, ts, h⟩ := exists_split_eq_cons hc cs
        simp [h, IsGap, hc]

/-- Outside quotes a token goes on to the next blank. -/
theorem tokensFrom_bare_append {t : List Char} (ht : ∀ c ∈ t, isBlank c = false)
    (reversed rest : List Char) :
    tokensFrom (.bare reversed) (t ++ rest) = tokensFrom (.bare (t.reverse ++ reversed)) rest := by
  induction t generalizing reversed with
  | nil => rfl
  | cons c t ih =>
      rw [List.cons_append, tokensFrom_cons]
      simp [Pending.next, ht c (by simp), ih fun x hx => ht x (List.mem_cons_of_mem _ hx)]

/-- The end of the text or a blank ends a token outside quotes. -/
theorem tokensFrom_bare_of_break {rest : List Char} (hrest : ∀ c ∈ rest.head?, isBlank c = true)
    (reversed : List Char) : tokensFrom (.bare reversed) rest = reversed.reverse :: split rest := by
  cases rest with
  | nil => rfl
  | cons c rest =>
      have hc : isBlank c = true := hrest c rfl
      rw [tokensFrom_cons, split_blank_cons hc]
      simp [Pending.next, hc, split_eq_tokensFrom]

/-- Each character is looked at once. -/
instance : DecidablePred IsBare := fun t =>
  decidable_of_iff (t ≠ [] ∧ (t.all fun c => !isBlank c) ∧ t.head?.all fun c => !isQuote c) <| by
    cases t <;> simp [IsBare]

/-- A token outside quotes is the first one if a blank or the end of the text follows it. -/
theorem split_bare_append {t rest : List Char} (ht : IsBare t)
    (hrest : ∀ c ∈ rest.head?, isBlank c = true) : split (t ++ rest) = t :: split rest := by
  obtain ⟨hne, hblank, hquote⟩ := ht
  obtain ⟨c, t, rfl⟩ := List.exists_cons_of_ne_nil hne
  have hc : isBlank c = false := hblank c (by simp)
  have hq : isQuote c = false := hquote c rfl
  rw [split_eq_tokensFrom, List.cons_append, tokensFrom_cons]
  simp only [Pending.next, hc, hq, Bool.false_eq_true, if_false, Option.toList_none,
    List.nil_append]
  rw [tokensFrom_bare_append fun x hx => hblank x (List.mem_cons_of_mem _ hx),
    tokensFrom_bare_of_break hrest]
  simp

/-! ## Reading a first token back -/

/-- If a text does not begin with a blank and its first token not with a quote, the token stands
at its beginning and a blank or the end of the text follows it. -/
theorem exists_eq_append_of_split {cs t : List Char} {ts : List (List Char)}
    (hcs : ∀ c ∈ cs.head?, isBlank c = false) (ht : ∀ c ∈ t.head?, isQuote c = false)
    (h : split cs = t :: ts) :
    ∃ rest, cs = t ++ rest ∧ (∀ c ∈ rest.head?, isBlank c = true) ∧ split rest = ts := by
  cases cs with
  | nil => exact absurd h (by simp)
  | cons c cs =>
      have hc : isBlank c = false := hcs c rfl
      obtain ⟨t', ts', h'⟩ := exists_split_eq_cons hc cs
      obtain ⟨rfl, rfl⟩ := List.cons.inj (h.symm.trans h')
      have hq : isQuote c = false := ht c rfl
      -- The first token is what stands in front of the first blank.
      have hword : IsBare (c :: cs.takeWhile fun x => !isBlank x) := by
        refine ⟨by simp, fun x hx => ?_, by simpa using hq⟩
        rcases List.mem_cons.mp hx with rfl | hx
        · exact hc
        · simpa using List.mem_takeWhile_imp hx
      have hbreak : ∀ x ∈ (cs.dropWhile fun x => !isBlank x).head?, isBlank x = true := by
        intro x hx
        simpa using Text.eq_false_of_mem_head?_dropWhile x hx
      -- It is a token, so it is the one that was found.
      have hsplit := split_bare_append hword hbreak
      rw [List.cons_append, List.takeWhile_append_dropWhile, h] at hsplit
      obtain ⟨htoken, hmore⟩ := List.cons.inj hsplit
      refine ⟨cs.dropWhile fun x => !isBlank x, ?_, hbreak, hmore.symm⟩
      rw [htoken, List.cons_append, List.takeWhile_append_dropWhile]

end HgToGit.Token

namespace HgToGit.Text

/-! ## Trimmed texts -/

theorem trimRight_prefix (cs : List Char) : trimRight cs <+: cs := by
  have h : cs.reverse.dropWhile isBlank <:+ cs.reverse := List.dropWhile_suffix isBlank
  simpa [trimRight] using List.reverse_prefix.mpr h

/-- A trimmed text does not begin with a blank. -/
theorem isBlank_head?_trimChars {cs : List Char} :
    ∀ c ∈ (trimChars cs).head?, isBlank c = false := by
  intro c hc
  obtain ⟨tail, htail⟩ := trimRight_prefix (trimLeft cs)
  have hhead : (trimLeft cs).head? = some c := by
    rw [← htail, ← trimChars, List.head?_append, Option.mem_def.mp hc]
    rfl
  exact eq_false_of_mem_head?_dropWhile c hhead

/-- A trimmed text does not end with a blank. -/
theorem isBlank_getLast?_trimChars {cs : List Char} :
    ∀ c ∈ (trimChars cs).getLast?, isBlank c = false := by
  intro c hc
  rw [trimChars, trimRight, List.getLast?_reverse] at hc
  exact eq_false_of_mem_head?_dropWhile c hc

/-- A text with no blank at either end is trimmed. -/
theorem trimChars_eq_self {cs : List Char} (hfirst : ∀ c ∈ cs.head?, isBlank c = false)
    (hlast : ∀ c ∈ cs.getLast?, isBlank c = false) : trimChars cs = cs := by
  have hkept : ∀ {text : List Char}, (∀ c ∈ text.head?, isBlank c = false) →
      text.dropWhile isBlank = text := by
    intro text htext
    cases text with
    | nil => rfl
    | cons c text => exact List.dropWhile_cons_of_neg (by simp [htext c rfl])
  rw [trimChars, trimLeft, hkept hfirst, trimRight, hkept (by rwa [List.head?_reverse]),
    List.reverse_reverse]

end HgToGit.Text
