/-
# HgToGit.Proofs.TokenLanguage -- what tokens are, and when a joined text keeps them

A token of a text is complete or a quoted run without end. A complete token is the first token of
any text in which a blank, or nothing, follows it. A run without end goes on over the blank, so it
cannot stand before another token. `tokenize_join_iff` says that this is all there is to it: tokens
joined with single spaces are read back exactly if no run without end stands before the last place.

The scanner carries the proof: what it has read of a token is sound at every place (`sound_scan`),
and a token leaves it only when it is complete.
-/
import HgToGit.Proofs.TokenScan

namespace HgToGit.Token

open HgToGit.Text (isBlank)

/-! ## Complete tokens -/

/-- A token that ends where a blank follows it. -/
def IsComplete (t : List Char) : Prop := IsBare t ∨ IsClosed t

theorem isBlank_of_isQuote {c : Char} (h : isQuote c = true) : isBlank c = false := by
  simp only [isQuote, Bool.or_eq_true, decide_eq_true_eq] at h
  rcases h with rfl | rfl <;> decide

theorem isBare_singleton {c : Char} (hblank : isBlank c = false) (hquote : isQuote c = false) :
    IsBare [c] := by
  refine ⟨by simp, ?_, ?_⟩
  · intro x hx
    rw [List.mem_singleton.mp hx]
    exact hblank
  · intro x hx
    obtain rfl : c = x := Option.some.inj hx
    exact hquote

theorem IsComplete.concat {t : List Char} (ht : IsComplete t) {c : Char}
    (hc : isBlank c = false) : IsComplete (t ++ [c]) := by
  rcases ht with ⟨hne, hblank, hquote⟩ | ⟨q, inner, tail, rfl, hq, hinner, htail⟩
  · refine Or.inl ⟨by simp, ?_, ?_⟩
    · intro x hx
      rcases List.mem_append.mp hx with hx | hx
      · exact hblank x hx
      · rw [List.mem_singleton.mp hx]
        exact hc
    · intro x hx
      obtain ⟨d, t, rfl⟩ := List.exists_cons_of_ne_nil hne
      exact hquote x hx
  · refine Or.inr ⟨q, inner, tail ++ [c], by simp, hq, hinner, ?_⟩
    intro x hx
    rcases List.mem_append.mp hx with hx | hx
    · exact htail x hx
    · rw [List.mem_singleton.mp hx]
      exact hc

/-- No token is both: a bare one begins with no quote, and a closed run has its quote twice. -/
theorem IsComplete.not_isUnterminated {t : List Char} (ht : IsComplete t) :
    ¬ IsUnterminated t := by
  rintro ⟨q, inner, rfl, hq, hinner⟩
  rcases ht with ⟨-, -, hquote⟩ | ⟨q', inner', tail, h, -, -, -⟩
  · have hnot : isQuote q = false := hquote q rfl
    exact absurd (hq.symm.trans hnot) (by decide)
  · obtain ⟨rfl, hrest⟩ := List.cons.inj h
    apply hinner
    rw [hrest]
    simp

/-! ## What a scan yields -/

/-- What a scan has read of a token: a complete token, or a quoted run that is still open. -/
def Pending.Sound : Pending → Prop
  | .gap => True
  | .bare reversed => IsComplete reversed.reverse
  | .quoted quote reversed =>
    isQuote quote = true ∧ ∃ inner, reversed.reverse = quote :: inner ∧ quote ∉ inner

/-- One character keeps what has been read sound, and a token that it ends is complete. -/
theorem Pending.sound_next {p : Pending} (hp : p.Sound) (c : Char) :
    (p.next c).2.Sound ∧ ∀ t ∈ (p.next c).1, IsComplete t := by
  cases p with
  | gap =>
      by_cases hblank : isBlank c = true
      · simp [Pending.next, hblank, Pending.Sound]
      · rw [Bool.not_eq_true] at hblank
        by_cases hquote : isQuote c = true
        · simp [Pending.next, hblank, hquote, Pending.Sound]
        · rw [Bool.not_eq_true] at hquote
          have hbare : IsComplete [c] := Or.inl (isBare_singleton hblank hquote)
          simpa [Pending.next, hblank, hquote, Pending.Sound] using hbare
  | bare reversed =>
      have hread : IsComplete reversed.reverse := hp
      by_cases hblank : isBlank c = true
      · simpa [Pending.next, hblank, Pending.Sound] using hread
      · rw [Bool.not_eq_true] at hblank
        simpa [Pending.next, hblank, Pending.Sound] using hread.concat hblank
  | quoted quote reversed =>
      obtain ⟨hquote, inner, hread, hinner⟩ := hp
      by_cases hc : c = quote
      · subst hc
        have hclosed : IsComplete (c :: inner ++ [c]) :=
          Or.inr ⟨c, inner, [], rfl, hquote, hinner, by simp⟩
        simpa [Pending.next, Pending.Sound, hread] using hclosed
      · have hmore : quote ∉ inner ++ [c] := by
          rw [List.mem_append, List.mem_singleton, not_or]
          exact ⟨hinner, fun h => hc h.symm⟩
        refine ⟨?_, by simp [Pending.next, hc]⟩
        simp only [Pending.next, if_neg hc, Pending.Sound]
        exact ⟨hquote, inner ++ [c], by simp [hread], hmore⟩

/-- A text keeps what has been read sound, and the tokens that end in it are complete. -/
theorem sound_scan {p : Pending} (hp : p.Sound) (cs : List Char) :
    (scan p cs).2.Sound ∧ ∀ t ∈ (scan p cs).1, IsComplete t := by
  induction cs generalizing p with
  | nil => exact ⟨hp, by simp [scan]⟩
  | cons c cs ih =>
      obtain ⟨hnext, hdone⟩ := p.sound_next hp c
      obtain ⟨hlast, hmore⟩ := ih hnext
      refine ⟨hlast, ?_⟩
      intro t ht
      simp only [scan, List.mem_append, Option.mem_toList] at ht
      rcases ht with ht | ht
      · exact hdone t ht
      · exact hmore t ht

/-- **Every token is complete or a quoted run without end.** -/
theorem isComplete_or_isUnterminated {cs t : List Char} (h : t ∈ split cs) :
    IsComplete t ∨ IsUnterminated t := by
  obtain ⟨hlast, hdone⟩ := sound_scan (p := .gap) trivial cs
  rw [split_eq_tokensFrom, tokensFrom, List.mem_append] at h
  rcases h with h | h
  · exact Or.inl (hdone t h)
  · cases hp : (scan .gap cs).2 with
    | gap => simp [hp, Pending.flush] at h
    | bare reversed =>
        rw [hp] at hlast h
        rw [List.mem_singleton.mp h]
        exact Or.inl hlast
    | quoted quote reversed =>
        rw [hp] at hlast h
        obtain ⟨hquote, inner, hread, hinner⟩ := hlast
        rw [List.mem_singleton.mp h]
        exact Or.inr ⟨quote, inner, hread, hquote, hinner⟩

theorem isToken_of_mem_tokenize {text token : String} (h : token ∈ tokenize text) :
    IsComplete token.toList ∨ IsUnterminated token.toList := by
  obtain ⟨t, ht, rfl⟩ := List.mem_map.mp h
  rw [String.toList_ofList]
  exact isComplete_or_isUnterminated ht

/-! ## Tokens at the beginning of a text -/

theorem tokensFrom_append (p : Pending) (a b : List Char) :
    tokensFrom p (a ++ b) = (scan p a).1 ++ tokensFrom (scan p a).2 b := by
  simp only [tokensFrom, scan_append, List.append_assoc]

/-- Where a text ends in a gap, the tokens after it are those of what follows. -/
theorem split_append_of_gap {p : List Char} (hp : (scan .gap p).2 = .gap) (cs : List Char) :
    split (p ++ cs) = split p ++ split cs := by
  have hsplit : split p = (scan .gap p).1 := by
    rw [split_eq_tokensFrom, tokensFrom, hp]
    exact List.append_nil _
  rw [split_eq_tokensFrom, tokensFrom_append, hp, hsplit, ← split_eq_tokensFrom]

/-- A quoted run goes on to the next quote. -/
theorem tokensFrom_quoted_append {quote : Char} {inner : List Char} (hinner : quote ∉ inner)
    (reversed rest : List Char) :
    tokensFrom (.quoted quote reversed) (inner ++ rest) =
      tokensFrom (.quoted quote (inner.reverse ++ reversed)) rest := by
  induction inner generalizing reversed with
  | nil => rfl
  | cons c inner ih =>
      rw [List.mem_cons, not_or] at hinner
      have hc : ¬ c = quote := fun h => hinner.1 h.symm
      rw [List.cons_append, tokensFrom_cons]
      simp [Pending.next, hc, ih hinner.2]

theorem split_quote_append {quote : Char} {inner : List Char} (hquote : isQuote quote = true)
    (hinner : quote ∉ inner) (rest : List Char) :
    split (quote :: inner ++ rest) = tokensFrom (.quoted quote (quote :: inner).reverse) rest := by
  have hnext : Pending.next .gap quote = (none, .quoted quote [quote]) := by
    simp [Pending.next, isBlank_of_isQuote hquote, hquote]
  rw [split_eq_tokensFrom, List.cons_append, tokensFrom_cons, hnext, List.reverse_cons]
  exact tokensFrom_quoted_append hinner [quote] rest

theorem split_closed_append {t rest : List Char} (ht : IsClosed t)
    (hrest : ∀ c ∈ rest.head?, isBlank c = true) : split (t ++ rest) = t :: split rest := by
  obtain ⟨quote, inner, tail, rfl, hquote, hinner, htail⟩ := ht
  rw [List.append_assoc, split_quote_append hquote hinner, List.cons_append, tokensFrom_cons]
  simp only [Pending.next, if_true, Option.toList_none, List.nil_append]
  rw [tokensFrom_bare_append htail, tokensFrom_bare_of_break hrest]
  simp

theorem split_complete_append {t rest : List Char} (ht : IsComplete t)
    (hrest : ∀ c ∈ rest.head?, isBlank c = true) : split (t ++ rest) = t :: split rest := by
  rcases ht with ht | ht
  · exact split_bare_append ht hrest
  · exact split_closed_append ht hrest

/-- A quoted run without end is one token. -/
theorem split_unterminated {t : List Char} (ht : IsUnterminated t) : split t = [t] := by
  obtain ⟨quote, inner, rfl, hquote, hinner⟩ := ht
  have h := split_quote_append hquote hinner []
  rw [List.append_nil] at h
  rw [h, tokensFrom_nil, Pending.flush, List.reverse_reverse]

/-- Whatever follows a quoted run without end goes on with it. -/
theorem split_unterminated_append_ne {t rest : List Char} (ht : IsUnterminated t)
    (hrest : rest ≠ []) (ts : List (List Char)) : split (t ++ rest) ≠ t :: ts := by
  obtain ⟨quote, inner, rfl, hquote, hinner⟩ := ht
  obtain ⟨c, rest, rfl⟩ := List.exists_cons_of_ne_nil hrest
  have hnext : ∃ p : Pending, p ≠ .gap ∧ p.text = quote :: inner ++ [c] ∧
      tokensFrom (.quoted quote (quote :: inner).reverse) (c :: rest) = tokensFrom p rest := by
    rw [tokensFrom_cons]
    by_cases hc : c = quote
    · exact ⟨.bare (c :: (quote :: inner).reverse), by simp, by simp [Pending.text],
        by simp [Pending.next, hc]⟩
    · exact ⟨.quoted quote (c :: (quote :: inner).reverse), by simp, by simp [Pending.text],
        by simp [Pending.next, hc]⟩
  obtain ⟨p, hp, htext, htokens⟩ := hnext
  obtain ⟨more, ts', hfirst⟩ := exists_tokensFrom_eq_cons hp rest
  rw [split_quote_append hquote hinner, htokens, hfirst, htext]
  intro h
  have hlength := congrArg List.length (List.cons.inj h).1
  simp only [List.length_append, List.length_cons, List.length_nil] at hlength
  omega

/-! ## Joined tokens -/

/-- With spaces between them, tokens are read back exactly if no run without end comes before
another token. -/
theorem split_intercalate_iff {ts : List (List Char)}
    (hts : ∀ t ∈ ts, IsComplete t ∨ IsUnterminated t) :
    split ([' '].intercalate ts) = ts ↔ ∀ t ∈ ts.dropLast, ¬ IsUnterminated t := by
  induction ts with
  | nil => simp
  | cons t ts ih =>
      have ht : IsComplete t ∨ IsUnterminated t := hts t List.mem_cons_self
      cases ts with
      | nil =>
          rw [List.intercalate_singleton]
          have hone : split t = [t] := by
            rcases ht with ht | ht
            · have hend : ∀ c ∈ ([] : List Char).head?, isBlank c = true := by simp
              simpa using split_complete_append ht hend
            · exact split_unterminated ht
          simp [hone]
      | cons u ts =>
          have hmore := ih fun x hx => hts x (List.mem_cons_of_mem _ hx)
          rw [List.intercalate_cons_cons, List.dropLast_cons_cons, List.forall_mem_cons,
            List.append_assoc]
          rcases ht with ht | ht
          · have hspace : ∀ c ∈ ([' '] ++ [' '].intercalate (u :: ts)).head?, isBlank c = true := by
              intro c hc
              obtain rfl : ' ' = c := Option.some.inj hc
              decide
            rw [split_complete_append ht hspace, List.singleton_append,
              split_blank_cons (by decide), List.cons.injEq, hmore]
            simp [ht.not_isUnterminated]
          · have hne : split (t ++ ([' '] ++ [' '].intercalate (u :: ts))) ≠ t :: u :: ts :=
              split_unterminated_append_ne ht (by simp) (u :: ts)
            constructor
            · intro h
              exact absurd h hne
            · rintro ⟨hnot, -⟩
              exact absurd ht hnot

/-- **Tokens in one text are read back exactly if no quoted run without end stands before another
token.** -/
theorem tokenize_join_iff {tokens : List String}
    (htokens : ∀ t ∈ tokens, IsComplete t.toList ∨ IsUnterminated t.toList) :
    tokenize (join tokens) = tokens ↔ ∀ t ∈ tokens.dropLast, ¬ IsUnterminated t.toList := by
  have hchars : ∀ t ∈ tokens.map String.toList, IsComplete t ∨ IsUnterminated t := by
    intro t ht
    obtain ⟨token, htoken, rfl⟩ := List.mem_map.mp ht
    exact htokens token htoken
  have hread : tokenize (join tokens) = tokens ↔
      split ([' '].intercalate (tokens.map String.toList)) = tokens.map String.toList := by
    have hjoin : (join tokens).toList = [' '].intercalate (tokens.map String.toList) :=
      String.toList_intercalate
    rw [tokenize_eq_iff, hjoin]
  rw [hread, split_intercalate_iff hchars, ← List.map_dropLast]
  simp only [List.forall_mem_map]

end HgToGit.Token
