/-
# HgToGit.Proofs.QuotedArgument -- a quoted run is one token, whatever is in it

Where a line has come to the end of a token, a quoted run that begins there is the beginning of one
token, and the token goes on to the next blank. What is between the quotes has no part in where the
other tokens begin and end, nor in the blanks around the line (`exists_tokenize_trim_quoted`). So if a
line names a command, it names it with any other content, and the quoted token stands at the same
place of the arguments (`Registry.names_requote`).
-/
import HgToGit.Proofs.Recognition
import HgToGit.Proofs.Rewording
import HgToGit.Proofs.TokenLanguage

namespace HgToGit

open HgToGit.Text (isBlank trimLeft trimRight trimChars)
open HgToGit.Token (IsBare IsClosed IsGap isQuote isQuoted scan split tokenize)

/-! ## Blanks around a line with a quoted run -/

namespace Text

theorem trimLeft_append_cons {c : Char} (hc : isBlank c = false) (a b : List Char) :
    trimLeft (a ++ c :: b) = trimLeft a ++ c :: b := by
  unfold trimLeft
  rw [List.dropWhile_append]
  split
  · rename_i hempty
    rw [List.isEmpty_iff.mp hempty, List.dropWhile_cons_of_neg (by simp [hc])]
    rfl
  · rfl

theorem trimRight_append_cons {c : Char} (hc : isBlank c = false) (a b : List Char) :
    trimRight (a ++ c :: b) = a ++ c :: trimRight b := by
  have h := trimLeft_append_cons hc b.reverse a.reverse
  have hreverse : (a ++ c :: b).reverse = b.reverse ++ c :: a.reverse := by simp
  show (trimLeft (a ++ c :: b).reverse).reverse = a ++ c :: (trimLeft b.reverse).reverse
  rw [hreverse, h]
  simp

theorem exists_eq_trimRight_append (cs : List Char) : ∃ w, IsGap w ∧ cs = trimRight cs ++ w := by
  refine ⟨(cs.reverse.takeWhile isBlank).reverse, ?_, ?_⟩
  · intro c hc
    exact Token.isGap_takeWhile _ c (List.mem_reverse.mp hc)
  · rw [trimRight, ← List.reverse_append, List.takeWhile_append_dropWhile, List.reverse_reverse]

/-- Blanks at the end of a text have no part in what stands in front of its first blank. -/
theorem takeWhile_trimRight (cs : List Char) :
    (trimRight cs).takeWhile (fun c => !isBlank c) = cs.takeWhile fun c => !isBlank c := by
  obtain ⟨w, hw, hcs⟩ := exists_eq_trimRight_append cs
  have hbreak : ∀ c ∈ w.head?, (!isBlank c) = false := by
    intro c hc
    rw [hw c (List.mem_of_mem_head? hc)]
    rfl
  conv => rhs; rw [hcs, takeWhile_append_of_head? hbreak]

end Text

/-! ## The tokens of a line with a quoted run -/

namespace Token

/-- A text in quotes. -/
def quoted (quote : Char) (content : String) : String :=
  String.ofList (quote :: content.toList ++ [quote])

/-- What stands in front of the first blank of a text. -/
def upToBlank (text : String) : String := String.ofList (text.toList.takeWhile fun c => !isBlank c)

theorem toList_quoted_append (quote : Char) (content text : String) :
    (quoted quote content ++ text).toList = quote :: (content.toList ++ quote :: text.toList) := by
  simp [quoted]

theorem isQuoted_quoted_append {quote : Char} (hquote : isQuote quote = true)
    (content text : String) : isQuoted (quoted quote content ++ text) = true := by
  rw [isQuoted, toList_quoted_append]
  exact hquote

theorem isQuoted_eq_false_of_isBare {word : String} (h : IsBare word.toList) :
    isQuoted word = false := by
  obtain ⟨c, cs, hcons⟩ := List.exists_cons_of_ne_nil h.1
  have hc : isQuote c = false := h.2.2 c (by rw [hcons]; rfl)
  rw [isQuoted, hcons]
  exact hc

theorem scan_trimLeft (cs : List Char) : scan .gap (trimLeft cs) = scan .gap cs := by
  induction cs with
  | nil => rfl
  | cons c cs ih =>
      unfold trimLeft at ih ⊢
      by_cases hc : isBlank c = true
      · rw [List.dropWhile_cons_of_pos hc, ih]
        simp [scan, Pending.next, hc]
      · rw [List.dropWhile_cons_of_neg hc]

theorem split_trimLeft (cs : List Char) : split (trimLeft cs) = split cs := by
  rw [split, scan_trimLeft]
  rfl

/-- A closed run and what follows it up to a blank is one token. -/
theorem split_quoted_append {quote : Char} (hquote : isQuote quote = true) {content : List Char}
    (hcontent : quote ∉ content) (text : List Char) :
    split (quote :: (content ++ quote :: text)) =
      (quote :: (content ++ quote :: text.takeWhile fun c => !isBlank c)) ::
        split (text.dropWhile fun c => !isBlank c) := by
  have hclosed : IsClosed (quote :: content ++ quote :: text.takeWhile fun c => !isBlank c) := by
    refine ⟨quote, content, _, rfl, hquote, hcontent, ?_⟩
    intro c hc
    simpa using List.mem_takeWhile_imp hc
  have hbreak : ∀ c ∈ (text.dropWhile fun c => !isBlank c).head?, isBlank c = true := by
    intro c hc
    simpa using Text.eq_false_of_mem_head?_dropWhile c hc
  have h := split_closed_append hclosed hbreak
  rw [List.append_assoc, List.cons_append, List.cons_append, List.takeWhile_append_dropWhile,
    List.cons_append] at h
  exact h

end Token

section Line

variable {p s : String} {q : Char}

theorem toList_trim_quoted (hq : isQuote q = true) (content : String) :
    (Text.trim (p ++ Token.quoted q content ++ s)).toList =
      trimLeft p.toList ++ q :: (content.toList ++ q :: trimRight s.toList) := by
  have hblank := Token.isBlank_of_isQuote hq
  have htext : (p ++ Token.quoted q content ++ s).toList =
      p.toList ++ q :: (content.toList ++ q :: s.toList) := by
    simp [Token.quoted]
  rw [Text.trim, String.toList_ofList, htext, trimChars, Text.trimLeft_append_cons hblank,
    Text.trimRight_append_cons hblank, Text.trimRight_append_cons hblank]

/-- **A quoted run leaves the other tokens of a line as they are.** -/
theorem exists_tokenize_trim_quoted (hp : (scan .gap p.toList).2 = .gap) (hq : isQuote q = true) :
    ∃ after, ∀ content : String, q ∉ content.toList →
      tokenize (Text.trim (p ++ Token.quoted q content ++ s)) =
        tokenize p ++ (Token.quoted q content ++ Token.upToBlank s) :: after := by
  refine ⟨(split ((trimRight s.toList).dropWhile fun c => !isBlank c)).map String.ofList, ?_⟩
  intro content hcontent
  have hgap : (scan .gap (trimLeft p.toList)).2 = .gap := by
    rw [Token.scan_trimLeft]
    exact hp
  have htoken : String.ofList (q :: (content.toList ++
      q :: (trimRight s.toList).takeWhile fun c => !isBlank c)) =
        Token.quoted q content ++ Token.upToBlank s := by
    rw [Text.takeWhile_trimRight, ← String.toList_inj, Token.toList_quoted_append]
    simp [Token.upToBlank]
  rw [tokenize, toList_trim_quoted hq, Token.split_append_of_gap hgap, Token.split_trimLeft,
    Token.split_quoted_append hq hcontent, List.map_append, List.map_cons, htoken]
  rfl

end Line

/-! ## Recognition -/

namespace Registry

theorem spacesAfterSystem_iff {line : String} : SpacesAfterSystem line ↔
    ∃ behind, line.toList = system.toList ++ behind ∧
      ∀ c ∈ behind.takeWhile isBlank, c = ' ' := by
  constructor
  · rintro ⟨gap, rest, hline, hgap, hrest⟩
    refine ⟨gap ++ rest, by rw [hline, List.append_assoc], ?_⟩
    rw [Text.takeWhile_append_of_head? hrest]
    exact fun c hc => hgap c ((List.takeWhile_prefix _).subset hc)
  · rintro ⟨behind, hline, hspaces⟩
    refine ⟨behind.takeWhile isBlank, behind.dropWhile isBlank, ?_, hspaces,
      Text.eq_false_of_mem_head?_dropWhile⟩
    rw [hline, List.append_assoc, List.takeWhile_append_dropWhile]

variable {p s : String} {q : Char}

/-- The first word and the spaces after it stand in front of the quoted run. -/
theorem spacesAfterSystem_requote (hq : isQuote q = true) {words : List String}
    (hwords : tokenize p = system :: words) {content content' : String}
    (h : SpacesAfterSystem (Text.trim (p ++ Token.quoted q content ++ s))) :
    SpacesAfterSystem (Text.trim (p ++ Token.quoted q content' ++ s)) := by
  have hblank := Token.isBlank_of_isQuote hq
  have hsplit : ∃ ts, split (trimLeft p.toList) = system.toList :: ts := by
    obtain ⟨t, ts, hts, ht, -⟩ := List.map_eq_cons_iff.mp hwords
    refine ⟨ts, ?_⟩
    rw [Token.split_trimLeft, hts, ← ht, String.toList_ofList]
  obtain ⟨ts, hts⟩ := hsplit
  have hfirst : ∀ c ∈ (trimLeft p.toList).head?, isBlank c = false :=
    Text.eq_false_of_mem_head?_dropWhile
  obtain ⟨front, hfront, -, -⟩ :=
    Token.exists_eq_append_of_split hfirst isBare_system.2.2 hts
  -- The run of blanks behind the first word ends in front of the quote.
  have htake : ∀ rest, (front ++ q :: rest).takeWhile isBlank = front.takeWhile isBlank := by
    intro rest
    refine Text.takeWhile_append_of_head? ?_
    intro c hc
    obtain rfl : q = c := Option.some.inj hc
    exact hblank
  rw [spacesAfterSystem_iff, toList_trim_quoted hq, hfront] at h ⊢
  obtain ⟨behind, hbehind, hspaces⟩ := h
  rw [List.append_assoc] at hbehind
  rw [← List.append_cancel_left hbehind, htake] at hspaces
  refine ⟨front ++ q :: (content'.toList ++ q :: trimRight s.toList), List.append_assoc .., ?_⟩
  rw [htake]
  exact hspaces

/-- **A line that names a command names it with any quoted content.** The quoted token is one of the
arguments, and the others are the same. -/
theorem names_requote (hp : (scan .gap p.toList).2 = .gap) (hq : isQuote q = true)
    {content : String} (hcontent : q ∉ content.toList) {command : Handler} {args : List String}
    (h : Names (Text.trim (p ++ Token.quoted q content ++ s)) command args) :
    ∃ before after, ∀ content' : String, q ∉ content'.toList →
      Names (Text.trim (p ++ Token.quoted q content' ++ s)) command
        (before ++ (Token.quoted q content' ++ Token.upToBlank s) :: after) := by
  obtain ⟨after, hafter⟩ := exists_tokenize_trim_quoted (s := s) hp hq
  obtain ⟨⟨word, hword, htokens⟩, hspaces, htakes⟩ := h
  rw [hafter content hcontent] at htokens
  have hquoted : isQuoted (Token.quoted q content ++ Token.upToBlank s) = true :=
    Token.isQuoted_quoted_append hq _ _
  have hne : ∀ word : String, IsBare word.toList →
      Token.quoted q content ++ Token.upToBlank s ≠ word := by
    rintro word hbare rfl
    exact absurd (hquoted.symm.trans (Token.isQuoted_eq_false_of_isBare hbare)) (by decide)
  -- Neither the first word nor the command's word is the quoted token.
  match hbefore : tokenize p with
  | [] =>
      rw [hbefore] at htokens
      exact absurd (List.cons.inj htokens).1 (hne _ isBare_system)
  | [_] =>
      rw [hbefore] at htokens
      exact absurd (List.cons.inj (List.cons.inj htokens).2).1 (hne _ (isBare_of_mem_words hword))
  | first :: second :: before =>
      rw [hbefore] at htokens
      obtain ⟨hfirst, hmore⟩ := List.cons.inj htokens
      obtain ⟨hsecond, hargs⟩ := List.cons.inj hmore
      refine ⟨before, after, fun content' hcontent' => ⟨⟨word, hword, ?_⟩, ?_, ?_⟩⟩
      · rw [hafter content' hcontent', hbefore, hfirst, hsecond]
        rfl
      · exact spacesAfterSystem_requote hq (hbefore.trans (by rw [hfirst])) hspaces
      · refine Or.inl (htakes.resolve_right ?_)
        rw [← hargs]
        exact List.append_ne_nil_of_right_ne_nil _ (List.cons_ne_nil _ _)

end Registry

end HgToGit
