/-
# HgToGit.Proofs.PatternMeaning -- what a pattern matches, said without a search

`Leads n r a b` says that what is left of a pattern leads from one place of a text to another in
`n` steps. It has one rule for each way to go on, knows no preference, and lets a repetition go
round as often as it likes. The moves of a remainder give up every way that comes back to a choice
which is still open, so they see fewer ways than the relation has.

`mem_ends_iff` says that they lose no place: a match can end exactly where the pattern leads. A
way that comes back to an open choice can be cut short at that choice, so a shortest way never
does, and the proof counts steps for that reason.
-/
import HgToGit.Pattern.Search
import Mathlib.Data.Nat.Find

namespace HgToGit

/-! ## The relation -/

namespace Cursor

/-- Which ends of the text a place is at. -/
def edges (a : Cursor) : Edges := ⟨a.offset = 0, a.rest.isEmpty⟩

/-- The place after a character. -/
def past (offset : Nat) (c : Char) (cs : List Char) : Cursor := ⟨offset + c.utf8Size, cs⟩

end Cursor

namespace Remainder

/-- What is left of a pattern leads from one place to another in so many steps. -/
inductive Leads : Nat → Remainder → Cursor → Cursor → Prop where
  /-- Nothing is left, and the match ends. -/
  | done (a : Cursor) : Leads 0 [] a a
  | empty {n : Nat} {after : Remainder} {a b : Cursor} :
      Leads n after a b → Leads (n + 1) (.whole .empty :: after) a b
  | symbol {n : Nat} {s : Symbol} {after : Remainder} {offset : Nat} {c : Char}
      {cs : List Char} {b : Cursor} : s.fits c → Leads n after (.past offset c cs) b →
      Leads (n + 1) (.whole (.symbol s) :: after) ⟨offset, c :: cs⟩ b
  | start {n : Nat} {after : Remainder} {a b : Cursor} :
      a.edges.atStart → Leads n after a b → Leads (n + 1) (.whole .start :: after) a b
  | finish {n : Nat} {after : Remainder} {a b : Cursor} :
      a.edges.atFinish → Leads n after a b → Leads (n + 1) (.whole .finish :: after) a b
  | seq {n : Nat} {p q : Pattern} {after : Remainder} {a b : Cursor} :
      Leads n (.whole p :: .whole q :: after) a b → Leads (n + 1) (.whole (.seq p q) :: after) a b
  | altFirst {n : Nat} {p q : Pattern} {after : Remainder} {a b : Cursor} :
      Leads n (.whole p :: after) a b → Leads (n + 1) (.whole (.alt p q) :: after) a b
  | altSecond {n : Nat} {p q : Pattern} {after : Remainder} {a b : Cursor} :
      Leads n (.whole q :: after) a b → Leads (n + 1) (.whole (.alt p q) :: after) a b
  | starNone {n : Nat} {p : Pattern} {after : Remainder} {a b : Cursor} :
      Leads n after a b → Leads (n + 1) (.whole (.star p) :: after) a b
  | starSome {n : Nat} {p : Pattern} {after : Remainder} {a b : Cursor} :
      Leads n (.whole p :: .again p :: after) a b → Leads (n + 1) (.whole (.star p) :: after) a b
  | plus {n : Nat} {p : Pattern} {after : Remainder} {a b : Cursor} :
      Leads n (.whole p :: .again p :: after) a b → Leads (n + 1) (.whole (.plus p) :: after) a b
  | againNone {n : Nat} {p : Pattern} {after : Remainder} {a b : Cursor} :
      Leads n after a b → Leads (n + 1) (.again p :: after) a b
  | againSome {n : Nat} {p : Pattern} {after : Remainder} {a b : Cursor} :
      Leads n (.whole p :: .again p :: after) a b → Leads (n + 1) (.again p :: after) a b

/-- What is left of a pattern leads from one place to another. -/
def LeadsTo (r : Remainder) (a b : Cursor) : Prop := ∃ n, Leads n r a b

end Remainder

/-- A match that goes on with this move leads from one place to another. -/
def Move.LeadsTo : Move → Cursor → Cursor → Prop
  | .done, a, b => a = b
  | .take s left, a, b =>
    ∃ c cs, a.rest = c :: cs ∧ s.fits c ∧ left.LeadsTo (.past a.offset c cs) b

/-- A repetition that goes on after an iteration leads where it leads from its beginning, in as
many steps. -/
theorem Remainder.Leads.star_of_again {n : Nat} {p : Pattern} {after : Remainder} {a b : Cursor}
    (h : Leads n (.again p :: after) a b) : Leads n (.whole (.star p) :: after) a b := by
  cases h with
  | againNone h => exact .starNone h
  | againSome h => exact .starSome h

/-! ## How a pattern leads on, part by part -/

namespace Remainder

variable {after : Remainder} {a b : Cursor} {p q : Pattern}

@[simp] theorem leadsTo_nil : LeadsTo [] a b ↔ a = b := by
  constructor
  · rintro ⟨n, h⟩
    cases h
    rfl
  · rintro rfl
    exact ⟨0, .done a⟩

@[simp] theorem leadsTo_empty : LeadsTo (.whole .empty :: after) a b ↔ after.LeadsTo a b := by
  constructor
  · rintro ⟨n, h⟩
    cases h with
    | empty h => exact ⟨_, h⟩
  · rintro ⟨n, h⟩
    exact ⟨_, .empty h⟩

theorem leadsTo_symbol {s : Symbol} :
    LeadsTo (.whole (.symbol s) :: after) a b ↔
      ∃ c cs, a.rest = c :: cs ∧ s.fits c ∧ after.LeadsTo (.past a.offset c cs) b := by
  constructor
  · rintro ⟨n, h⟩
    cases h with
    | symbol hs h => exact ⟨_, _, rfl, hs, _, h⟩
  · obtain ⟨offset, rest⟩ := a
    rintro ⟨c, cs, hrest, hs, n, h⟩
    simp only at hrest
    subst hrest
    exact ⟨_, .symbol hs h⟩

theorem leadsTo_start :
    LeadsTo (.whole .start :: after) a b ↔ a.offset = 0 ∧ after.LeadsTo a b := by
  constructor
  · rintro ⟨n, h⟩
    cases h with
    | start hedge h => exact ⟨of_decide_eq_true hedge, _, h⟩
  · rintro ⟨hoffset, n, h⟩
    exact ⟨_, .start (decide_eq_true hoffset) h⟩

theorem leadsTo_finish :
    LeadsTo (.whole .finish :: after) a b ↔ a.rest = [] ∧ after.LeadsTo a b := by
  constructor
  · rintro ⟨n, h⟩
    cases h with
    | finish hedge h => exact ⟨List.isEmpty_iff.mp hedge, _, h⟩
  · rintro ⟨hrest, n, h⟩
    exact ⟨_, .finish (List.isEmpty_iff.mpr hrest) h⟩

@[simp] theorem leadsTo_seq :
    LeadsTo (.whole (.seq p q) :: after) a b ↔ LeadsTo (.whole p :: .whole q :: after) a b := by
  constructor
  · rintro ⟨n, h⟩
    cases h with
    | seq h => exact ⟨_, h⟩
  · rintro ⟨n, h⟩
    exact ⟨_, .seq h⟩

theorem leadsTo_alt :
    LeadsTo (.whole (.alt p q) :: after) a b ↔
      LeadsTo (.whole p :: after) a b ∨ LeadsTo (.whole q :: after) a b := by
  constructor
  · rintro ⟨n, h⟩
    cases h with
    | altFirst h => exact Or.inl ⟨_, h⟩
    | altSecond h => exact Or.inr ⟨_, h⟩
  · rintro (⟨n, h⟩ | ⟨n, h⟩)
    · exact ⟨_, .altFirst h⟩
    · exact ⟨_, .altSecond h⟩

theorem leadsTo_again :
    LeadsTo (.again p :: after) a b ↔
      after.LeadsTo a b ∨ LeadsTo (.whole p :: .again p :: after) a b := by
  constructor
  · rintro ⟨n, h⟩
    cases h with
    | againNone h => exact Or.inl ⟨_, h⟩
    | againSome h => exact Or.inr ⟨_, h⟩
  · rintro (⟨n, h⟩ | ⟨n, h⟩)
    · exact ⟨_, .againNone h⟩
    · exact ⟨_, .againSome h⟩

theorem leadsTo_star :
    LeadsTo (.whole (.star p) :: after) a b ↔ LeadsTo (.again p :: after) a b := by
  rw [leadsTo_again]
  constructor
  · rintro ⟨n, h⟩
    cases h with
    | starNone h => exact Or.inl ⟨_, h⟩
    | starSome h => exact Or.inr ⟨_, h⟩
  · rintro (⟨n, h⟩ | ⟨n, h⟩)
    · exact ⟨_, .starNone h⟩
    · exact ⟨_, .starSome h⟩

theorem leadsTo_plus :
    LeadsTo (.whole (.plus p) :: after) a b ↔ LeadsTo (.whole p :: .again p :: after) a b := by
  constructor
  · rintro ⟨n, h⟩
    cases h with
    | plus h => exact ⟨_, h⟩
  · rintro ⟨n, h⟩
    exact ⟨_, .plus h⟩

/-- What stands at the end of a remainder can be exchanged for what leads as far. -/
theorem LeadsTo.append_mono {r r' first : Remainder} (hr : ∀ a, r.LeadsTo a b → r'.LeadsTo a b)
    (h : LeadsTo (first ++ r) a b) : LeadsTo (first ++ r') a b := by
  obtain ⟨n, h⟩ := h
  -- The steps are those of the first remainder until nothing is left of it.
  induction n using Nat.strongRecOn generalizing first a with
  | ind n ih =>
      cases first with
      | nil => exact hr a ⟨n, h⟩
      | cons i first =>
          cases h with
          | empty h => exact leadsTo_empty.mpr (ih _ (by omega) h)
          | symbol hs h => exact leadsTo_symbol.mpr ⟨_, _, rfl, hs, ih _ (by omega) h⟩
          | start hedge h =>
              exact leadsTo_start.mpr ⟨of_decide_eq_true hedge, ih _ (by omega) h⟩
          | finish hedge h =>
              exact leadsTo_finish.mpr ⟨List.isEmpty_iff.mp hedge, ih _ (by omega) h⟩
          | seq h => exact leadsTo_seq.mpr (@ih _ (by omega) _ (_ :: _ :: first) h)
          | altFirst h => exact leadsTo_alt.mpr (Or.inl (@ih _ (by omega) _ (_ :: first) h))
          | altSecond h => exact leadsTo_alt.mpr (Or.inr (@ih _ (by omega) _ (_ :: first) h))
          | starNone h =>
              exact leadsTo_star.mpr (leadsTo_again.mpr (Or.inl (ih _ (by omega) h)))
          | starSome h =>
              exact leadsTo_star.mpr (leadsTo_again.mpr
                (Or.inr (@ih _ (by omega) _ (_ :: _ :: first) h)))
          | plus h => exact leadsTo_plus.mpr (@ih _ (by omega) _ (_ :: _ :: first) h)
          | againNone h => exact leadsTo_again.mpr (Or.inl (ih _ (by omega) h))
          | againSome h =>
              exact leadsTo_again.mpr (Or.inr (@ih _ (by omega) _ (_ :: _ :: first) h))

theorem leadsTo_append_congr {r r' : Remainder} (first : Remainder)
    (hr : ∀ a, r.LeadsTo a b ↔ r'.LeadsTo a b) :
    LeadsTo (first ++ r) a b ↔ LeadsTo (first ++ r') a b :=
  ⟨LeadsTo.append_mono fun a => (hr a).mp, LeadsTo.append_mono fun a => (hr a).mpr⟩

end Remainder

/-! ## Moves lead only where the pattern does -/

open Remainder

/-- Where a move into a pattern leads, the pattern leads, if the same holds of the moves to what
comes after it. -/
theorem Pattern.leadsTo_of_mem_moves {p : Pattern} {a b : Cursor} {after : Remainder}
    {through : List Remainder → List Move} {opened : List Remainder} {m : Move}
    (hthrough : ∀ opened, ∀ m ∈ through opened, m.LeadsTo a b → after.LeadsTo a b)
    (hm : m ∈ p.moves a.edges after through opened) (h : m.LeadsTo a b) :
    Remainder.LeadsTo (.whole p :: after) a b := by
  induction p generalizing after through opened m with
  | empty => exact leadsTo_empty.mpr (hthrough opened m hm h)
  | symbol s =>
      rw [moves, List.mem_singleton] at hm
      subst hm
      exact leadsTo_symbol.mpr h
  | start =>
      rw [moves] at hm
      split at hm
      · rename_i hedge
        exact leadsTo_start.mpr ⟨of_decide_eq_true hedge, hthrough opened m hm h⟩
      · exact absurd hm List.not_mem_nil
  | finish =>
      rw [moves] at hm
      split at hm
      · rename_i hedge
        exact leadsTo_finish.mpr ⟨List.isEmpty_iff.mp hedge, hthrough opened m hm h⟩
      · exact absurd hm List.not_mem_nil
  | seq p q ihp ihq =>
      rw [moves] at hm
      apply leadsTo_seq.mpr
      refine ihp ?_ hm h
      intro opened m hm h
      exact ihq hthrough hm h
  | alt p q ihp ihq =>
      simp only [moves] at hm
      split at hm
      · exact absurd hm List.not_mem_nil
      · apply leadsTo_alt.mpr
        rcases List.mem_append.mp hm with hm | hm
        · exact Or.inl (ihp hthrough hm h)
        · exact Or.inr (ihq hthrough hm h)
  | star p ih =>
      -- What comes after an iteration is the repetition, which may also end.
      have hagain : ∀ opened, ∀ m ∈ through opened, m.LeadsTo a b →
          Remainder.LeadsTo (.again p :: after) a b := by
        intro opened m hm h
        exact leadsTo_again.mpr (Or.inl (hthrough opened m hm h))
      simp only [moves] at hm
      split at hm
      · exact absurd hm List.not_mem_nil
      · apply leadsTo_star.mpr
        rcases List.mem_append.mp hm with hm | hm
        · exact leadsTo_again.mpr (Or.inr (ih hagain hm h))
        · exact hagain _ m hm h
  | plus p ih =>
      rw [moves] at hm
      apply leadsTo_plus.mpr
      refine ih ?_ hm h
      intro opened m hm h
      exact leadsTo_again.mpr (Or.inl (hthrough opened m hm h))

theorem Remainder.leadsTo_of_mem_moves {r : Remainder} {a b : Cursor}
    {opened : List Remainder} {m : Move} (hm : m ∈ moves a.edges r opened)
    (h : m.LeadsTo a b) : r.LeadsTo a b := by
  induction r generalizing opened m with
  | nil =>
      rw [moves, List.mem_singleton] at hm
      subst hm
      exact leadsTo_nil.mpr h
  | cons i after ih =>
      cases i with
      | whole p =>
          rw [moves] at hm
          exact p.leadsTo_of_mem_moves (fun _ _ hm h => ih hm h) hm h
      | again p =>
          simp only [moves] at hm
          split at hm
          · exact absurd hm List.not_mem_nil
          · apply leadsTo_again.mpr
            rcases List.mem_append.mp hm with hm | hm
            · exact Or.inr (p.leadsTo_of_mem_moves
                (fun _ _ hm _ => absurd hm List.not_mem_nil) hm h)
            · exact Or.inl (ih hm h)

/-! ## The pattern leads only where moves do -/

namespace Remainder

/-- No choice that is open leads from one place to the other in so many steps or fewer. -/
def Unmet (n : Nat) (opened : List Remainder) (a b : Cursor) : Prop :=
  ∀ r ∈ opened, ∀ k ≤ n, ¬ Leads k r a b

theorem Unmet.mono {n k : Nat} {opened : List Remainder} {a b : Cursor}
    (h : Unmet n opened a b) (hk : k ≤ n) : Unmet k opened a b :=
  fun r hr j hj => h r hr j (le_trans hj hk)

theorem Unmet.not_mem {n : Nat} {opened : List Remainder} {a b : Cursor} {r : Remainder}
    (h : Unmet n opened a b) (hr : Leads n r a b) : r ∉ opened :=
  fun hmem => h r hmem n le_rfl hr

/-- A choice can be opened before a way that is shorter than every way from the choice. -/
theorem Unmet.cons {n k : Nat} {opened : List Remainder} {a b : Cursor} {r : Remainder}
    (h : Unmet n opened a b) (hk : k ≤ n) (hleast : ∀ j ≤ k, ¬ Leads j r a b) :
    Unmet k (r :: opened) a b := by
  intro r' hr' j hj
  rcases List.mem_cons.mp hr' with rfl | hr'
  · exact hleast j hj
  · exact h r' hr' j (le_trans hj hk)

/-- Of all ways to lead somewhere, one is shortest. -/
theorem Leads.exists_least {n : Nat} {r : Remainder} {a b : Cursor} (h : Leads n r a b) :
    ∃ k ≤ n, Leads k r a b ∧ ∀ j < k, ¬ Leads j r a b := by
  classical
  have hex : ∃ k, Leads k r a b := ⟨n, h⟩
  exact ⟨Nat.find hex, Nat.find_min' hex h, Nat.find_spec hex, fun j hj => Nat.find_min hex hj⟩

end Remainder

/-- Where a pattern and what comes after it lead, some move leads, if the open choices do not lead
there as fast and what comes after the pattern has such a move itself. -/
theorem Pattern.exists_mem_moves {p : Pattern} {a b : Cursor} {after : Remainder}
    {through : List Remainder → List Move} {opened : List Remainder} {n : Nat}
    (h : Leads n (.whole p :: after) a b) (hopened : Unmet n opened a b)
    (hthrough : ∀ k < n, ∀ wider, opened ⊆ wider → Unmet k wider a b → Leads k after a b →
      ∃ m ∈ through wider, m.LeadsTo a b) :
    ∃ m ∈ p.moves a.edges after through opened, m.LeadsTo a b := by
  induction p generalizing after through opened n with
  | empty =>
      cases h with
      | @empty k _ _ _ h =>
          exact hthrough k (by omega) opened (List.Subset.refl _) (hopened.mono (by omega)) h
  | symbol s =>
      cases h with
      | @symbol k _ _ _ c cs _ hs h =>
          exact ⟨.take s after, List.mem_singleton_self _, c, cs, rfl, hs, k, h⟩
  | start =>
      cases h with
      | @start k _ _ _ hedge h =>
          rw [moves, if_pos hedge]
          exact hthrough k (by omega) opened (List.Subset.refl _) (hopened.mono (by omega)) h
  | finish =>
      cases h with
      | @finish k _ _ _ hedge h =>
          rw [moves, if_pos hedge]
          exact hthrough k (by omega) opened (List.Subset.refl _) (hopened.mono (by omega)) h
  | seq p q ihp ihq =>
      cases h with
      | @seq k _ _ _ _ _ h =>
          rw [moves]
          refine ihp h (hopened.mono (by omega)) fun j hj wider hwider hunmet h => ?_
          exact ihq h hunmet fun i hi widest hwidest =>
            hthrough i (by omega) widest (List.Subset.trans hwider hwidest)
  | alt p q ihp ihq =>
      have hnot : Item.whole (.alt p q) :: after ∉ opened := hopened.not_mem h
      obtain ⟨k, hk, h, hleast⟩ := h.exists_least
      simp only [moves, if_neg hnot, List.mem_append]
      -- A shortest way does not come back here, so both branches may hold the choice open.
      have hbranch : ∀ j < k, Unmet j ((.whole (.alt p q) :: after) :: opened) a b :=
        fun j hj => hopened.cons (by omega) fun i hi => hleast i (by omega)
      cases h with
      | @altFirst j _ _ _ _ _ h =>
          obtain ⟨m, hm, hlead⟩ := ihp h (hbranch j (by omega)) fun i hi wider hwider =>
            hthrough i (by omega) wider (List.subset_of_cons_subset hwider)
          exact ⟨m, Or.inl hm, hlead⟩
      | @altSecond j _ _ _ _ _ h =>
          obtain ⟨m, hm, hlead⟩ := ihq h (hbranch j (by omega)) fun i hi wider hwider =>
            hthrough i (by omega) wider (List.subset_of_cons_subset hwider)
          exact ⟨m, Or.inr hm, hlead⟩
  | star p ih =>
      have hnot : Item.whole (.star p) :: after ∉ opened := hopened.not_mem h
      obtain ⟨k, hk, h, hleast⟩ := h.exists_least
      simp only [moves, if_neg hnot, List.mem_append]
      have hbody : ∀ j < k, Unmet j ((.whole (.star p) :: after) :: opened) a b :=
        fun j hj => hopened.cons (by omega) fun i hi => hleast i (by omega)
      cases h with
      | @starNone j _ _ _ _ h =>
          obtain ⟨m, hm, hlead⟩ := hthrough j (by omega) _ (List.subset_cons_self _ _)
            (hbody j (by omega)) h
          exact ⟨m, Or.inr hm, hlead⟩
      | @starSome j _ _ _ _ h =>
          -- An iteration that takes nothing would come back to the repetition, which is open.
          obtain ⟨m, hm, hlead⟩ := ih h (hbody j (by omega)) fun i hi wider hwider hunmet h =>
            absurd h.star_of_again (hunmet _ (hwider List.mem_cons_self) i le_rfl)
          exact ⟨m, Or.inl hm, hlead⟩
  | plus p ih =>
      obtain ⟨k, hk, h, hleast⟩ := h.exists_least
      rw [moves]
      cases h with
      | @plus j _ _ _ _ h =>
          refine ih h (hopened.mono (by omega)) fun i hi wider hwider hunmet h => ?_
          cases h with
          | @againNone l _ _ _ _ h =>
              exact hthrough l (by omega) wider hwider (hunmet.mono (by omega)) h
          | @againSome l _ _ _ _ h =>
              -- The iteration that took nothing could have been left out.
              exact absurd h.plus (hleast (l + 1) (by omega))

/-- Where a remainder leads, some move leads, if no open choice leads there as fast. -/
theorem Remainder.exists_mem_moves {r : Remainder} {a b : Cursor} {opened : List Remainder}
    {n : Nat} (h : Leads n r a b) (hopened : Unmet n opened a b) :
    ∃ m ∈ moves a.edges r opened, m.LeadsTo a b := by
  induction r generalizing opened n with
  | nil =>
      cases h
      exact ⟨.done, List.mem_singleton_self _, rfl⟩
  | cons i after ih =>
      cases i with
      | whole p =>
          exact p.exists_mem_moves h hopened fun k hk wider hwider hunmet h => ih h hunmet
      | again p =>
          have hnot : Item.again p :: after ∉ opened := hopened.not_mem h
          obtain ⟨k, hk, h, hleast⟩ := h.exists_least
          simp only [moves, if_neg hnot, List.mem_append]
          have hbody : ∀ j < k, Unmet j ((.again p :: after) :: opened) a b :=
            fun j hj => hopened.cons (by omega) fun i hi => hleast i (by omega)
          cases h with
          | @againNone j _ _ _ _ h =>
              obtain ⟨m, hm, hlead⟩ := ih h (hbody j (by omega))
              exact ⟨m, Or.inr hm, hlead⟩
          | @againSome j _ _ _ _ h =>
              obtain ⟨m, hm, hlead⟩ := p.exists_mem_moves h (hbody j (by omega))
                fun i hi wider hwider hunmet h =>
                  absurd h (hunmet _ (hwider List.mem_cons_self) i le_rfl)
              exact ⟨m, Or.inl hm, hlead⟩

/-! ## Ends -/

namespace Remainder

theorem mem_moves_iff (r : Remainder) (a b : Cursor) :
    (∃ m ∈ r.movesAt a.offset a.rest, m.LeadsTo a b) ↔ r.LeadsTo a b := by
  constructor
  · rintro ⟨m, hm, hlead⟩
    exact leadsTo_of_mem_moves hm hlead
  · rintro ⟨n, h⟩
    exact exists_mem_moves h fun r hr => absurd hr List.not_mem_nil

/-- A match can end exactly where what is left of the pattern leads. -/
theorem mem_ends_iff (r : Remainder) (offset : Nat) (rest : List Char) (b : Cursor) :
    b ∈ r.ends offset rest ↔ r.LeadsTo ⟨offset, rest⟩ b := by
  induction rest generalizing r offset with
  | nil =>
      rw [ends_eq_flatMap, List.mem_flatMap, ← mem_moves_iff]
      refine exists_congr fun m => and_congr_right fun _ => ?_
      cases m with
      | done => exact List.mem_singleton.trans eq_comm
      | take s left => simp [Move.ends, Move.LeadsTo]
  | cons c cs ih =>
      rw [ends_eq_flatMap, List.mem_flatMap, ← mem_moves_iff]
      refine exists_congr fun m => and_congr_right fun _ => ?_
      cases m with
      | done => exact List.mem_singleton.trans eq_comm
      | take s left =>
          rw [Move.ends]
          split
          · rename_i hs
            rw [ih]
            constructor
            · intro h
              exact ⟨c, cs, rfl, hs, h⟩
            · rintro ⟨_, _, hcons, _, h⟩
              cases hcons
              exact h
          · rename_i hs
            constructor
            · intro h
              exact absurd h List.not_mem_nil
            · rintro ⟨_, _, hcons, hs', _⟩
              cases hcons
              exact absurd hs' hs

end Remainder

/-! ## The search of an anchored pattern -/

namespace Pattern

/-- A pattern that only matches at the very beginning of a text is searched for there. -/
theorem find?_eq_head?_of_anchored {p : Pattern}
    (hanchor : ∀ a b, Remainder.LeadsTo [.whole p] a b → a.offset = 0) (text : String) :
    p.find? text = (p.ends 0 text.toList).head? := by
  have hlater : ∀ (cs : List Char) (offset : Nat), 0 < offset → p.ends offset cs = [] := by
    intro cs offset hoffset
    refine List.eq_nil_iff_forall_not_mem.mpr fun b hb => ?_
    have hzero : offset = 0 := hanchor _ b ((Remainder.mem_ends_iff _ offset cs b).mp hb)
    omega
  have hnone : ∀ (cs : List Char) (offset : Nat), 0 < offset → p.first? offset cs = none := by
    intro cs
    induction cs with
    | nil =>
        intro offset hoffset
        rw [first?, hlater [] offset hoffset, List.head?_nil]
    | cons c cs ih =>
        intro offset hoffset
        rw [first?, hlater (c :: cs) offset hoffset, ih (offset + c.utf8Size) (by omega)]
        rfl
  rw [find?_eq_first?]
  cases text.toList with
  | nil => rfl
  | cons c cs =>
      rw [first?, hnone cs _ (by have := c.utf8Size_pos; omega)]
      cases (p.ends 0 (c :: cs)).head? <;> rfl

/-- Where the match of an anchored pattern ends, the pattern leads. -/
theorem leadsTo_of_find? {p : Pattern}
    (hanchor : ∀ a b, Remainder.LeadsTo [.whole p] a b → a.offset = 0) {text : String}
    {b : Cursor} (h : p.find? text = some b) :
    Remainder.LeadsTo [.whole p] ⟨0, text.toList⟩ b := by
  rw [find?_eq_head?_of_anchored hanchor] at h
  exact (Remainder.mem_ends_iff _ 0 text.toList b).mp (List.mem_of_head? h)

/-- An anchored pattern that leads anywhere from the beginning of a text has a match there. -/
theorem find?_isSome_of_leadsTo {p : Pattern}
    (hanchor : ∀ a b, Remainder.LeadsTo [.whole p] a b → a.offset = 0) {text : String}
    {b : Cursor} (h : Remainder.LeadsTo [.whole p] ⟨0, text.toList⟩ b) :
    (p.find? text).isSome := by
  rw [find?_eq_head?_of_anchored hanchor, List.isSome_head?]
  exact List.ne_nil_of_mem ((Remainder.mem_ends_iff _ 0 text.toList b).mpr h)

end Pattern

end HgToGit
