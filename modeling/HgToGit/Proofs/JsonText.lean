/-
# HgToGit.Proofs.JsonText -- a value in JSON is determined by its text

What is written for a value can be cut off the front of any longer text in one way only
(`Json.isFront_render`), so no two values are written alike (`Json.render_injective`). It is so for
a character of a text, since an escape can be read back, and from there it goes up: a text ends at
the first quotation mark that is not escaped, and behind an item of a list or an object there is a
comma or the closing bracket.
-/
import HgToGit.Report.Json

namespace HgToGit.Report.Json

/-- What is written for a value can be cut off the front of a longer text, and is written for this
value only. -/
def IsFront {α : Type} (write : α → List Char) (a : α) : Prop :=
  ∀ b s t, write a ++ s = write b ++ t → a = b ∧ s = t

/-! ## Texts -/

/-- The number of a hexadecimal digit. -/
def digitValue (c : Char) : Nat :=
  if c.isDigit then c.toNat - '0'.toNat else c.toNat - 'a'.toNat + 10

/-- The character that a letter stands for behind a backslash. -/
def escaped (letter : Char) : Char :=
  match letter with
  | 'b' => '\x08'
  | 't' => '\t'
  | 'n' => '\n'
  | 'f' => '\x0c'
  | 'r' => '\r'
  | mark => mark

/-- Reads the character that stands at the front of the inside of a text. -/
def unescape? : List Char → Option (Char × List Char)
  | '\\' :: 'u' :: _ :: _ :: high :: low :: cs =>
    some (Char.ofNat (16 * digitValue high + digitValue low), cs)
  | '\\' :: letter :: cs => some (escaped letter, cs)
  | c :: cs => some (c, cs)
  | [] => none

theorem digitValue_hexDigit : ∀ n < 16, digitValue (hexDigit n) = n := by
  decide

theorem unescape?_cons {c : Char} (h : c ≠ '\\') (s : List Char) :
    unescape? (c :: s) = some (c, s) := by
  unfold unescape?
  split <;> simp_all

/-- A control character is read back from its number. -/
theorem unescape?_number {c : Char} (h : c < ' ') (s : List Char) :
    unescape? ('\\' :: 'u' :: '0' :: '0' ::
      hexDigit (c.toNat / 16) :: hexDigit (c.toNat % 16) :: s) = some (c, s) := by
  have hlt : c.toNat < 32 := h
  rw [unescape?, digitValue_hexDigit _ (by omega), digitValue_hexDigit _ (by omega),
    Nat.div_add_mod, Char.ofNat_toNat]

theorem unescape?_escape_append (c : Char) (s : List Char) :
    unescape? (escape c ++ s) = some (c, s) := by
  unfold escape
  split
  next h => rcases h with rfl | rfl <;> rfl
  next hmark =>
    repeat' split
    -- Five characters have a letter.
    iterate 5 next h => rw [h]; rfl
    next h => exact unescape?_number h s
    next => exact unescape?_cons (fun h => hmark (.inr h)) s

theorem escape_append_inj {c d : Char} {s t : List Char} (h : escape c ++ s = escape d ++ t) :
    c = d ∧ s = t := by
  have hread := congrArg unescape? h
  rw [unescape?_escape_append, unescape?_escape_append] at hread
  exact Prod.mk.inj (Option.some.inj hread)

/-- A quotation mark inside a text is escaped. -/
theorem escape_append_ne_quote (c : Char) (s t : List Char) : escape c ++ s ≠ '\x22' :: t := by
  intro h
  have hread := congrArg unescape? h
  rw [unescape?_escape_append] at hread
  obtain ⟨rfl, -⟩ := Prod.mk.inj (Option.some.inj hread)
  cases h

theorem flatMap_escape_append_inj {cs ds s t : List Char}
    (h : cs.flatMap escape ++ '\x22' :: s = ds.flatMap escape ++ '\x22' :: t) :
    cs = ds ∧ s = t := by
  induction cs generalizing ds with
  | nil =>
      cases ds with
      | nil => exact ⟨rfl, (List.cons.inj h).2⟩
      | cons d ds =>
          rw [List.flatMap_cons, List.append_assoc] at h
          exact absurd h.symm (escape_append_ne_quote d _ _)
  | cons c cs ih =>
      rw [List.flatMap_cons, List.append_assoc] at h
      cases ds with
      | nil => exact absurd h (escape_append_ne_quote c _ _)
      | cons d ds =>
          rw [List.flatMap_cons, List.append_assoc] at h
          obtain ⟨rfl, hrest⟩ := escape_append_inj h
          obtain ⟨rfl, rfl⟩ := ih hrest
          exact ⟨rfl, rfl⟩

theorem toList_quote (text : String) :
    (quote text).toList = '\x22' :: (text.toList.flatMap escape ++ ['\x22']) := by
  simp only [quote, String.toList_append, String.toList_ofList]
  rfl

theorem isFront_quote (text : String) : IsFront (fun text => (quote text).toList) text := by
  intro text' s t h
  simp only [toList_quote, List.cons_append, List.append_assoc, List.cons.injEq, true_and,
    List.nil_append] at h
  obtain ⟨htext, rfl⟩ := flatMap_escape_append_inj h
  exact ⟨String.toList_inj.mp htext, rfl⟩

/-! ## Lists -/

theorem toList_intercalate_cons (x : String) (xs : List String) :
    (",".intercalate (x :: xs)).toList =
      x.toList ++ if xs = [] then [] else ',' :: (",".intercalate xs).toList := by
  by_cases hxs : xs = []
  · rw [if_pos hxs, hxs, String.intercalate_singleton, List.append_nil]
  · rw [if_neg hxs, String.intercalate_cons_of_ne_nil hxs, String.toList_append,
      String.toList_append, List.append_assoc]
    rfl

/-- Items with commas between them and a bracket behind them can be told apart, if each of them can
and none begins with the bracket. -/
theorem intercalate_append_inj {α : Type} {write : α → String} {close : Char}
    (hcomma : close ≠ ',') (hclose : ∀ a s t, (write a).toList ++ s ≠ close :: t)
    {l l' : List α} {s t : List Char} (hl : ∀ a ∈ l, IsFront (fun a => (write a).toList) a)
    (h : (",".intercalate (l.map write)).toList ++ close :: s =
      (",".intercalate (l'.map write)).toList ++ close :: t) : l = l' ∧ s = t := by
  induction l generalizing l' with
  | nil =>
      cases l' with
      | nil => exact ⟨rfl, (List.cons.inj (List.append_cancel_left h)).2⟩
      | cons b l' =>
          rw [List.map_cons, toList_intercalate_cons, List.append_assoc] at h
          exact absurd h.symm (hclose b _ _)
  | cons a l ih =>
      obtain ⟨ha, hl⟩ := List.forall_mem_cons.mp hl
      rw [List.map_cons, toList_intercalate_cons, List.append_assoc] at h
      cases l' with
      | nil => exact absurd h (hclose a _ _)
      | cons b l' =>
          rw [List.map_cons, toList_intercalate_cons, List.append_assoc] at h
          obtain ⟨rfl, hrest⟩ := ha b _ _ h
          -- What follows tells whether there are more items.
          cases l with
          | nil =>
              cases l' with
              | nil => exact ⟨rfl, (List.cons.inj hrest).2⟩
              | cons _ _ => exact absurd (List.cons.inj hrest).1 hcomma
          | cons _ _ =>
              cases l' with
              | nil => exact absurd (List.cons.inj hrest).1.symm hcomma
              | cons _ _ =>
                  obtain ⟨hitems, rfl⟩ := ih hl (List.cons.inj hrest).2
                  exact ⟨congrArg (a :: ·) hitems, rfl⟩

/-! ## Values -/

/-- A member of an object as it is written. -/
def renderMember (member : String × Json) : String := quote member.1 ++ ":" ++ render member.2

theorem renderItems_eq_map (items : List Json) : renderItems items = items.map render := by
  induction items with
  | nil => rw [renderItems, List.map_nil]
  | cons item more ih => rw [renderItems, ih, List.map_cons]

theorem renderMembers_eq_map (members : List (String × Json)) :
    renderMembers members = members.map renderMember := by
  induction members with
  | nil => rw [renderMembers, List.map_nil]
  | cons member more ih =>
      rw [renderMembers, ih, List.map_cons]
      rfl

theorem toList_render_list (items : List Json) (s : List Char) :
    (render (.list items)).toList ++ s =
      '[' :: ((",".intercalate (items.map render)).toList ++ ']' :: s) := by
  rw [render, renderItems_eq_map, String.toList_append, String.toList_append, List.append_assoc,
    List.append_assoc]
  rfl

theorem toList_render_object (members : List (String × Json)) (s : List Char) :
    (render (.object members)).toList ++ s =
      '\x7b' :: ((",".intercalate (members.map renderMember)).toList ++ '\x7d' :: s) := by
  rw [render, renderMembers_eq_map, String.toList_append, String.toList_append,
    List.append_assoc, List.append_assoc]
  rfl

/-- The character with which a value begins, which tells its form. -/
def lead : Json → Char
  | bool true => 't'
  | bool false => 'f'
  | text _ => '\x22'
  | list _ => '['
  | object _ => '\x7b'

theorem head?_render_append (v : Json) (s : List Char) :
    ((render v).toList ++ s).head? = some v.lead := by
  cases v with
  | bool value => cases value <;> rfl
  | text value =>
      rw [render, toList_quote]
      rfl
  | list items =>
      rw [toList_render_list]
      rfl
  | object members =>
      rw [toList_render_object]
      rfl

theorem render_append_ne_bracket (v : Json) (s t : List Char) :
    (render v).toList ++ s ≠ ']' :: t := by
  intro h
  have hlead := congrArg List.head? h
  rw [head?_render_append] at hlead
  cases v with
  | bool value => cases value <;> cases hlead
  | text | list | object => cases hlead

theorem renderMember_append_ne_brace (member : String × Json) (s t : List Char) :
    (renderMember member).toList ++ s ≠ '\x7d' :: t := by
  rw [renderMember, String.toList_append, String.toList_append, toList_quote]
  exact nofun

theorem isFront_renderMember {member : String × Json}
    (h : IsFront (fun v => (render v).toList) member.2) :
    IsFront (fun member => (renderMember member).toList) member := by
  intro member' s t heq
  simp only [renderMember, String.toList_append, List.append_assoc] at heq
  obtain ⟨hname, hrest⟩ := isFront_quote member.1 _ _ _ heq
  obtain ⟨hvalue, rfl⟩ := h _ _ _ (List.cons.inj hrest).2
  exact ⟨Prod.ext hname hvalue, rfl⟩

/-- **A value can be cut off the front of a longer text in one way only.** -/
theorem isFront_render (v : Json) : IsFront (fun v => (render v).toList) v := by
  intro v' s t h
  have hlead : v.lead = v'.lead := by
    have hhead := congrArg List.head? h
    rw [head?_render_append, head?_render_append] at hhead
    exact Option.some.inj hhead
  -- The first character leaves values of one form, and the items are smaller than the value.
  match v with
  | .bool value =>
      cases v' with
      | bool value' =>
          cases value <;> cases value' <;> first
            | exact ⟨rfl, List.append_cancel_left h⟩
            | cases hlead
      | text | list | object => cases value <;> cases hlead
  | .text value =>
      cases v' with
      | text value' =>
          obtain ⟨rfl, rfl⟩ := isFront_quote value value' s t h
          exact ⟨rfl, rfl⟩
      | bool value' => cases value' <;> cases hlead
      | list | object => cases hlead
  | .list items =>
      cases v' with
      | list items' =>
          have hitems : ∀ item ∈ items, IsFront (fun v => (render v).toList) item :=
            fun item hitem => isFront_render item
          simp only [toList_render_list] at h
          obtain ⟨rfl, rfl⟩ := intercalate_append_inj (by decide) render_append_ne_bracket hitems
            (List.cons.inj h).2
          exact ⟨rfl, rfl⟩
      | bool value' => cases value' <;> cases hlead
      | text | object => cases hlead
  | .object members =>
      cases v' with
      | object members' =>
          have hmembers : ∀ member ∈ members,
              IsFront (fun member => (renderMember member).toList) member :=
            fun member hmember => isFront_renderMember (isFront_render member.2)
          simp only [toList_render_object] at h
          obtain ⟨rfl, rfl⟩ := intercalate_append_inj (by decide) renderMember_append_ne_brace
            hmembers (List.cons.inj h).2
          exact ⟨rfl, rfl⟩
      | bool value' => cases value' <;> cases hlead
      | text | list => cases hlead
termination_by sizeOf v
decreasing_by
  · have hlt : sizeOf item < sizeOf items := List.sizeOf_lt_of_mem hitem
    rw [list.sizeOf_spec]
    omega
  · have hlt : sizeOf member < sizeOf members := List.sizeOf_lt_of_mem hmember
    obtain ⟨name, value⟩ := member
    show sizeOf value < sizeOf (object members)
    rw [Prod.mk.sizeOf_spec] at hlt
    rw [object.sizeOf_spec]
    omega

/-- No two values are written alike. -/
theorem render_injective : Function.Injective render := by
  intro v v' h
  exact (isFront_render v v' [] [] (congrArg (fun text => text.toList ++ []) h)).1

end HgToGit.Report.Json
