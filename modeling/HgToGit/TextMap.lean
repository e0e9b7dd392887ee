/-
# HgToGit.TextMap -- finite maps keyed by text, in key order

Flags with their arguments, message parameters and configured message texts are all maps
from text to something, and each of them is shown in the order of its keys. `TextMap` keeps
its entries in strictly increasing key order as part of the type. The order is the one of
code points, which is also the order of the UTF-8 bytes.

The view of a map is `get?`. Two maps with the same lookups are the same map
(`TextMap.ext_get?`), so a statement about `get?` is a statement about the whole map.
-/

namespace HgToGit

/-- A finite map from text to `α`. -/
structure TextMap (α : Type) where
  /-- The entries, smallest key first. -/
  entries : List (String × α)
  /-- Keys strictly increase, so no key has two entries. -/
  sorted : entries.Pairwise (fun a b => a.1 < b.1)
  deriving DecidableEq

namespace TextMap

variable {α β : Type}

/-! ## Entry lists -/

/-- The first value filed under a key. -/
def lookup (key : String) : List (String × α) → Option α
  | [] => none
  | (k, v) :: rest => if k = key then some v else lookup key rest

/-- Files a value under a key at its place, replacing what the key had. -/
def insertEntry (key : String) (value : α) : List (String × α) → List (String × α)
  | [] => [(key, value)]
  | (k, v) :: rest =>
    if key < k then (key, value) :: (k, v) :: rest
    else if key = k then (key, value) :: rest
    else (k, v) :: insertEntry key value rest

theorem mem_insertEntry {key : String} {value : α} {e : String × α}
    {l : List (String × α)} (h : e ∈ insertEntry key value l) : e = (key, value) ∨ e ∈ l := by
  induction l with
  | nil => simpa [insertEntry] using h
  | cons hd tl ih =>
    obtain ⟨k, v⟩ := hd
    rw [insertEntry] at h
    split at h
    · simpa using h
    · split at h
      · rcases List.mem_cons.1 h with h | h
        · exact .inl h
        · exact .inr (List.mem_cons_of_mem _ h)
      · rcases List.mem_cons.1 h with h | h
        · exact .inr (h ▸ List.mem_cons_self)
        · exact (ih h).imp id (List.mem_cons_of_mem _)

/-- Of two keys that are neither the same nor in order, the second comes first. -/
theorem lt_of_not_lt_of_ne {a b : String} (h : ¬ a < b) (hne : a ≠ b) : b < a := by
  rcases Std.Trichotomous.rel_or_eq_or_rel_swap (r := ((· < ·) : String → String → Prop))
    (a := a) (b := b) with h' | h' | h'
  · exact absurd h' h
  · exact absurd h' hne
  · exact h'

theorem insertEntry_sorted (key : String) (value : α) {l : List (String × α)}
    (h : l.Pairwise (fun a b => a.1 < b.1)) :
    (insertEntry key value l).Pairwise (fun a b => a.1 < b.1) := by
  induction l with
  | nil => simp [insertEntry]
  | cons hd tl ih =>
    obtain ⟨k, v⟩ := hd
    obtain ⟨hhd, htl⟩ := List.pairwise_cons.1 h
    rw [insertEntry]
    split
    · rename_i hlt
      refine List.pairwise_cons.2 ⟨fun e he => ?_, h⟩
      rcases List.mem_cons.1 he with rfl | he
      · exact hlt
      · exact String.lt_trans hlt (hhd e he)
    · split
      · rename_i heq
        exact List.pairwise_cons.2 ⟨fun e he => heq ▸ hhd e he, htl⟩
      · rename_i hnlt hne
        refine List.pairwise_cons.2 ⟨fun e he => ?_, ih htl⟩
        rcases mem_insertEntry he with rfl | he
        · exact lt_of_not_lt_of_ne hnlt hne
        · exact hhd e he

theorem lookup_insertEntry_self (key : String) (value : α) (l : List (String × α)) :
    lookup key (insertEntry key value l) = some value := by
  induction l with
  | nil => simp [insertEntry, lookup]
  | cons hd tl ih =>
    obtain ⟨k, v⟩ := hd
    rw [insertEntry]
    split
    · simp [lookup]
    · split
      · simp [lookup]
      · rename_i hne
        simp [lookup, Ne.symm hne, ih]

theorem lookup_insertEntry_of_ne {key key' : String} (h : key ≠ key') (value : α)
    (l : List (String × α)) : lookup key' (insertEntry key value l) = lookup key' l := by
  induction l with
  | nil => simp [insertEntry, lookup, h]
  | cons hd tl ih =>
    obtain ⟨k, v⟩ := hd
    rw [insertEntry]
    split
    · simp [lookup, h]
    · split
      · rename_i heq
        subst heq
        simp [lookup, h]
      · by_cases hk : k = key' <;> simp [lookup, hk, ih]

theorem lookup_eq_none_of_forall_ne {key : String} {l : List (String × α)}
    (h : ∀ e ∈ l, e.1 ≠ key) : lookup key l = none := by
  induction l with
  | nil => rfl
  | cons hd tl ih =>
    obtain ⟨k, v⟩ := hd
    have hk : k ≠ key := h (k, v) List.mem_cons_self
    simp [lookup, hk, ih fun e he => h e (List.mem_cons_of_mem _ he)]

/-- In a sorted entry list a lookup finds exactly the entries. -/
theorem lookup_eq_some_iff {l : List (String × α)} (hl : l.Pairwise (fun a b => a.1 < b.1))
    {key : String} {value : α} : lookup key l = some value ↔ (key, value) ∈ l := by
  induction l with
  | nil => simp [lookup]
  | cons hd tl ih =>
    obtain ⟨k, v⟩ := hd
    obtain ⟨hhd, htl⟩ := List.pairwise_cons.1 hl
    by_cases hk : k = key
    · subst hk
      have hnot : ∀ w, (k, w) ∉ tl := fun w hw => String.lt_irrefl _ (hhd (k, w) hw)
      simp [lookup, hnot, eq_comm]
    · simp [lookup, hk, Ne.symm hk, ih htl]

/-! ## Maps -/

/-- The map without entries. -/
def empty : TextMap α := ⟨[], .nil⟩

instance : EmptyCollection (TextMap α) := ⟨empty⟩
instance : Inhabited (TextMap α) := ⟨empty⟩

/-- The value of a key. -/
def get? (m : TextMap α) (key : String) : Option α := lookup key m.entries

/-- Whether a key has a value. -/
def contains (m : TextMap α) (key : String) : Bool := (m.get? key).isSome

/-- Gives a key a value, in place of the one it had. -/
def insert (m : TextMap α) (key : String) (value : α) : TextMap α :=
  ⟨insertEntry key value m.entries, insertEntry_sorted key value m.sorted⟩

/-- Takes a key and its value away. -/
def erase (m : TextMap α) (key : String) : TextMap α :=
  ⟨m.entries.filter (fun e => e.1 ≠ key), m.sorted.filter _⟩

/-- Changes every value and no key. -/
def mapValues (f : α → β) (m : TextMap α) : TextMap β :=
  ⟨m.entries.map (fun e => (e.1, f e.2)), List.Pairwise.map _ (fun _ _ h => h) m.sorted⟩

/-- The keys, smallest first. -/
def keys (m : TextMap α) : List String := m.entries.map Prod.fst

/-- The map with one entry. -/
def singleton (key : String) (value : α) : TextMap α := empty.insert key value

/-- Files the entries of a list one after the other, so the last of several values wins. -/
def ofList (l : List (String × α)) : TextMap α :=
  l.foldl (fun m e => m.insert e.1 e.2) empty

theorem ext_entries {m n : TextMap α} (h : m.entries = n.entries) : m = n := by
  cases m; cases n; cases h; rfl

@[simp] theorem get?_empty (key : String) : (empty : TextMap α).get? key = none := rfl

@[simp] theorem get?_insert_self (m : TextMap α) (key : String) (value : α) :
    (m.insert key value).get? key = some value :=
  lookup_insertEntry_self key value m.entries

theorem get?_insert_of_ne (m : TextMap α) {key key' : String} (h : key ≠ key') (value : α) :
    (m.insert key value).get? key' = m.get? key' :=
  lookup_insertEntry_of_ne h value m.entries

theorem get?_insert (m : TextMap α) (key key' : String) (value : α) :
    (m.insert key value).get? key' = if key = key' then some value else m.get? key' := by
  by_cases h : key = key'
  · subst h; simp
  · simp [h, get?_insert_of_ne m h value]

theorem get?_eq_some_iff {m : TextMap α} {key : String} {value : α} :
    m.get? key = some value ↔ (key, value) ∈ m.entries :=
  lookup_eq_some_iff m.sorted

theorem get?_erase (m : TextMap α) (key key' : String) :
    (m.erase key).get? key' = if key = key' then none else m.get? key' := by
  have h (value : α) :
      (m.erase key).get? key' = some value ↔ key ≠ key' ∧ m.get? key' = some value := by
    rw [get?_eq_some_iff, get?_eq_some_iff]
    simp only [erase, List.mem_filter, decide_eq_true_eq, ne_eq]
    exact ⟨fun ⟨hm, hk⟩ => ⟨fun e => hk e.symm, hm⟩, fun ⟨hk, hm⟩ => ⟨hm, fun e => hk e.symm⟩⟩
  apply Option.ext
  intro value
  by_cases hk : key = key'
  · rw [if_pos hk, h value]
    simp [hk]
  · rw [if_neg hk, h value]
    simp [hk]

theorem get?_mapValues (f : α → β) (m : TextMap α) (key : String) :
    (m.mapValues f).get? key = (m.get? key).map f := by
  obtain ⟨l, hl⟩ := m
  simp only [get?, mapValues]
  clear hl
  induction l with
  | nil => rfl
  | cons hd tl ih =>
    by_cases hk : hd.1 = key <;> simp [lookup, hk, ih]

@[simp] theorem contains_eq (m : TextMap α) (key : String) :
    m.contains key = (m.get? key).isSome := rfl

theorem mem_keys_iff {m : TextMap α} {key : String} : key ∈ m.keys ↔ (m.get? key).isSome := by
  rw [Option.isSome_iff_exists]
  simp [keys, get?_eq_some_iff]

/-- Maps are determined by their lookups. -/
theorem ext_get? {m n : TextMap α} (h : ∀ key, m.get? key = n.get? key) : m = n := by
  have hmem : ∀ e, e ∈ m.entries ↔ e ∈ n.entries := fun ⟨k, v⟩ => by
    rw [← get?_eq_some_iff, ← get?_eq_some_iff, h]
  apply ext_entries
  obtain ⟨l, hl⟩ := m
  obtain ⟨l', hl'⟩ := n
  simp only at hmem ⊢
  clear h
  induction l generalizing l' with
  | nil =>
    cases l' with
    | nil => rfl
    | cons e tl => exact absurd ((hmem e).2 List.mem_cons_self) (by simp)
  | cons a tl ih =>
    cases l' with
    | nil => exact absurd ((hmem a).1 List.mem_cons_self) (by simp)
    | cons b tl' =>
      obtain ⟨ha, htl⟩ := List.pairwise_cons.1 hl
      obtain ⟨hb, htl'⟩ := List.pairwise_cons.1 hl'
      have hab : a = b := by
        rcases List.mem_cons.1 ((hmem a).1 List.mem_cons_self) with h | h
        · exact h
        · rcases List.mem_cons.1 ((hmem b).2 List.mem_cons_self) with h' | h'
          · exact h'.symm
          · exact absurd (hb a h) (String.lt_asymm (ha b h'))
      subst hab
      congr 1
      refine ih htl tl' htl' fun e => ?_
      have hne : ∀ {t : List (String × α)}, (∀ x ∈ t, a.1 < x.1) → e ∈ t → e ≠ a :=
        fun hx he heq => String.lt_irrefl _ (heq ▸ hx e he)
      have := hmem e
      simp only [List.mem_cons] at this
      constructor
      · intro he
        exact (this.1 (.inr he)).resolve_left (hne ha he)
      · intro he
        exact (this.2 (.inr he)).resolve_left (hne hb he)

end TextMap

end HgToGit
