/-
# HgToGit.Proofs.AlignedColumns -- the columns of a table line up

Rows may have different numbers of cells, so a cell that ends its row, and is not filled up, can be
the widest of its column while other rows go on behind that column. The width of a column is taken
over all rows (`Columns.isWidest_width`), so a cell never reaches into the next column, and the cell
in front of it ends, with its filling, exactly where the next one begins (`Columns.Aligned.cons`).

Widths can also be looked up by position in a list that is as long as the longest row; every such
position is in range (`Columns.renderByIndex_eq`).
-/
import HgToGit.Columns
import Mathlib.Algebra.BigOperators.Intervals

namespace HgToGit.Columns

/-! ## Widths -/

/-- A number is the largest number of characters in any cell of a column, and zero if the column has
no cell. -/
structure IsWidest (rows : List (List String)) (column widest : Nat) : Prop where
  /-- No cell has more. -/
  le : ∀ row ∈ rows, ∀ cell, row[column]? = some cell → cell.length ≤ widest
  /-- Some cell has as many. -/
  attained : (∃ row ∈ rows, ∃ cell, row[column]? = some cell ∧ cell.length = widest) ∨
    ((∀ row ∈ rows, row[column]? = none) ∧ widest = 0)

theorem width_cons (row : List String) (rows : List (List String)) (column : Nat) :
    width (row :: rows) column = max ((row[column]?).elim 0 String.length) (width rows column) :=
  rfl

theorem isWidest_width (rows : List (List String)) (column : Nat) :
    IsWidest rows column (width rows column) := by
  induction rows with
  | nil => exact ⟨by simp, .inr ⟨by simp, rfl⟩⟩
  | cons row rows ih =>
      rw [width_cons]
      constructor
      · intro row' hrow' cell hcell
        rcases List.mem_cons.mp hrow' with rfl | hrow'
        · rw [hcell]
          exact Nat.le_max_left _ _
        · exact (ih.le row' hrow' cell hcell).trans (Nat.le_max_right _ _)
      · cases hcell : row[column]? with
        | none =>
            rw [Option.elim_none, Nat.zero_max]
            rcases ih.attained with ⟨row', hrow', hwidest⟩ | ⟨hnone, hzero⟩
            · exact .inl ⟨row', List.mem_cons_of_mem _ hrow', hwidest⟩
            · exact .inr ⟨List.forall_mem_cons.mpr ⟨hcell, hnone⟩, hzero⟩
        | some cell =>
            rw [Option.elim_some]
            rcases Nat.le_total (width rows column) cell.length with hle | hle
            · rw [Nat.max_eq_left hle]
              exact .inl ⟨row, List.mem_cons_self, cell, hcell, rfl⟩
            · rw [Nat.max_eq_right hle]
              rcases ih.attained with ⟨row', hrow', hwidest⟩ | ⟨-, hzero⟩
              · exact .inl ⟨row', List.mem_cons_of_mem _ hrow', hwidest⟩
              · exact .inl ⟨row, List.mem_cons_self, cell, hcell, by omega⟩

/-! ## Rows -/

/-- Where a column begins: behind the columns in front of it and two characters for each. -/
def start (width : Nat → Nat) (column : Nat) : Nat := ∑ k ∈ Finset.range column, (width k + 2)

@[simp] theorem start_zero (width : Nat → Nat) : start width 0 = 0 := rfl

theorem start_succ (width : Nat → Nat) (column : Nat) :
    start width (column + 1) = width 0 + 2 + start (fun k => width (k + 1)) column := by
  rw [start, Finset.sum_range_succ', Nat.add_comm]
  rfl

/-- The text of a row has its cells where the columns begin. -/
structure Aligned (width : Nat → Nat) (cells : List String) (text : String) : Prop where
  /-- A cell begins where its column does. -/
  begins : ∀ j (h : j < cells.length), cells[j].toList <+: text.toList.drop (start width j)
  /-- From the end of a cell up to the next column there are only spaces. -/
  filled : ∀ j (h : j + 1 < cells.length) (i : Nat), start width j + cells[j].length ≤ i →
    i < start width (j + 1) → text.toList[i]? = some ' '
  /-- The text ends with its last cell. -/
  ends : ∀ h : cells ≠ [],
    text.length = start width (cells.length - 1) + (cells.getLast h).length
  /-- A row without cells has no text. -/
  empty : cells = [] → text = ""

namespace Aligned

variable {width : Nat → Nat} {cell text : String} {cells : List String}

theorem nil : Aligned width [] "" where
  begins _ h := absurd h (Nat.not_lt_zero _)
  filled _ h := absurd h (Nat.not_lt_zero _)
  ends h := absurd rfl h
  empty _ := rfl

theorem singleton : Aligned width [cell] cell where
  begins j h := by
    obtain rfl : j = 0 := Nat.lt_one_iff.mp h
    exact List.prefix_refl _
  filled j h := absurd h (by simp)
  ends _ := by simp
  empty h := absurd h (List.cons_ne_nil _ _)

theorem toList_fillUp_gap (width : Nat) (cell : String) :
    (fillUp width cell ++ gap).toList =
      cell.toList ++ List.replicate (width - cell.length + 2) ' ' := by
  rw [fillUp, gap, String.toList_append, String.toList_append, String.toList_ofList,
    List.append_assoc, ← List.replicate_append_replicate]
  rfl

theorem length_fillUp_gap {width : Nat} (h : cell.length ≤ width) :
    (fillUp width cell ++ gap).toList.length = width + 2 := by
  rw [toList_fillUp_gap, List.length_append, List.length_replicate, String.length_toList]
  omega

/-- Behind a cell that is filled up there are spaces only, until the next column begins. -/
theorem getElem?_fillUp_gap {width i : Nat} (hle : cell.length ≤ i) (hlt : i < width + 2) :
    (fillUp width cell ++ gap).toList[i]? = some ' ' := by
  rw [← String.length_toList] at hle
  rw [toList_fillUp_gap, List.getElem?_append_right hle, List.getElem?_replicate, if_pos]
  rw [String.length_toList]
  omega

/-- A cell in front of a row that is aligned from the next column on. -/
theorem cons (hcell : cell.length ≤ width 0) (hcells : cells ≠ [])
    (h : Aligned (fun k => width (k + 1)) cells text) :
    Aligned width (cell :: cells) (fillUp (width 0) cell ++ gap ++ text) := by
  have hfront : (fillUp (width 0) cell ++ gap).toList.length = width 0 + 2 :=
    length_fillUp_gap hcell
  constructor
  · intro j hj
    rw [String.toList_append]
    cases j with
    | zero =>
        rw [toList_fillUp_gap, List.append_assoc]
        exact List.prefix_append _ _
    | succ j =>
        rw [start_succ, ← hfront, List.drop_length_add_append]
        exact h.begins j (Nat.lt_of_succ_lt_succ hj)
  · intro j hj i hle hlt
    rw [String.toList_append]
    cases j with
    | zero =>
        -- The next column begins right behind the front.
        rw [List.getElem_cons_zero, start_zero, Nat.zero_add] at hle
        rw [start_succ, start_zero, Nat.add_zero] at hlt
        rw [List.getElem?_append_left (hlt.trans_eq hfront.symm)]
        exact getElem?_fillUp_gap hle hlt
    | succ j =>
        rw [start_succ] at hle hlt
        rw [List.getElem?_append_right (by omega), hfront]
        refine h.filled j (Nat.lt_of_succ_lt_succ hj) _ ?_ ?_
        · rw [List.getElem_cons_succ] at hle
          omega
        · omega
  · intro _
    rw [List.getLast_cons hcells, List.length_cons, Nat.add_sub_cancel, String.length_append,
      ← String.length_toList, hfront, h.ends hcells]
    obtain ⟨n, hn⟩ := Nat.exists_eq_succ_of_ne_zero (mt List.length_eq_zero_iff.mp hcells)
    rw [hn, start_succ, Nat.succ_sub_one]
    exact (Nat.add_assoc _ _ _).symm
  · exact fun hnil => absurd hnil (List.cons_ne_nil _ _)

end Aligned

theorem rowText_cons (width : Nat → Nat) (column : Nat) (cell : String) {cells : List String}
    (h : cells ≠ []) :
    rowText width column (cell :: cells) =
      fillUp (width column) cell ++ gap ++ rowText width (column + 1) cells := by
  rw [rowText]
  exact h

theorem rowText_succ (width : Nat → Nat) (column : Nat) (cells : List String) :
    rowText width (column + 1) cells = rowText (fun k => width (k + 1)) column cells := by
  induction cells generalizing column with
  | nil => rfl
  | cons cell cells ih =>
      by_cases hcells : cells = []
      · rw [hcells]
        rfl
      · rw [rowText_cons _ _ _ hcells, rowText_cons _ _ _ hcells, ih]

/-- A row is aligned if no cell is wider than its column. -/
theorem aligned_rowText {width : Nat → Nat} {cells : List String}
    (h : ∀ (j : Nat) (cell : String), cells[j]? = some cell → cell.length ≤ width j) :
    Aligned width cells (rowText width 0 cells) := by
  induction cells generalizing width with
  | nil => exact .nil
  | cons cell cells ih =>
      by_cases hcells : cells = []
      · rw [hcells]
        exact .singleton
      · rw [rowText_cons _ _ _ hcells, rowText_succ]
        exact .cons (h 0 cell rfl) hcells (ih fun j => h (j + 1))

/-! ## Widths by position -/

/-- The number of columns of a table, which is that of its longest row. -/
def columns (rows : List (List String)) : Nat := rows.foldr (fun row => max row.length) 0

/-- The widths of the columns, in order. -/
def widths (rows : List (List String)) : List Nat := (List.range (columns rows)).map (width rows)

/-- The text of a cell, whose column is counted from zero. The width is looked up unless the cell is
the last of `count` cells; the cell has no text if there is no width to look up. -/
def cellTextByIndex (widths : List Nat) (count : Nat) (cell : String × Nat) : Option String :=
  if cell.2 + 1 = count then some cell.1 else widths[cell.2]?.map fun width => fillUp width cell.1

/-- The text of a row whose cells are filled up by looking widths up. -/
def rowTextByIndex (widths : List Nat) (cells : List String) : Option String :=
  (cells.zipIdx.mapM (cellTextByIndex widths cells.length)).map gap.intercalate

/-- The text of a table whose rows are written by looking widths up. -/
def renderByIndex (rows : List (List String)) : Option String :=
  (rows.mapM (rowTextByIndex (widths rows))).map "\n".intercalate

theorem length_le_columns {rows : List (List String)} {row : List String} (h : row ∈ rows) :
    row.length ≤ columns rows := by
  induction rows with
  | nil => exact absurd h List.not_mem_nil
  | cons first rows ih =>
      rw [columns, List.foldr_cons]
      rcases List.mem_cons.mp h with rfl | h
      · exact Nat.le_max_left _ _
      · exact (ih h).trans (Nat.le_max_right _ _)

theorem getElem?_widths {rows : List (List String)} {column : Nat} (h : column < columns rows) :
    (widths rows)[column]? = some (width rows column) := by
  rw [widths, List.getElem?_map, List.getElem?_range h, Option.map_some]

theorem mapM_eq_some_map {α β : Type} {f : α → Option β} {g : α → β} {l : List α}
    (h : ∀ a ∈ l, f a = some (g a)) : l.mapM f = some (l.map g) := by
  induction l with
  | nil => rfl
  | cons a l ih =>
      obtain ⟨ha, hl⟩ := List.forall_mem_cons.mp h
      rw [List.mapM_cons, ha, ih hl]
      rfl

/-- The text of a cell, of `count` in its row, with the width of its column. -/
def cellText (width : Nat → Nat) (count : Nat) (cell : String × Nat) : String :=
  if cell.2 + 1 = count then cell.1 else fillUp (width cell.2) cell.1

theorem intercalate_cellText (width : Nat → Nat) (column : Nat) (cells : List String) :
    gap.intercalate ((cells.zipIdx column).map (cellText width (column + cells.length))) =
      rowText width column cells := by
  induction cells generalizing column with
  | nil => exact String.intercalate_nil
  | cons cell cells ih =>
      rw [List.zipIdx_cons, List.map_cons, cellText]
      by_cases hcells : cells = []
      · subst hcells
        rw [if_pos (by simp)]
        exact String.intercalate_singleton
      · have hlength := List.length_pos_iff.mpr hcells
        have hcount : column + (cell :: cells).length = column + 1 + cells.length := by
          rw [List.length_cons]
          omega
        rw [hcount, if_neg (by omega), String.intercalate_cons_of_ne_nil (by simpa using hcells),
          ih, rowText_cons _ _ _ hcells]

/-- A row of the table is written without looking a width up that there is not. -/
theorem rowTextByIndex_eq {rows : List (List String)} {cells : List String} (h : cells ∈ rows) :
    rowTextByIndex (widths rows) cells = some (rowText (width rows) 0 cells) := by
  have hcells : ∀ cell ∈ cells.zipIdx, cellTextByIndex (widths rows) cells.length cell =
      some (cellText (width rows) cells.length cell) := by
    intro cell hcell
    rw [cellTextByIndex, cellText]
    split
    · rfl
    · have hlt : cell.2 < cells.length := by simpa using List.snd_lt_of_mem_zipIdx hcell
      rw [getElem?_widths (hlt.trans_le (length_le_columns h)), Option.map_some]
  have htext := intercalate_cellText (width rows) 0 cells
  rw [Nat.zero_add] at htext
  rw [rowTextByIndex, mapM_eq_some_map hcells, Option.map_some, htext]

theorem renderByIndex_eq (rows : List (List String)) :
    renderByIndex rows = some (render rows) := by
  rw [renderByIndex, mapM_eq_some_map fun _ => rowTextByIndex_eq, Option.map_some, render]

/-- **Columns line up**, however many cells each row has. The text of a table has a line for each
row, in order, whose cells begin where the columns do: behind the widest cells of the columns in
front and two characters for each. Up to the next cell there are only spaces, and behind the last
cell of a row there is nothing. All widths are looked up in range. -/
theorem render_lines_up (rows : List (List String)) :
    (∀ column, IsWidest rows column (width rows column)) ∧
    (∃ lines : List String, render rows = "\n".intercalate lines ∧
      List.Forall₂ (Aligned (width rows)) rows lines) ∧
    render [] = "" ∧
    renderByIndex rows = some (render rows) := by
  refine ⟨isWidest_width rows, ⟨rows.map (rowText (width rows) 0), rfl, ?_⟩,
    String.intercalate_nil, renderByIndex_eq rows⟩
  rw [List.forall₂_map_right_iff, List.forall₂_same]
  intro row hrow
  exact aligned_rowText fun j => (isWidest_width rows j).le row hrow

/-- The widest cell of the first column ends a row of its own. -/
example : render [["a", "bb", "c"], ["ddd"], [], ["e", "f"]] = "a    bb  c\nddd\n\ne    f" := by
  decide +kernel

end HgToGit.Columns
