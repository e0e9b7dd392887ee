/-
# HgToGit.Columns -- rows of cells as aligned text

Every row becomes a line. A cell that is not the last of its row is filled up with spaces to
the width of its column, and two spaces follow it. The width of a column is the largest number
of characters in any of its cells; rows may have different numbers of cells.
-/

namespace HgToGit.Columns

/-- What stands between two columns. -/
def gap : String := "  "

/-- The width of a column, counted from zero. -/
def width (rows : List (List String)) (column : Nat) : Nat :=
  rows.foldr (fun row widest => max ((row[column]?).elim 0 String.length) widest) 0

/-- A cell filled up to a width. -/
def fillUp (width : Nat) (cell : String) : String :=
  cell ++ String.ofList (List.replicate (width - cell.length) ' ')

/-- The text of a row whose first cell stands in the given column. -/
def rowText (width : Nat → Nat) (column : Nat) : List String → String
  | [] => ""
  | [cell] => cell
  | cell :: more => fillUp (width column) cell ++ gap ++ rowText width (column + 1) more

/-- The text of a table, one line for each row. -/
def render (rows : List (List String)) : String :=
  "\n".intercalate (rows.map (rowText (width rows) 0))

end HgToGit.Columns
