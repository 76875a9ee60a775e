import ContextFree.Table

/-!
# Framed tables

A table is drawn with lines around its cells. A column is as wide as its widest cell, with a
blank on each side. The titles are in capitals and centered, the smaller half of the padding on
the left; all other cells begin at the left. Without rows there is no line below the titles.
-/

namespace ContextFree.Table

/-- A run of blanks. -/
def blanks (n : Nat) : String := String.ofList (List.replicate n ' ')

/-- A text at the left of a column. -/
def alignLeft (width : Nat) (text : String) : String := text ++ blanks (width - text.length)

/-- A text in the middle of a column. -/
def center (width : Nat) (text : String) : String :=
  let padding := width - text.length
  blanks (padding / 2) ++ text ++ blanks (padding - padding / 2)

/-- The titles in capitals. -/
def headings (table : Table) : List String := table.titles.map String.toUpper

/-- The width of each column. -/
def widths (table : Table) : List Nat :=
  table.rows.foldl (fun widths row => List.zipWith (fun w cell => max w cell.length) widths row)
    (table.headings.map String.length)

/-- A horizontal line, with its left end, its crossings and its right end. -/
def rule (widths : List Nat) (left crossing right : String) : String :=
  left ++ crossing.intercalate (widths.map fun w => String.ofList (List.replicate (w + 2) '─')) ++
    right ++ "\n"

/-- A line of cells. -/
def line (cells : List String) : String := "│ " ++ " │ ".intercalate cells ++ " │\n"

/-- The drawing of a table. -/
def framed (table : Table) : String :=
  let widths := table.widths
  rule widths "┌" "┬" "┐" ++
    line (List.zipWith center widths table.headings) ++
    (if table.rows.isEmpty then "" else rule widths "├" "┼" "┤") ++
    String.join (table.rows.map fun row => line (List.zipWith alignLeft widths row)) ++
    rule widths "└" "┴" "┘"

end ContextFree.Table
