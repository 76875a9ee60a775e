/-!
# What is written

A program writes texts and tables. How a table is drawn is not its concern: it names the columns and
hands over the rows, and whoever prints them draws the table.
-/

namespace ContextFree

/-- A table with a title for each column. -/
structure Table where
  /-- The titles of the columns. -/
  titles : List String
  /-- The cells, row by row. -/
  rows : List (List String)
deriving DecidableEq

/-- Something that is written. -/
inductive Written where
  /-- A text. -/
  | text (s : String)
  /-- A table. -/
  | table (t : Table)
deriving DecidableEq

/-- What is printed, given how tables are drawn. -/
def Written.print (draw : Table → String) : Written → String
  | text s => s
  | table t => draw t

end ContextFree
