import Contraction.Dimensions
import Contraction.Text.Characters

/-!
# The table of dimensions

Dimensions as a table: a row for each kind, with the labels of its primitive part and of its loops.
-/

namespace Contraction.Dimensions

open Text

/-- Labels in a cell; a dash stands for none. -/
def cell (labels : List String) : String :=
  if labels.isEmpty then "-" else ",".intercalate labels

/-- The cells, the headings first. -/
def rows (d : Dimensions) : List (List String) :=
  ["", "primitive", "loop"] ::
    Kind.all.map fun kind => [kind.heading, cell (d.primitive.get kind), cell (d.loop.get kind)]

/-- A cell filled with spaces up to a width. -/
def pad (width : Nat) (text : String) : List Char :=
  text.toList ++ List.replicate (width - text.length) ' '

/-- The width of a column. -/
def columnWidth (rows : List (List String)) (column : Nat) : Nat :=
  (rows.map fun row => (row[column]?.getD "").length).foldl max 0

/-- A row with each cell as wide as its column, two spaces between cells, no blanks at the end. -/
def layoutRow (widths : List Nat) (row : List String) : String :=
  let filled := [' ', ' '].intercalate (widths.zipWith pad row)
  String.ofList (filled.reverse.dropWhile isBlank).reverse

/-- The table, line by line. -/
def table (d : Dimensions) : String :=
  let rows := d.rows
  let widths := (List.range 3).map (columnWidth rows)
  "\n".intercalate (rows.map (layoutRow widths))

end Contraction.Dimensions
