import ThueProver.Text.Blank
import ThueProver.Text.Width

/-!
# Boxed tables

A table drawn with box characters: a double rule under the header, dashed rules between the rows
and dashed bars between the columns. A column is as wide as its widest line, with one space on
each side; a cell with newlines takes several lines.
-/
namespace ThueProver.Text

inductive Align where
  | left
  | right
  deriving DecidableEq, Repr, Inhabited

structure Column where
  title : String
  align : Align := .left
  deriving DecidableEq, Repr, Inhabited

structure Table where
  columns : List Column
  rows : List (List String)
  deriving DecidableEq, Repr, Inhabited

namespace Table

/-- The lines of a cell. -/
def cellLines (cell : String) : List String := (lines cell.toList).map String.ofList

def cellWidth (cell : String) : Nat := ((cellLines cell).map width).foldl max 0

/-- The widths of the columns, for one list of cells. -/
def widen : List Nat → List String → List Nat
  | widths, [] => widths
  | [], cell :: cells => cellWidth cell :: widen [] cells
  | w :: widths, cell :: cells => max w (cellWidth cell) :: widen widths cells

def widths (table : Table) : List Nat :=
  table.rows.foldl widen (widen [] (table.columns.map (·.title)))

def pad (align : Align) (w : Nat) (line : String) : String :=
  let fill := "".pushn ' ' (w - width line)
  match align with
  | .left => line ++ fill
  | .right => fill ++ line

/-- A horizontal rule. -/
def rule (first fill joint last : String) (widths : List Nat) : String :=
  first ++ joint.intercalate (widths.map fun w => "".intercalate (List.replicate (w + 2) fill)) ++
    last

/-- One line of a row; cells with fewer lines are blank there. -/
def rowLine (columns : List (Align × Nat)) (cells : List (List String)) (index : Nat) : String :=
  "│ " ++ " ┆ ".intercalate
    (columns.zip cells |>.map fun ((align, w), lines) => pad align w (lines[index]?.getD "")) ++ " │"

/-- The lines of a row. -/
def rowLines (columns : List (Align × Nat)) (cells : List String) : List String :=
  let cells := cells.map cellLines
  let height := (cells.map (·.length)).foldl max 0
  (List.range height).map (rowLine columns cells)

/-- All lines of the table from top to bottom. -/
def lines (table : Table) : List String :=
  let widths := table.widths
  let columns := (table.columns.map (·.align)).zip widths
  [rule "┌" "─" "┬" "┐" widths] ++
    rowLines columns (table.columns.map (·.title)) ++
    [rule "╞" "═" "╪" "╡" widths] ++
    [rule "├" "╌" "┼" "┤" widths].intercalate (table.rows.map (rowLines columns)) ++
    [rule "└" "─" "┴" "┘" widths]

/-- The table as text, without a newline at the end. -/
def render (table : Table) : String := "\n".intercalate table.lines

end Table

end ThueProver.Text
