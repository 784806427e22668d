import Gherkin.Line.Cells
import Gherkin.Text.Lines

/-! Pages: the lines of a rendered element. Indentation goes in front of every line that is not
empty; a part that stands apart is preceded by one empty line, never at the start and never
twice. -/

namespace Gherkin.Page

/-- A line at a depth; an empty line is not indented. -/
def line (indent : Text) (depth : Nat) (text : Text) : Text :=
  if text = [] then [] else (List.replicate depth indent).flatten ++ text

/-- The lines of a text at a depth. -/
def block (indent : Text) (depth : Nat) (text : Text) : List Text :=
  text.lines.map (line indent depth)

/-- The page followed by one empty line, unless it is empty or ends in an empty line. -/
def gap (page : List Text) : List Text :=
  match page.getLast? with
  | none | some [] => page
  | some (_ :: _) => page ++ [[]]

/-- Puts `more` after the page and a gap. -/
def apart (page more : List Text) : List Text := gap page ++ more

/-! ### Tables -/

/-- The width of a column: that of its widest cell. -/
def width (rows : List (List Text)) (column : Nat) : Nat :=
  ((rows.filterMap (·[column]?)).map List.length).max?.getD 0

/-- The text filled up with spaces to a width. -/
def pad (width : Nat) (t : Text) : Text := t ++ List.replicate (width - t.length) ' '

/-- A row of written cells between pipes. -/
def rowText (cells : List Text) : Text :=
  if cells = [] then ['|'] else "| ".toList ++ List.intercalate " | ".toList cells ++ " |".toList

/-- The rows of a table with every column padded to its widest cell. -/
def tableRows (rows : List (List Text)) : List Text :=
  let written := rows.map (List.map Cell.escape)
  written.map fun row => rowText (row.mapIdx fun k cell => pad (width written k) cell)

/-- A table at a depth. -/
def table (indent : Text) (depth : Nat) (rows : List (List Text)) : List Text :=
  (tableRows rows).map (line indent depth)

end Gherkin.Page
