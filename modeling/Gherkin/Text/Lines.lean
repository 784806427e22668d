import Gherkin.Text.Split

/-! The lines of a text. A line ends at a line feed, and a carriage return right before it belongs
to the line end. -/

namespace Gherkin.Text

/-- The lines of a text, line feeds removed. There is always at least one line. -/
def lines (t : Text) : List Text := splitOn '\n' t

/-- Lines joined with line feeds. -/
def unlines (ls : List Text) : Text := joinWith '\n' ls

/-- The line without one carriage return at its end. -/
def dropReturn (line : Text) : Text :=
  if line.getLast? = some '\r' then line.dropLast else line

theorem lines_ne_nil (t : Text) : lines t ≠ [] := splitOn_ne_nil t

theorem unlines_lines (t : Text) : unlines (lines t) = t := joinWith_splitOn t

theorem not_mem_lines {t l : Text} (h : l ∈ lines t) : '\n' ∉ l := not_mem_of_mem_splitOn h

theorem lines_unlines (l : Text) (ls : List Text) (h : ∀ m ∈ l :: ls, '\n' ∉ m) :
    lines (unlines (l :: ls)) = l :: ls := splitOn_joinWith l ls h

end Gherkin.Text
