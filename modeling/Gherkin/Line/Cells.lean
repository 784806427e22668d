import Gherkin.Location
import Gherkin.Text.Basic

/-! Table rows. A cell stands between two pipes; inside a cell a backslash before a pipe, a
backslash or the letter n stands for a pipe, a backslash or a line feed, and any other backslash
for itself. What stands before the first and after the last pipe is ignored. -/

namespace Gherkin

/-- A cell of a table row, with the place of its first significant character. -/
structure Cell where
  location : Location
  value : Text
deriving DecidableEq

namespace Cell

/-- The value that a written cell stands for. -/
def unescape : Text → Text
  | '\\' :: '|' :: cs => '|' :: unescape cs
  | '\\' :: '\\' :: cs => '\\' :: unescape cs
  | '\\' :: 'n' :: cs => '\n' :: unescape cs
  | c :: cs => c :: unescape cs
  | [] => []

/-- How a character is written inside a cell. -/
def escapeChar : Char → Text
  | '\\' => ['\\', '\\']
  | '|' => ['\\', '|']
  | '\n' => ['\\', 'n']
  | c => [c]

/-- How a value is written inside a cell. -/
def escape (value : Text) : Text := value.flatMap escapeChar

/-- The parts of a row between its pipes; a pipe after a backslash that is not itself escaped does
not separate. -/
def parts : Text → List Text
  | '|' :: cs => [] :: parts cs
  | '\\' :: '|' :: cs => (parts cs).modifyHead ('\\' :: '|' :: ·)
  | '\\' :: '\\' :: cs => (parts cs).modifyHead ('\\' :: '\\' :: ·)
  | c :: cs => (parts cs).modifyHead (c :: ·)
  | [] => [[]]

/-- The cell written as `raw` in columns from `column` on. -/
def ofRaw (line column : Nat) (raw : Text) : Cell :=
  ⟨⟨line, column + raw.indent⟩, unescape raw.trim⟩

/-- Cells for parts of a row, the first of which starts at `column`; the last part, after the last
pipe, is no cell. -/
def ofParts (line : Nat) : Nat → List Text → List Cell
  | column, raw :: next :: rest =>
    ofRaw line column raw :: ofParts line (column + raw.length + 1) (next :: rest)
  | _, _ => []

/-- The cells of a row that starts at `start`. -/
def split (row : Text) (start : Location) : List Cell :=
  match parts row with
  | before :: rest => ofParts start.line (start.column + before.length + 1) rest
  | [] => []

theorem parts_ne_nil (row : Text) : parts row ≠ [] := by
  fun_induction parts row <;> simp_all [List.modifyHead]
  all_goals split <;> simp_all

theorem unescape_escapeChar (c : Char) (t : Text) :
    unescape (escapeChar c ++ t) = c :: unescape t := by
  unfold escapeChar
  split <;> simp_all [unescape]

theorem unescape_escape (value : Text) : unescape (escape value) = value := by
  induction value with
  | nil => rfl
  | cons c cs ih => simpa [escape, unescape_escapeChar] using ih

end Cell

end Gherkin
