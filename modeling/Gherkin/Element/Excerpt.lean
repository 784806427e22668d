import Gherkin.Text.Lines

/-! Excerpts: runs of lines of a text. The excerpt of an element reaches from its first line to the
line before the next sibling, less the blank and comment lines at its end. -/

namespace Gherkin

/-- The lines `first` to `last` of a text, counted from one, both included. -/
structure Excerpt where
  lines : List Text
  first : Nat
  last : Nat

namespace Excerpt

/-- The whole of a text. -/
def whole (source : Text) : Excerpt := ⟨source.lines, 1, source.lines.length⟩

/-- The lines of the excerpt joined. -/
def text (e : Excerpt) : Text :=
  if e.last < e.first ∨ e.first = 0 then []
  else Text.unlines ((e.lines.take e.last).drop (e.first - 1))

/-- A single line, moved into the excerpt when it lies outside. -/
def line (e : Excerpt) (number : Nat) : Excerpt :=
  let n := max e.first (min number (max e.first e.last))
  { e with first := n, last := n }

/-- Whether a line at the end of an excerpt is left out. -/
def isIdle (line : Text) : Bool :=
  match line.trim with
  | [] | '#' :: _ => true
  | _ => false

/-- The last line from `last` down that is kept, but none before `first`. -/
def lastKept (lines : List Text) (first : Nat) : Nat → Nat
  | 0 => 0
  | n + 1 => if first < n + 1 ∧ isIdle (lines[n]?.getD []) then lastKept lines first n else n + 1

/-- The run from `first` to `last` without the idle lines at its end. -/
def trimmed (e : Excerpt) (first last : Nat) : Excerpt :=
  { e with first, last := max first (lastKept e.lines first last) }

/-- The excerpts of siblings that start at the given lines. -/
def split (e : Excerpt) : List Nat → List Excerpt
  | [] => []
  | [start] => [e.trimmed start e.last]
  | start :: next :: rest => e.trimmed start (min (next - 1) e.last) :: split e (next :: rest)

@[simp] theorem length_split (e : Excerpt) (starts : List Nat) :
    (e.split starts).length = starts.length := by
  fun_induction split e starts <;> simp_all

end Excerpt

end Gherkin
