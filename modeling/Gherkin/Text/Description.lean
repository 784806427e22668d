import Gherkin.Text.Lines

/-! Descriptions in normal form: no blank lines at either end, no trailing blanks on any line, and
no indentation that all lines share. -/

namespace Gherkin.Text

/-- The lines without the empty ones at either end. -/
def dropEmptyEnds (ls : List Text) : List Text :=
  ((ls.dropWhile List.isEmpty).reverse.dropWhile List.isEmpty).reverse

/-- The least indentation of the lines that are not empty. -/
def sharedIndent (ls : List Text) : Nat :=
  (((ls.filter fun l => !l.isEmpty).map indent).min?).getD 0

/-- The lines of a description in normal form. -/
def descriptionLines (t : Text) : List Text :=
  let kept := dropEmptyEnds (t.lines.map trimEnd)
  kept.map (List.drop (sharedIndent kept))

/-- The normal form of a description. -/
def normalizeDescription (t : Text) : Text := unlines (descriptionLines t)

end Gherkin.Text
