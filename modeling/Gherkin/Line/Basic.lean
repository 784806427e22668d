import Gherkin.Location
import Gherkin.Text.Basic

/-! Lines of a document and the kinds they fall into. Every line is recognised on its own; whether
it is legal where it stands is the matter of the document. -/

namespace Gherkin

/-- The blocks that a keyword and a colon introduce. -/
inductive Block
  | feature
  | background
  | scenario
  | outline
  | examples
deriving DecidableEq

/-- The marks that open and close a doc string. -/
inductive Fence
  | quotes
  | backticks
deriving DecidableEq

/-- The mark as it is written. -/
def Fence.mark : Fence → Text
  | quotes => "\"\"\"".toList
  | backticks => "```".toList

/-- The mark with a backslash before each of its characters, which stands for the mark inside a
doc string. -/
def Fence.escaped (f : Fence) : Text := f.mark.flatMap fun c => ['\\', c]

inductive LineKind
  | blank
  | comment
  | language (code : Text)
  | tags
  | header (block : Block) (keyword name : Text)
  | step (keyword text : Text)
  | fence (fence : Fence) (contentType : Text)
  | row
  | other
deriving DecidableEq

/-- One line of a document, as written but without its line end. -/
structure Line where
  number : Nat
  raw : Text
  kind : LineKind
deriving DecidableEq

namespace Line

/-- The line without surrounding blanks. -/
def text (l : Line) : Text := l.raw.trim

/-- The number of blanks before the first significant character. -/
def indent (l : Line) : Nat := l.raw.indent

/-- The place of the first significant character. -/
def location (l : Line) : Location := ⟨l.number, l.indent + 1⟩

end Line

end Gherkin
