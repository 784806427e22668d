import Gherkin.Dialect.Table
import Gherkin.Line.Basic
import Gherkin.Text.Lines

/-! Recognising lines with the keywords of a dialect. The first that fits decides: blank lines,
comments and language headers, tag lines, block headers, steps, fences, table rows, other text.
Keywords are tried longest first. -/

namespace Gherkin

/-- The keywords of a dialect in the order in which lines are tried against them. -/
structure Vocabulary where
  headers : List (Block × Text)
  steps : List Text

/-- Header keywords with their blocks, in the order feature, background, scenario, outline,
examples. -/
def Dialect.headerKeywords (d : Dialect) : List (Block × Text) :=
  d.feature.map (Block.feature, ·) ++ d.background.map (Block.background, ·) ++
    d.scenario.map (Block.scenario, ·) ++ d.outline.map (Block.outline, ·) ++
    d.examples.map (Block.examples, ·)

def Dialect.vocabulary (d : Dialect) : Vocabulary :=
  ⟨sortBy (fun a b => Text.longerFirst a.2 b.2) d.headerKeywords, d.stepKeywords⟩

/-- The characters of a locale code. -/
def isCodeChar (c : Char) : Bool := c.isAlphanum || c == '_' || c == '-'

/-- The code of a language header, given a trimmed line: a number sign, the word `language`, a
colon and a code, with any blanks between them. -/
def languageCode? (text : Text) : Option Text := do
  let rest ← Text.after? ['#'] text
  let rest ← Text.after? "language".toList rest.trimStart
  let rest ← Text.after? [':'] rest.trimStart
  let code := rest.trim
  if code ≠ [] ∧ code.all isCodeChar then some code else none

namespace Vocabulary

/-- The block header that a trimmed line is. -/
def header? (v : Vocabulary) (text : Text) : Option LineKind :=
  v.headers.findSome? fun h =>
    (Text.after? (h.2 ++ [':']) text).map fun rest => .header h.1 h.2 rest.trim

/-- The step that a line without its indentation is. Trailing blanks matter here: a keyword with
its space and nothing else is a step. -/
def step? (v : Vocabulary) (unindented : Text) : Option LineKind :=
  v.steps.findSome? fun k => (Text.after? k unindented).map fun rest => .step k rest.trim

end Vocabulary

/-- The fence that a trimmed line is, with the content type after it. -/
def fence? (text : Text) : Option LineKind :=
  [Fence.quotes, Fence.backticks].findSome? fun f =>
    (Text.after? f.mark text).map fun rest => .fence f rest.trim

namespace Vocabulary

/-- The kind of a line. -/
def kindOf (v : Vocabulary) (raw : Text) : LineKind :=
  match raw.trim with
  | [] => .blank
  | '#' :: cs => match languageCode? ('#' :: cs) with
    | some code => .language code
    | none => .comment
  | '@' :: _ => .tags
  | c :: cs =>
    ((v.header? (c :: cs)).or (v.step? raw.trimStart)).or (fence? (c :: cs)) |>.getD
      (if c = '|' then .row else .other)

/-- The lines of a text with their numbers and kinds. -/
def classify (v : Vocabulary) (source : Text) : List Line :=
  source.lines.mapIdx fun i line =>
    let raw := Text.dropReturn line
    ⟨i + 1, raw, v.kindOf raw⟩

theorem length_classify (v : Vocabulary) (source : Text) :
    (v.classify source).length = source.lines.length := by
  simp [classify]

end Vocabulary

end Gherkin
