import Gherkin.Line.Basic
import Gherkin.Line.Tags

/-! Why a text is refused: the line, counted from one, and the cause. The wording of every cause is
in one place. -/

namespace Gherkin

/-- What could have stood where a line does not fit. -/
inductive Expectation
  | documentStart
  | featureStart
  | featureBody
  | testStart
  | stepBody
  | outlineBody
  | examplesStart
  | examplesBody
deriving DecidableEq

/-- The list of line kinds that could have stood there. -/
def Expectation.message : Expectation → Text
  | documentStart => "#EOF, #Language, #TagLine, #FeatureLine, #Comment, #Empty".toList
  | featureStart => "#TagLine, #FeatureLine, #Comment, #Empty".toList
  | featureBody =>
    ("#EOF, #Comment, #BackgroundLine, #TagLine, #ScenarioLine, " ++
      "#ScenarioOutlineLine, #Empty").toList
  | testStart => "#TagLine, #ScenarioLine, #ScenarioOutlineLine, #Comment, #Empty".toList
  | stepBody =>
    ("#EOF, #TableRow, #DocStringSeparator, #StepLine, #TagLine, " ++
      "#ScenarioLine, #ScenarioOutlineLine, #Comment, #Empty").toList
  | outlineBody =>
    ("#EOF, #TableRow, #DocStringSeparator, #StepLine, #TagLine, " ++
      "#ExamplesLine, #ScenarioLine, #ScenarioOutlineLine, #Comment, #Empty").toList
  | examplesStart => "#TagLine, #ExamplesLine, #Comment, #Empty".toList
  | examplesBody =>
    ("#EOF, #TableRow, #TagLine, #ExamplesLine, #ScenarioLine, " ++
      "#ScenarioOutlineLine, #Comment, #Empty").toList

/-- Why a text is refused. -/
inductive Cause
  | unsupported (code : Text)
  | unexpected (expected : Expectation) (got : Text)
  | unfinished (expected : Expectation)
  | lateBackground
  | secondFeature
  | strayExamples
  | unclosedDocString
  | unevenTable
  | tag (fault : TagFault)
  | missing (node : Text)
deriving DecidableEq

def Cause.message : Cause → Text
  | unsupported code => "Language not supported: ".toList ++ code
  | unexpected expected got =>
    "expected: ".toList ++ expected.message ++ ", got '".toList ++ got ++ ['\'']
  | unfinished expected => "unexpected end of file, expected: ".toList ++ expected.message
  | lateBackground => "a Background must come before every Scenario and Scenario Outline".toList
  | secondFeature => "a document may contain only one Feature".toList
  | strayExamples => "Examples are only allowed in a Scenario Outline".toList
  | unclosedDocString => "unterminated doc string".toList
  | unevenTable => "inconsistent cell count within the table".toList
  | tag fault => fault.message
  | missing node => "no ".toList ++ node ++ " found in the text".toList

/-- A refusal and the line it names. -/
structure Failure where
  line : Nat
  cause : Cause
deriving DecidableEq

/-- A refusal of the text of a named file. -/
structure ParseError extends Failure where
  file : Text
deriving DecidableEq

def ParseError.message (e : ParseError) : Text :=
  ['\''] ++ e.file ++ "' (line ".toList ++ Text.ofNat e.line ++ "): ".toList ++ e.cause.message

/-- The refusal of a line that does not fit where it stands. -/
def Line.unexpected (l : Line) (expected : Expectation) : Failure :=
  ⟨l.number, .unexpected expected l.text⟩

end Gherkin
