import Gherkin.Dialect.Table
import Gherkin.Element.Basic
import Gherkin.Layout.Page
import Gherkin.Line.Basic
import Gherkin.Text.Replace

/-! Rendering elements. Tags share a line; a description stands apart at its owner's indentation,
and steps or rows after it stand apart again; steps, tables, doc strings and the blocks of a feature
are one level deeper than their owner; the examples of an outline stand at its own level. A missing
header keyword is taken from the dialect in force, a missing step keyword is the wildcard. No
element ends in a line feed of its own. -/

namespace Gherkin

/-- How elements are rendered: the text of one level of indentation, and the code of the dialect in
force. -/
structure Style where
  indent : Text := "  ".toList
  code : Text := Dialect.defaultCode

namespace Style

/-- The dialect that missing keywords are taken from. -/
def dialect (s : Style) : Dialect := (Dialect.get? s.code).getD Dialect.english

/-- A keyword, or the one to use when there is none. -/
def keywordOr (keyword fallback : Text) : Text := if keyword = [] then fallback else keyword

/-- The line of a keyword and a name. -/
def nameLine (keyword name : Text) : Text :=
  if name = [] then keyword ++ [':'] else keyword ++ ": ".toList ++ name

def comment (c : Comment) : Text := c.text

/-- A tag's name, with its at sign. -/
def tag (t : Tag) : Text :=
  match t.name with
  | [] => []
  | '@' :: cs => '@' :: cs
  | name => '@' :: name

/-- The line of the tags that have a name, if any has. -/
def tagLine (tags : List Tag) : List Text :=
  match (tags.map tag).filter (!·.isEmpty) with
  | [] => []
  | written => [List.intercalate [' '] written]

/-- The page followed by a description, if there is one. -/
def describe (s : Style) (page : List Text) (description : Text) : List Text :=
  if description = [] then page else Page.apart page (Page.block s.indent 0 description)

/-- A doc string at the depth of a step's block. -/
def docString (s : Style) (content : Text) (contentType : Option Text) : List Text :=
  let mark := Fence.quotes.mark
  [Page.line s.indent 1 (mark ++ contentType.getD [])] ++
    (if content = [] then []
      else Page.block s.indent 1 (content.replace mark Fence.quotes.escaped)) ++
    [Page.line s.indent 1 mark]

/-- The block of a step. -/
def stepBlock (s : Style) : Option StepBlock → List Text
  | none => []
  | some (.table rows) => Page.table s.indent 1 rows
  | some (.docString content contentType) => s.docString content contentType

/-- A step. The space after the keyword stays even without a text, or the line would be no step. -/
def step (s : Style) (e : Step) : Text :=
  Text.unlines ((keywordOr e.keyword Dialect.wildcard ++ ' ' :: e.text) :: s.stepBlock e.block)

/-- The page followed by steps, apart from a description before them. -/
def withSteps (s : Style) (page : List Text) (description : Text) (steps : List Step) : List Text :=
  let lines := steps.flatMap fun e => Page.block s.indent 1 (s.step e)
  if steps = [] then page
  else if description = [] then page ++ lines
  else Page.apart page lines

/-- The tags, the name line and the description that open a block. -/
def opening (s : Style) (tags : List Tag) (h : Heading) (fallback : Text) : List Text :=
  s.describe (tagLine tags ++ [nameLine (keywordOr h.keyword fallback) h.name]) h.description

def examplePage (s : Style) (e : Example) : List Text :=
  let page := s.opening e.tags e.toHeading s.dialect.examplesKeyword
  let rows := Page.table s.indent 1 e.rows
  if e.rows = [] then page
  else if e.description = [] then page ++ rows
  else Page.apart page rows

def examples (s : Style) (e : Example) : Text := Text.unlines (s.examplePage e)

def background (s : Style) (b : Background) : Text :=
  Text.unlines (s.withSteps (s.opening [] b.toHeading s.dialect.backgroundKeyword) b.description
    b.steps)

def scenario (s : Style) (e : Scenario) : Text :=
  Text.unlines (s.withSteps (s.opening e.tags e.toHeading s.dialect.scenarioKeyword) e.description
    e.steps)

def outline (s : Style) (o : Outline) : Text :=
  let page := s.withSteps (s.opening o.tags o.toHeading s.dialect.outlineKeyword) o.description
    o.steps
  Text.unlines (o.examples.foldl
    (fun page e => Page.apart page (Page.block s.indent 0 (s.examples e))) page)

def test (s : Style) : Test → Text
  | .scenario e => s.scenario e
  | .outline o => s.outline o

/-- The blocks of a feature, rendered. -/
def blocks (s : Style) (f : Feature) : List Text :=
  (f.background.map s.background).toList ++ f.tests.map s.test

def feature (s : Style) (f : Feature) : Text :=
  let comments := (f.comments.map comment).filter (!·.isEmpty)
  let page := s.describe
    (comments ++ tagLine f.tags ++
      [nameLine (keywordOr f.keyword s.dialect.featureKeyword) f.name]) f.description
  Text.unlines (s.blocks f |>.foldl
    (fun page text => Page.apart page (Page.block s.indent 1 text)) page)

def featureFile (s : Style) (f : FeatureFile) : Text := (f.feature.map s.feature).getD []

mutual

/-- The files of a directory, then its directories, with an empty line between any two. -/
def directory (s : Style) : Directory → Text
  | .mk _ files directories =>
    List.intercalate ['\n', '\n']
      ((files.map s.featureFile ++ s.directoryTexts directories).filter (!·.isEmpty))

def directoryTexts (s : Style) : List Directory → List Text
  | [] => []
  | d :: ds => s.directory d :: s.directoryTexts ds

end

/-- An element of any kind. -/
def render (s : Style) : Element → Text
  | .directory d => s.directory d
  | .featureFile f => s.featureFile f
  | .feature f => s.feature f
  | .background b => s.background b
  | .scenario e => s.scenario e
  | .outline o => s.outline o
  | .example e => s.examples e
  | .step e => s.step e
  | .tag t => tag t
  | .comment c => comment c

end Style

end Gherkin
