import Gherkin.Data

/-! The elements of the model: directories of feature files, features with a background and tests,
steps with their blocks, examples, tags and comments. An element read from a text keeps the excerpt
it was read from, the line of its keyword, and the data it was read out of. -/

namespace Gherkin

/-- Where an element was read from. -/
structure Origin where
  text : Text
  line : Option Nat
  data : Data

structure Tag where
  name : Text := []
  origin : Option Origin := none

structure Comment where
  text : Text := []
  origin : Option Origin := none

/-- The block argument of a step. -/
inductive StepBlock
  | table (rows : List (List Text))
  | docString (content : Text) (contentType : Option Text)
deriving DecidableEq

structure Step where
  keyword : Text := []
  text : Text := []
  block : Option StepBlock := none
  origin : Option Origin := none

/-- The attributes that every block with a header line has. -/
structure Heading where
  keyword : Text := []
  name : Text := []
  description : Text := []
deriving DecidableEq

/-- An examples block. Its first row holds the parameters. -/
structure Example extends Heading where
  tags : List Tag := []
  rows : List (List Text) := []
  origin : Option Origin := none

structure Background extends Heading where
  steps : List Step := []
  origin : Option Origin := none

structure Scenario extends Heading where
  tags : List Tag := []
  steps : List Step := []
  origin : Option Origin := none

structure Outline extends Heading where
  tags : List Tag := []
  steps : List Step := []
  examples : List Example := []
  origin : Option Origin := none

/-- A test of a feature. -/
inductive Test
  | scenario (s : Scenario)
  | outline (o : Outline)

/-- A feature. Comments hang off it wherever they stood in its text; `language` is the code of the
dialect it was read in. -/
structure Feature extends Heading where
  language : Text := []
  tags : List Tag := []
  background : Option Background := none
  tests : List Test := []
  comments : List Comment := []
  origin : Option Origin := none

structure FeatureFile where
  path : Text := []
  feature : Option Feature := none

inductive Directory
  | mk (path : Text) (files : List FeatureFile) (directories : List Directory)
deriving Inhabited

/-- An element of any kind. -/
inductive Element
  | directory (d : Directory)
  | featureFile (f : FeatureFile)
  | feature (f : Feature)
  | background (b : Background)
  | scenario (s : Scenario)
  | outline (o : Outline)
  | example (e : Example)
  | step (s : Step)
  | tag (t : Tag)
  | comment (c : Comment)

namespace Directory

def path : Directory → Text
  | mk path _ _ => path

def files : Directory → List FeatureFile
  | mk _ files _ => files

def directories : Directory → List Directory
  | mk _ _ directories => directories

end Directory

namespace Example

/-- The names in the parameter row. -/
def parameters (e : Example) : List Text := e.rows.headD []

/-- Every row after the parameter row. -/
def argumentRows (e : Example) : List (List Text) := e.rows.tail

end Example

/-- The number of test cases: one for a scenario, one for each argument row of an outline. -/
def Test.caseCount : Test → Nat
  | scenario _ => 1
  | outline o => (o.examples.map fun e => e.argumentRows.length).foldr (· + ·) 0

/-- The number of test cases of all tests. -/
def Feature.testCount (f : Feature) : Nat := (f.tests.map Test.caseCount).foldr (· + ·) 0

end Gherkin
