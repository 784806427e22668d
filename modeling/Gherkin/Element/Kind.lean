import Gherkin.Text.Basic

/-! The kinds of elements, and the queries by which ancestors are looked for: a kind, or a test,
which is a scenario or an outline. -/

namespace Gherkin

inductive Kind
  | directory
  | featureFile
  | feature
  | background
  | scenario
  | outline
  | example
  | step
  | tag
  | comment
deriving DecidableEq

def Kind.name : Kind → Text
  | directory => "Directory".toList
  | featureFile => "FeatureFile".toList
  | feature => "Feature".toList
  | background => "Background".toList
  | scenario => "Scenario".toList
  | outline => "Outline".toList
  | .example => "Example".toList
  | step => "Step".toList
  | tag => "Tag".toList
  | comment => "Comment".toList

/-- What is looked for: an element of one kind, or a test. -/
inductive Query
  | kind (k : Kind)
  | test
deriving DecidableEq

/-- Whether every element that answers `narrow` answers `wide` too. -/
def Query.covers (wide narrow : Query) : Bool :=
  narrow == wide ||
    (wide == test && (narrow == kind .scenario || narrow == kind .outline))

/-- Whether an element of a kind answers a query. -/
def Kind.answers (k : Kind) (q : Query) : Bool := q.covers (.kind k)

/-- Whether a parent of one kind has a place for a child of another. -/
def Kind.accepts (parent child : Kind) : Bool :=
  match parent, child with
  | directory, featureFile | directory, directory => true
  | featureFile, feature => true
  | feature, background | feature, scenario | feature, outline | feature, tag
  | feature, comment => true
  | background, step => true
  | scenario, step | scenario, tag => true
  | outline, step | outline, .example | outline, tag => true
  | .example, tag => true
  | _, _ => false

end Gherkin
