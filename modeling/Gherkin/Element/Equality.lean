import Gherkin.Element.Basic
import Gherkin.Path

/-! Equality of elements. Where an element was read from does not count. Backgrounds, scenarios and
outlines compare by their steps alone, across kinds; every other element compares its own
attributes and children with an element of its own kind. -/

namespace Gherkin

def Tag.equal (a b : Tag) : Bool := a.name == b.name

def Comment.equal (a b : Comment) : Bool := a.text == b.text

def Step.equal (a b : Step) : Bool :=
  a.keyword == b.keyword && a.text == b.text && a.block == b.block

/-- Step sequences of one length with equal steps. -/
def Step.allEqual (a b : List Step) : Bool := a.isEqv b Step.equal

def Example.equal (a b : Example) : Bool :=
  a.name == b.name && a.description == b.description && a.tags.isEqv b.tags Tag.equal &&
    a.rows == b.rows

def Background.equal (a b : Background) : Bool := Step.allEqual a.steps b.steps

def Test.steps : Test → List Step
  | scenario s => s.steps
  | outline o => o.steps

def Test.equal (a b : Test) : Bool := Step.allEqual a.steps b.steps

/-- Optional parts that are both absent or both present and equal. -/
def equalOptions {α : Type} (equal : α → α → Bool) : Option α → Option α → Bool
  | none, none => true
  | some a, some b => equal a b
  | _, _ => false

def Feature.equal (a b : Feature) : Bool :=
  a.name == b.name && a.description == b.description && a.tags.isEqv b.tags Tag.equal &&
    equalOptions Background.equal a.background b.background && a.tests.isEqv b.tests Test.equal &&
    a.comments.isEqv b.comments Comment.equal

/-- Whether two paths have the same components. -/
def Path.equal (a b : Text) : Bool := Path.components a == Path.components b

def FeatureFile.equal (a b : FeatureFile) : Bool :=
  Path.equal a.path b.path && equalOptions Feature.equal a.feature b.feature

mutual

def Directory.equal : Directory → Directory → Bool
  | .mk p files dirs, .mk q files' dirs' =>
    Path.equal p q && files.isEqv files' FeatureFile.equal && Directory.allEqual dirs dirs'

def Directory.allEqual : List Directory → List Directory → Bool
  | [], [] => true
  | d :: ds, e :: es => d.equal e && Directory.allEqual ds es
  | _, _ => false

end

namespace Element

/-- The steps of an element that is made of steps. -/
def steps? : Element → Option (List Step)
  | background b => some b.steps
  | scenario s => some s.steps
  | outline o => some o.steps
  | _ => none

def equal (a b : Element) : Bool :=
  match a, b with
  | directory a, directory b => a.equal b
  | featureFile a, featureFile b => a.equal b
  | feature a, feature b => a.equal b
  | .example a, .example b => a.equal b
  | step a, step b => a.equal b
  | tag a, tag b => a.equal b
  | comment a, comment b => a.equal b
  | a, b =>
    match a.steps?, b.steps? with
    | some s, some t => Step.allEqual s t
    | _, _ => false

end Element

end Gherkin
