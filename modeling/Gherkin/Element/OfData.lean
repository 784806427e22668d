import Gherkin.Element.Basic
import Gherkin.Element.Excerpt
import Gherkin.Text.Description

/-! Elements from the normal form of a document. Each constructor takes a node in normal form and
the excerpt that holds it; the excerpts of children are carved out of it by their first lines. -/

namespace Gherkin

namespace Data

/-- The line of a node's location. -/
def line? (d : Data) : Option Nat := (d.field? "location").bind fun l => (l.field? "line").bind nat?

/-- The first line of a node: that of its earliest tag, or its own. -/
def startLine (d : Data) : Nat :=
  ((d.itemsAt "tags").filterMap line?).foldr min (d.line?.getD 1)

/-- The description of a node in normal form. -/
def descriptionAt (d : Data) : Text :=
  match (d.field? "description").bind text? with
  | some t => Text.normalizeDescription t
  | none => []

/-- The rows of a table or of examples. -/
def rowsAt (d : Data) : List (List Text) :=
  (d.itemsAt "rows").map fun row => (row.itemsAt "cells").map fun cell => cell.text?.getD []

end Data

namespace Excerpt

/-- The excerpts of sibling nodes, in their order. -/
def splitAt (e : Excerpt) (nodes : List Data) : List Excerpt := e.split (nodes.map Data.startLine)

/-- The origin of the element that `d` describes. -/
def origin (e : Excerpt) (d : Data) : Option Origin := some ⟨e.text, d.line?, d⟩

/-- The single line of a tag or a comment. -/
def lineOf (e : Excerpt) (d : Data) : Excerpt := e.line (d.line?.getD 1)

end Excerpt

def Tag.ofData (e : Excerpt) (d : Data) : Tag := ⟨d.textAt "name", e.origin d⟩

def Comment.ofData (e : Excerpt) (d : Data) : Comment := ⟨d.textAt "text", e.origin d⟩

/-- The tags of a node, each on its own line. -/
def Tag.listOfData (e : Excerpt) (d : Data) : List Tag :=
  (d.itemsAt "tags").map fun t => Tag.ofData (e.lineOf t) t

/-- The block argument of a step, when it has one of a known type. -/
def StepBlock.ofData? (d : Data) : Option StepBlock :=
  if d.hasType "DataTable" then some (.table d.rowsAt)
  else if d.hasType "DocString" then
    some (.docString (d.textAt "content") ((d.field? "content_type").bind Data.text?))
  else none

def Step.ofData (e : Excerpt) (d : Data) : Step :=
  { keyword := d.textAt "keyword"
    text := d.textAt "text"
    block := (d.field? "block").bind StepBlock.ofData?
    origin := e.origin d }

/-- The steps of a node. The nodes in `later` follow the steps and bound the last of them. -/
def Step.listOfData (e : Excerpt) (d : Data) (later : List Data) : List Step :=
  let nodes := d.itemsAt "steps"
  nodes.zipWith (fun node part => Step.ofData part node) (e.splitAt (nodes ++ later))

/-- The attributes of a block with a header line. -/
def Heading.ofData (d : Data) : Heading := ⟨d.textAt "keyword", d.textAt "name", d.descriptionAt⟩

def Background.ofData (e : Excerpt) (d : Data) : Background :=
  { toHeading := Heading.ofData d
    steps := Step.listOfData e d []
    origin := e.origin d }

def Scenario.ofData (e : Excerpt) (d : Data) : Scenario :=
  { toHeading := Heading.ofData d
    tags := Tag.listOfData e d
    steps := Step.listOfData e d []
    origin := e.origin d }

def Example.ofData (e : Excerpt) (d : Data) : Example :=
  { toHeading := Heading.ofData d
    tags := Tag.listOfData e d
    rows := d.rowsAt
    origin := e.origin d }

def Outline.ofData (e : Excerpt) (d : Data) : Outline :=
  let blocks := d.itemsAt "examples"
  { toHeading := Heading.ofData d
    tags := Tag.listOfData e d
    steps := Step.listOfData e d blocks
    examples := blocks.zipWith (fun node part => Example.ofData part node) (e.splitAt blocks)
    origin := e.origin d }

def Test.ofData (e : Excerpt) (d : Data) : Test :=
  if d.hasType "ScenarioOutline" then .outline (Outline.ofData e d)
  else .scenario (Scenario.ofData e d)

def Feature.ofData (e : Excerpt) (d : Data) : Feature :=
  let background := d.present? "background"
  let tests := d.itemsAt "elements"
  let parts := e.splitAt (background.toList ++ tests)
  { toHeading := Heading.ofData d
    language := d.textAt "language"
    tags := Tag.listOfData e d
    background := (background.toList.zipWith (fun node part => Background.ofData part node)
      parts).head?
    tests := tests.zipWith (fun node part => Test.ofData part node)
      (parts.drop background.toList.length)
    comments := (d.itemsAt "comments").map fun c => Comment.ofData (e.lineOf c) c
    origin := e.origin d }

end Gherkin
