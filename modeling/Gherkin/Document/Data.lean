import Gherkin.Data
import Gherkin.Document.Basic

/-! The tree of a document as a data value. Optional parts are left out when absent, except the
feature, which is then `null`. -/

namespace Gherkin

open Data (nat word list record)

def Location.toData (l : Location) : Data := record [("line", nat l.line), ("column", nat l.column)]

def LocatedTag.toData (t : LocatedTag) : Data :=
  record [("location", t.location.toData), ("name", .text t.name)]

def Cell.toData (c : Cell) : Data :=
  record [("location", c.location.toData), ("value", .text c.value)]

namespace Document

/-- A field that is left out when absent. -/
def optionalField {α : Type} (key : String) (f : α → Data) : Option α → List (String × Data)
  | none => []
  | some a => [(key, f a)]

def Comment.toData (c : Comment) : Data :=
  record [("location", c.location.toData), ("text", .text c.text)]

def Row.toData (r : Row) : Data :=
  record [("location", r.location.toData), ("cells", list (r.cells.map Cell.toData))]

def Argument.toData : Argument → Data
  | table location rows =>
    record [("type", word "DataTable"), ("location", location.toData),
      ("rows", list (rows.map Row.toData))]
  | docString location contentType content fence =>
    record ([("type", word "DocString"), ("location", location.toData)] ++
      optionalField "contentType" .text contentType ++
      [("content", .text content), ("delimiter", .text fence.mark)])

def Step.toData (s : Step) : Data :=
  record ([("location", s.location.toData), ("keyword", .text s.keyword), ("text", .text s.text)] ++
    optionalField "argument" Argument.toData s.argument)

/-- The fields of a header line and of the description under it. -/
def Heading.fields (h : Heading) : List (String × Data) :=
  [("location", h.location.toData), ("keyword", .text h.keyword), ("name", .text h.name)] ++
    optionalField "description" .text h.description

def tagsField (tags : List LocatedTag) : String × Data :=
  ("tags", list (tags.map LocatedTag.toData))

def stepsField (steps : List Step) : String × Data := ("steps", list (steps.map Step.toData))

def Examples.toData (e : Examples) : Data :=
  record (e.toHeading.fields ++ [tagsField e.tags] ++
    optionalField "tableHeader" Row.toData e.header ++
    [("tableBody", list (e.body.map Row.toData))])

def Child.toData : Child → Data
  | background b =>
    record (("type", word "Background") :: b.toHeading.fields ++ [stepsField b.steps])
  | scenario s =>
    record (("type", word "Scenario") :: s.toHeading.fields ++
      [tagsField s.tags, stepsField s.steps])
  | outline o =>
    record (("type", word "ScenarioOutline") :: o.toHeading.fields ++
      [tagsField o.tags, stepsField o.steps, ("examples", list (o.examples.map Examples.toData))])

def Feature.toData (f : Feature) : Data :=
  record (f.toHeading.fields ++ [tagsField f.tags, ("language", .text f.language),
    ("children", list (f.children.map Child.toData))])

/-- The whole document. -/
def toData (d : Document) : Data :=
  record [("feature", (d.feature.map Feature.toData).getD .null),
    ("comments", list (d.comments.map Comment.toData))]

end Document

end Gherkin
