import Gherkin.Data
import Gherkin.Document.Data
import Gherkin.Document.Parse

/-! The normal form of a document: the same tree under stable names, in which every node but a table
row carries its type. It is defined for every data value, whatever its shape; parts that are missing
or of the wrong type become `null`, empty or absent. Optional keys are `description`, present when
it is a text that is not blank, `background`, `block` and `content_type`. -/

namespace Gherkin.Document.Normal

open Data (word text list record)

/-- A part copied under its own name. -/
def copy (raw : Data) (key : String) : String × Data := (key, raw.field key)

/-- The list under a key with each item brought into normal form. -/
def each (raw : Data) (key : String) (normal : Data → Data) : Data :=
  list ((raw.itemsAt key).map normal)

def tag (raw : Data) : Data :=
  record [("type", word "Tag"), copy raw "location", copy raw "name"]

def comment (raw : Data) : Data :=
  record [("type", word "Comment"), copy raw "location", copy raw "text"]

def row (raw : Data) : Data :=
  record [copy raw "location", ("cells", each raw "cells" (·.field "value"))]

/-- A description counts only when it is a text with something other than blanks in it. -/
def descriptionField (raw : Data) : List (String × Data) :=
  match (raw.field? "description").bind Data.text? with
  | some t => if t.trim = [] then [] else [("description", text t)]
  | none => []

/-- The keys that every block with a header line has. -/
def heading (type : String) (raw : Data) : List (String × Data) :=
  [("type", word type), copy raw "location", copy raw "keyword", copy raw "name"] ++
    descriptionField raw

/-- The argument of a step; what is not a doc string is a table. -/
def block (raw : Data) : Data :=
  if raw.hasType "DocString" then
    record ([("type", word "DocString"), copy raw "location", copy raw "content"] ++
      optionalField "content_type" id (raw.present? "contentType"))
  else
    record [("type", word "DataTable"), copy raw "location", ("rows", each raw "rows" row)]

def step (raw : Data) : Data :=
  record ([("type", word "Step"), copy raw "location",
    ("keyword", text (raw.textAt "keyword").trim), copy raw "text"] ++
    optionalField "block" block (raw.present? "argument"))

def background (raw : Data) : Data :=
  record (heading "Background" raw ++ [("steps", each raw "steps" step)])

def examples (raw : Data) : Data :=
  record (heading "Examples" raw ++ [("tags", each raw "tags" tag),
    ("rows", list ((((raw.present? "tableHeader").toList) ++ raw.itemsAt "tableBody").map row))])

def scenario (raw : Data) : Data :=
  record (heading "Scenario" raw ++ [("tags", each raw "tags" tag),
    ("steps", each raw "steps" step)])

def outline (raw : Data) : Data :=
  record (heading "ScenarioOutline" raw ++ [("tags", each raw "tags" tag),
    ("steps", each raw "steps" step), ("examples", each raw "examples" examples)])

/-- A scenario or an outline; no other child is a test. -/
def test? (raw : Data) : Option Data :=
  if raw.hasType "Scenario" then some (scenario raw)
  else if raw.hasType "ScenarioOutline" then some (outline raw)
  else none

/-- The last child that is a background. -/
def background? (raw : Data) : Option Data :=
  (raw.itemsAt "children").reverse.find? (·.hasType "Background")

def feature (comments raw : Data) : Data :=
  record (heading "Feature" raw ++ [("tags", each raw "tags" tag), copy raw "language",
    ("comments", comments)] ++ optionalField "background" background (background? raw) ++
    [("elements", list ((raw.itemsAt "children").filterMap test?))])

/-- The normal form of a document given as data. -/
def document (raw : Data) : Data :=
  let comments := each raw "comments" comment
  record [("type", word "GherkinDocument"),
    ("feature", ((raw.present? "feature").map (feature comments)).getD .null),
    ("comments", comments)]

end Gherkin.Document.Normal

namespace Gherkin

/-- The normal form of the document that a text holds, in the dialect of `code` unless the text
declares its own. -/
def Document.read (code source : Text) : Except Failure Data :=
  (Document.parse code source).map fun d => Normal.document d.toData

end Gherkin
