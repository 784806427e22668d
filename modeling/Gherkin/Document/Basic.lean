import Gherkin.Line.Cells
import Gherkin.Line.Tags
import Gherkin.Line.Basic

/-! The tree of a document: every node with its place, keywords as they were matched, and optional
parts absent rather than empty. -/

namespace Gherkin

namespace Document

structure Comment where
  location : Location
  text : Text
deriving DecidableEq

structure Row where
  location : Location
  cells : List Cell
deriving DecidableEq

/-- What may follow a step line. -/
inductive Argument
  | table (location : Location) (rows : List Row)
  | docString (location : Location) (contentType : Option Text) (content : Text) (fence : Fence)
deriving DecidableEq

structure Step where
  location : Location
  keyword : Text
  text : Text
  argument : Option Argument
deriving DecidableEq

/-- The header line of a block and the text described under it. -/
structure Heading where
  location : Location
  keyword : Text
  name : Text
  description : Option Text
deriving DecidableEq

structure Examples extends Heading where
  tags : List LocatedTag
  header : Option Row
  body : List Row
deriving DecidableEq

structure Background extends Heading where
  steps : List Step
deriving DecidableEq

structure Scenario extends Heading where
  tags : List LocatedTag
  steps : List Step
deriving DecidableEq

structure Outline extends Heading where
  tags : List LocatedTag
  steps : List Step
  examples : List Examples
deriving DecidableEq

inductive Child
  | background (b : Background)
  | scenario (s : Scenario)
  | outline (o : Outline)
deriving DecidableEq

structure Feature extends Heading where
  tags : List LocatedTag
  language : Text
  children : List Child
deriving DecidableEq

end Document

/-- A document holds at most one feature; its comments are kept apart, wherever they stood. -/
structure Document where
  feature : Option Document.Feature
  comments : List Document.Comment
deriving DecidableEq

end Gherkin
