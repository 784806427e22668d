import Gherkin.Document.Normal

/-! Texts that hold a single node. A step or a tag is no document on its own: it is wrapped in the
smallest document that makes it one, in the dialect in force, and the node is taken out of the
normal form again. Lines in the node and in refusals are counted from the first line of the text
that was given. -/

namespace Gherkin

/-- Lowers the line of every location by `offset`. -/
def Data.lowerLine (offset : Nat) (location : Data) : Data :=
  match location with
  | .record fields => .record (fields.map fun f =>
      match f.1, f.2.nat? with
      | "line", some n => (f.1, .nat (n - offset))
      | _, _ => f)
  | d => d

mutual

/-- Lowers the line of every location inside a value by `offset`. -/
def Data.lowerLines (offset : Nat) : Data → Data
  | .record fields => .record (Data.lowerFields offset fields)
  | .list items => .list (Data.lowerItems offset items)
  | d => d

def Data.lowerFields (offset : Nat) : List (String × Data) → List (String × Data)
  | [] => []
  | (key, value) :: fields =>
    (key, if key = "location" then Data.lowerLine offset value else value.lowerLines offset) ::
      Data.lowerFields offset fields

def Data.lowerItems (offset : Nat) : List Data → List Data
  | [] => []
  | d :: ds => d.lowerLines offset :: Data.lowerItems offset ds

end

/-- The kinds of node that a text can hold on its own. -/
inductive Snippet
  | feature
  | background
  | scenario
  | outline
  | example
  | step
  | tag
  | comment
deriving DecidableEq

namespace Snippet

def name : Snippet → Text
  | feature => "feature".toList
  | background => "background".toList
  | scenario => "scenario".toList
  | outline => "outline".toList
  | .example => "example".toList
  | step => "step".toList
  | tag => "tag".toList
  | comment => "comment".toList

/-- The file name under which refusals are reported. -/
def fileName (k : Snippet) : Text :=
  "cuke_modeler_stand_alone_".toList ++ k.name ++ ".feature".toList

/-! ### Wrapping -/

def languageLine (code : Text) : Text := "# language: ".toList ++ code

def featureLine (d : Dialect) : Text := d.featureKeyword ++ ": Fake feature to parse".toList

/-- The lines put before the text. -/
def opening (k : Snippet) (code : Text) (d : Dialect) : List Text :=
  match k with
  | feature => []
  | background | scenario | outline => [languageLine code, featureLine d]
  | .example =>
    [languageLine code, featureLine d, d.outlineKeyword ++ [':'],
      d.givenKeyword ++ " fake step".toList]
  | step => [languageLine code, featureLine d, d.scenarioKeyword ++ [':']]
  | tag | comment => [languageLine code]

/-- The lines put after the text. -/
def closing (k : Snippet) (d : Dialect) : List Text :=
  match k with
  | tag | comment => [featureLine d]
  | _ => []

/-- The document around a text. -/
def wrap (k : Snippet) (code : Text) (d : Dialect) (source : Text) : Text :=
  Text.unlines (k.opening code d ++ source :: k.closing d)

/-! ### Taking the node out -/

/-- The first scenario or outline of a document in normal form. -/
def firstTest? (document : Data) : Option Data := do
  let feature ← document.present? "feature"
  (feature.itemsAt "elements").head?

/-- The node of a document in normal form that the text stands for. -/
def extract? (k : Snippet) (document : Data) : Option Data :=
  match k with
  | feature => document.present? "feature"
  | background => (document.present? "feature").bind (·.field? "background")
  | scenario => (firstTest? document).filter (·.hasType "Scenario")
  | outline => (firstTest? document).filter (·.hasType "ScenarioOutline")
  | .example => (firstTest? document).bind fun t => (t.itemsAt "examples").head?
  | step => (firstTest? document).bind fun t => (t.itemsAt "steps").head?
  | tag => (document.present? "feature").bind fun f => (f.itemsAt "tags").head?
  | comment => (document.itemsAt "comments").getLast?

/-- Reads a text as a node of the given kind in the dialect of `code`. Only a text without a feature
has no node to give and is no failure either. -/
def read (k : Snippet) (code source : Text) : Except ParseError (Option Data) :=
  match Dialect.get? code with
  | none => .error ⟨⟨1, .unsupported code⟩, k.fileName⟩
  | some d =>
    let offset := (k.opening code d).length
    match Document.read code (k.wrap code d source) with
    | .error e => .error ⟨⟨max (e.line - offset) 1, e.cause⟩, k.fileName⟩
    | .ok document =>
      match k.extract? document with
      | some node => .ok (some (node.lowerLines offset))
      | none =>
        if k = feature then .ok none else .error ⟨⟨1, .missing k.name⟩, k.fileName⟩

end Snippet

end Gherkin
