import Gherkin.Element.Kind
import Gherkin.Element.OfData
import Gherkin.Snippet

/-! Reading elements from texts, in the dialect of `code` unless the text declares its own. -/

namespace Gherkin

/-- The node that a text holds and the excerpt that is the whole text; for a text that holds no
node, the value `absent`. -/
def Snippet.readWith {α : Type} (k : Snippet) (ofData : Excerpt → Data → α) (absent : α)
    (code source : Text) : Except ParseError α :=
  (k.read code source).map fun
    | some d => ofData (.whole source) d
    | none => absent

/-- Reads a feature; a text without one gives a bare feature. -/
def Feature.parse (code source : Text) : Except ParseError Feature :=
  Snippet.feature.readWith Feature.ofData {} code source

def Background.parse (code source : Text) : Except ParseError Background :=
  Snippet.background.readWith Background.ofData {} code source

def Scenario.parse (code source : Text) : Except ParseError Scenario :=
  Snippet.scenario.readWith Scenario.ofData {} code source

def Outline.parse (code source : Text) : Except ParseError Outline :=
  Snippet.outline.readWith Outline.ofData {} code source

def Example.parse (code source : Text) : Except ParseError Example :=
  Snippet.example.readWith Example.ofData {} code source

def Step.parse (code source : Text) : Except ParseError Step :=
  Snippet.step.readWith Step.ofData {} code source

/-- Reads the first tag of a text. -/
def Tag.parse (code source : Text) : Except ParseError Tag :=
  Snippet.tag.readWith Tag.ofData {} code source

/-- Reads the last comment of a text. -/
def Comment.parse (code source : Text) : Except ParseError Comment :=
  Snippet.comment.readWith Comment.ofData {} code source

/-- Reads a feature file from its path and its text. -/
def FeatureFile.parse (code path source : Text) : Except ParseError FeatureFile :=
  match Document.read code source with
  | .error e => .error ⟨e, path⟩
  | .ok d => .ok ⟨path, (d.present? "feature").map (Feature.ofData (.whole source))⟩

/-- Reads an element of a kind from a text. A directory is no text; only a feature file has a
path. -/
def Element.parse? (k : Kind) (code path source : Text) : Option (Except ParseError Element) :=
  match k with
  | .directory => none
  | .featureFile => some ((FeatureFile.parse code path source).map .featureFile)
  | .feature => some ((Feature.parse code source).map .feature)
  | .background => some ((Background.parse code source).map .background)
  | .scenario => some ((Scenario.parse code source).map .scenario)
  | .outline => some ((Outline.parse code source).map .outline)
  | .example => some ((Example.parse code source).map .example)
  | .step => some ((Step.parse code source).map .step)
  | .tag => some ((Tag.parse code source).map .tag)
  | .comment => some ((Comment.parse code source).map .comment)

end Gherkin
