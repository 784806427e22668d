import Gherkin.Element.Basic
import Gherkin.Element.Kind

/-! A forest of elements that can be changed while others refer to them. Every element has a number;
collections hold the numbers of children, and each element may have a link to the element that
contains it. A link counts only while the element it leads to is still there. -/

namespace Gherkin

/-- An element with its children given by their numbers. -/
inductive Content
  | directory (path : Text) (files directories : List Nat)
  | featureFile (path : Text) (feature : Option Nat)
  | feature (head : Heading) (language : Text) (background : Option Nat)
      (tests tags comments : List Nat)
  | background (head : Heading) (steps : List Nat)
  | scenario (head : Heading) (steps tags : List Nat)
  | outline (head : Heading) (steps examples tags : List Nat)
  | example (head : Heading) (rows : List (List Text)) (tags : List Nat)
  | step (keyword text : Text) (block : Option StepBlock)
  | tag (name : Text)
  | comment (text : Text)
deriving DecidableEq

namespace Content

def kind : Content → Kind
  | directory .. => .directory
  | featureFile .. => .featureFile
  | feature .. => .feature
  | background .. => .background
  | scenario .. => .scenario
  | outline .. => .outline
  | .example .. => .example
  | step .. => .step
  | tag .. => .tag
  | comment .. => .comment

/-- The children in order: files before directories; background, tests, tags, comments; steps,
examples, tags. -/
def children : Content → List Nat
  | directory _ files directories => files ++ directories
  | featureFile _ held => held.toList
  | feature _ _ first tests tags comments => first.toList ++ tests ++ tags ++ comments
  | background _ steps => steps
  | scenario _ steps tags => steps ++ tags
  | outline _ steps examples tags => steps ++ examples ++ tags
  | .example _ _ tags => tags
  | step .. | tag .. | comment .. => []

/-- The content with a child of the given kind added at the end of the collection for that kind, or
put in the place of the child there. A kind without a collection leaves the content as it is. -/
def insert (c : Content) (kind : Kind) (child : Nat) : Content :=
  match c, kind with
  | directory path files directories, .featureFile => directory path (files ++ [child]) directories
  | directory path files directories, .directory => directory path files (directories ++ [child])
  | featureFile path _, .feature => featureFile path (some child)
  | feature head language _ tests tags comments, .background =>
    feature head language (some child) tests tags comments
  | feature head language first tests tags comments, .scenario
  | feature head language first tests tags comments, .outline =>
    feature head language first (tests ++ [child]) tags comments
  | feature head language first tests tags comments, .tag =>
    feature head language first tests (tags ++ [child]) comments
  | feature head language first tests tags comments, .comment =>
    feature head language first tests tags (comments ++ [child])
  | background head steps, .step => background head (steps ++ [child])
  | scenario head steps tags, .step => scenario head (steps ++ [child]) tags
  | scenario head steps tags, .tag => scenario head steps (tags ++ [child])
  | outline head steps examples tags, .step => outline head (steps ++ [child]) examples tags
  | outline head steps examples tags, .example => outline head steps (examples ++ [child]) tags
  | outline head steps examples tags, .tag => outline head steps examples (tags ++ [child])
  | .example head rows tags, .tag => .example head rows (tags ++ [child])
  | c, _ => c

/-- The child that a child of the given kind would replace. -/
def displaced (c : Content) (kind : Kind) : Option Nat :=
  match c, kind with
  | featureFile _ held, .feature => held
  | feature _ _ first _ _ _, .background => first
  | _, _ => none

end Content

/-- An element of a forest. The link leads to the element that contains it. -/
structure Node where
  content : Content
  link : Option Nat := none
  origin : Option Origin := none

/-- The elements by number; those that have been freed leave an empty place. -/
structure Forest where
  nodes : List (Option Node) := []

namespace Forest

/-- The element with a number, if it is still there. -/
def node? (f : Forest) (id : Nat) : Option Node := f.nodes[id]?.join

def kind? (f : Forest) (id : Nat) : Option Kind := (f.node? id).map (·.content.kind)

/-- The number of the element that contains `id`, as far as it is linked and still there. -/
def parent? (f : Forest) (id : Nat) : Option Nat :=
  ((f.node? id).bind (·.link)).filter fun p => (f.node? p).isSome

def children (f : Forest) (id : Nat) : List Nat :=
  ((f.node? id).map (·.content.children)).getD []

/-- The children that are neither tags nor comments. -/
def contains (f : Forest) (id : Nat) : List Nat :=
  (f.children id).filter fun c => f.kind? c ≠ some .tag ∧ f.kind? c ≠ some .comment

/-- Applies a change to an element. -/
def modify (f : Forest) (id : Nat) (change : Node → Node) : Forest :=
  ⟨f.nodes.modify id (Option.map change)⟩

/-- Adds an element, and gives its number. -/
def add (f : Forest) (n : Node) : Nat × Forest := (f.nodes.length, ⟨f.nodes ++ [some n]⟩)

def setLink (f : Forest) (id : Nat) (link : Option Nat) : Forest :=
  f.modify id fun n => { n with link }

/-- Puts `child` into the collection of `parent` for its kind. -/
def insert (f : Forest) (parent : Nat) (kind : Kind) (child : Nat) : Forest :=
  f.modify parent fun n => { n with content := n.content.insert kind child }

end Forest

end Gherkin
