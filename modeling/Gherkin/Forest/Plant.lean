import Gherkin.Forest.Basic

/-! Putting whole elements into a forest, and reading them back. The children of a planted element
are linked to it, as those of an element read from a text are, or left without links, as those of
an element built by hand are. -/

namespace Gherkin.Forest

/-! ### Planting -/

/-- Adds an element and then each of its children, which go into its collections. -/
def plantWith (linked : Bool) (f : Forest) (n : Node)
    (children : List (Kind × (Forest → Nat × Forest))) : Nat × Forest :=
  let (id, f) := f.add n
  (id, children.foldl (fun f child =>
    let (c, f) := child.2 f
    let f := f.insert id child.1 c
    if linked then f.setLink c (some id) else f) f)

def plantTag (t : Tag) (f : Forest) : Nat × Forest := f.add ⟨.tag t.name, none, t.origin⟩

def plantComment (c : Comment) (f : Forest) : Nat × Forest :=
  f.add ⟨.comment c.text, none, c.origin⟩

def plantStep (s : Step) (f : Forest) : Nat × Forest :=
  f.add ⟨.step s.keyword s.text s.block, none, s.origin⟩

def plantExample (linked : Bool) (e : Example) (f : Forest) : Nat × Forest :=
  f.plantWith linked ⟨.example e.toHeading e.rows [], none, e.origin⟩
    (e.tags.map fun t => (.tag, plantTag t))

def plantBackground (linked : Bool) (b : Background) (f : Forest) : Nat × Forest :=
  f.plantWith linked ⟨.background b.toHeading [], none, b.origin⟩
    (b.steps.map fun s => (.step, plantStep s))

def plantScenario (linked : Bool) (e : Scenario) (f : Forest) : Nat × Forest :=
  f.plantWith linked ⟨.scenario e.toHeading [] [], none, e.origin⟩
    (e.steps.map (fun s => (.step, plantStep s)) ++ e.tags.map (fun t => (.tag, plantTag t)))

def plantOutline (linked : Bool) (o : Outline) (f : Forest) : Nat × Forest :=
  f.plantWith linked ⟨.outline o.toHeading [] [] [], none, o.origin⟩
    (o.steps.map (fun s => (.step, plantStep s)) ++
      o.examples.map (fun e => (.example, plantExample linked e)) ++
      o.tags.map (fun t => (.tag, plantTag t)))

/-- The kind of a test and how it is planted. -/
def testChild (linked : Bool) : Test → Kind × (Forest → Nat × Forest)
  | .scenario e => (.scenario, plantScenario linked e)
  | .outline o => (.outline, plantOutline linked o)

def plantFeature (linked : Bool) (e : Feature) (f : Forest) : Nat × Forest :=
  f.plantWith linked ⟨.feature e.toHeading e.language none [] [] [], none, e.origin⟩
    ((e.background.map fun b => (.background, plantBackground linked b)).toList ++
      e.tests.map (testChild linked) ++ e.tags.map (fun t => (.tag, plantTag t)) ++
      e.comments.map (fun c => (.comment, plantComment c)))

def plantFeatureFile (linked : Bool) (e : FeatureFile) (f : Forest) : Nat × Forest :=
  f.plantWith linked ⟨.featureFile e.path none, none, none⟩
    (e.feature.map fun e => (.feature, plantFeature linked e)).toList

mutual

def plantDirectory (linked : Bool) : Directory → Forest → Nat × Forest
  | .mk path files directories, f =>
    f.plantWith linked ⟨.directory path [] [], none, none⟩
      (files.map (fun e => (.featureFile, plantFeatureFile linked e)) ++
        directoryChildren linked directories)

def directoryChildren (linked : Bool) : List Directory → List (Kind × (Forest → Nat × Forest))
  | [] => []
  | d :: ds => (.directory, plantDirectory linked d) :: directoryChildren linked ds

end

/-- Plants an element of any kind, and gives its number. -/
def plant (linked : Bool) (f : Forest) : Element → Nat × Forest
  | .directory d => plantDirectory linked d f
  | .featureFile e => plantFeatureFile linked e f
  | .feature e => plantFeature linked e f
  | .background b => plantBackground linked b f
  | .scenario e => plantScenario linked e f
  | .outline o => plantOutline linked o f
  | .example e => plantExample linked e f
  | .step s => plantStep s f
  | .tag t => plantTag t f
  | .comment c => plantComment c f

/-! ### Reading back -/

/-- The tag with a number. -/
def tag? (f : Forest) (id : Nat) : Option Tag :=
  match f.node? id with
  | some ⟨.tag name, _, origin⟩ => some ⟨name, origin⟩
  | _ => none

def comment? (f : Forest) (id : Nat) : Option Comment :=
  match f.node? id with
  | some ⟨.comment text, _, origin⟩ => some ⟨text, origin⟩
  | _ => none

def step? (f : Forest) (id : Nat) : Option Step :=
  match f.node? id with
  | some ⟨.step keyword text block, _, origin⟩ => some ⟨keyword, text, block, origin⟩
  | _ => none

def example? (f : Forest) (id : Nat) : Option Example :=
  match f.node? id with
  | some ⟨.example head rows tags, _, origin⟩ => some ⟨head, tags.filterMap f.tag?, rows, origin⟩
  | _ => none

def background? (f : Forest) (id : Nat) : Option Background :=
  match f.node? id with
  | some ⟨.background head steps, _, origin⟩ => some ⟨head, steps.filterMap f.step?, origin⟩
  | _ => none

def scenario? (f : Forest) (id : Nat) : Option Scenario :=
  match f.node? id with
  | some ⟨.scenario head steps tags, _, origin⟩ =>
    some ⟨head, tags.filterMap f.tag?, steps.filterMap f.step?, origin⟩
  | _ => none

def outline? (f : Forest) (id : Nat) : Option Outline :=
  match f.node? id with
  | some ⟨.outline head steps examples tags, _, origin⟩ =>
    some ⟨head, tags.filterMap f.tag?, steps.filterMap f.step?, examples.filterMap f.example?,
      origin⟩
  | _ => none

def test? (f : Forest) (id : Nat) : Option Test :=
  ((f.scenario? id).map Test.scenario).or ((f.outline? id).map Test.outline)

def feature? (f : Forest) (id : Nat) : Option Feature :=
  match f.node? id with
  | some ⟨.feature head language background tests tags comments, _, origin⟩ =>
    some ⟨head, language, tags.filterMap f.tag?, background.bind f.background?,
      tests.filterMap f.test?, comments.filterMap f.comment?, origin⟩
  | _ => none

def featureFile? (f : Forest) (id : Nat) : Option FeatureFile :=
  match f.node? id with
  | some ⟨.featureFile path feature, _, _⟩ => some ⟨path, feature.bind f.feature?⟩
  | _ => none

/-- The directory with a number, down to the given depth. -/
def directory? (f : Forest) : Nat → Nat → Option Directory
  | 0, _ => none
  | depth + 1, id =>
    match f.node? id with
    | some ⟨.directory path files directories, _, _⟩ =>
      some (.mk path (files.filterMap f.featureFile?) (directories.filterMap (f.directory? depth)))
    | _ => none

/-- The element with a number and all that it contains. No directory can lie deeper than there are
elements, unless directories contain one another in a circle. -/
def element? (f : Forest) (id : Nat) : Option Element :=
  match f.kind? id with
  | some .directory => (f.directory? f.nodes.length id).map .directory
  | some .featureFile => (f.featureFile? id).map .featureFile
  | some .feature => (f.feature? id).map .feature
  | some .background => (f.background? id).map .background
  | some .scenario => (f.scenario? id).map .scenario
  | some .outline => (f.outline? id).map .outline
  | some .example => (f.example? id).map .example
  | some .step => (f.step? id).map .step
  | some .tag => (f.tag? id).map .tag
  | some .comment => (f.comment? id).map .comment
  | none => none

end Gherkin.Forest
