import Gherkin.Proofs.Element.Forget

/-! Changing the origins of an element: its own and those of its parts, at every level. Nothing else
of the element changes, so that it is the same once its origins are forgotten. -/

namespace Gherkin

section Map

variable (f : Origin → Origin)

def Tag.mapOrigin (t : Tag) : Tag := { t with origin := t.origin.map f }

def Comment.mapOrigin (c : Comment) : Comment := { c with origin := c.origin.map f }

def Step.mapOrigin (s : Step) : Step := { s with origin := s.origin.map f }

def Example.mapOrigin (e : Example) : Example :=
  { e with tags := e.tags.map (Tag.mapOrigin f), origin := e.origin.map f }

def Background.mapOrigin (b : Background) : Background :=
  { b with steps := b.steps.map (Step.mapOrigin f), origin := b.origin.map f }

def Scenario.mapOrigin (s : Scenario) : Scenario :=
  { s with
    tags := s.tags.map (Tag.mapOrigin f)
    steps := s.steps.map (Step.mapOrigin f)
    origin := s.origin.map f }

def Outline.mapOrigin (o : Outline) : Outline :=
  { o with
    tags := o.tags.map (Tag.mapOrigin f)
    steps := o.steps.map (Step.mapOrigin f)
    examples := o.examples.map (Example.mapOrigin f)
    origin := o.origin.map f }

def Test.mapOrigin : Test → Test
  | scenario s => .scenario (s.mapOrigin f)
  | outline o => .outline (o.mapOrigin f)

def Feature.mapOrigin (x : Feature) : Feature :=
  { x with
    tags := x.tags.map (Tag.mapOrigin f)
    background := x.background.map (Background.mapOrigin f)
    tests := x.tests.map (Test.mapOrigin f)
    comments := x.comments.map (Comment.mapOrigin f)
    origin := x.origin.map f }

def FeatureFile.mapOrigin (x : FeatureFile) : FeatureFile :=
  { x with feature := x.feature.map (Feature.mapOrigin f) }

/-- An element with `f` applied to its origin and to those of its parts. Directories are not read
from texts. -/
def Element.mapOrigin : Element → Element
  | directory d => .directory d
  | featureFile x => .featureFile (x.mapOrigin f)
  | feature x => .feature (x.mapOrigin f)
  | background b => .background (b.mapOrigin f)
  | scenario s => .scenario (s.mapOrigin f)
  | outline o => .outline (o.mapOrigin f)
  | .example e => .example (e.mapOrigin f)
  | step s => .step (s.mapOrigin f)
  | tag t => .tag (t.mapOrigin f)
  | comment c => .comment (c.mapOrigin f)

end Map

/-! ### Forgetting -/

/-- Forgetting origins forgets how they were changed. -/
theorem map_forget_map {α : Type} {forget g : α → α} (h : ∀ a, forget (g a) = forget a)
    (as : List α) : (as.map g).map forget = as.map forget := by
  rw [List.map_map]
  exact List.map_congr_left fun a _ => h a

section Forget

variable (f : Origin → Origin)

theorem Tag.forget_mapOrigin (t : Tag) : (t.mapOrigin f).forget = t.forget := rfl

theorem Comment.forget_mapOrigin (c : Comment) : (c.mapOrigin f).forget = c.forget := rfl

theorem Step.forget_mapOrigin (s : Step) : (s.mapOrigin f).forget = s.forget := rfl

theorem Example.forget_mapOrigin (e : Example) : (e.mapOrigin f).forget = e.forget := by
  simp only [Example.forget, Example.mapOrigin, map_forget_map (Tag.forget_mapOrigin f)]

theorem Background.forget_mapOrigin (b : Background) : (b.mapOrigin f).forget = b.forget := by
  simp only [Background.forget, Background.mapOrigin, map_forget_map (Step.forget_mapOrigin f)]

theorem Scenario.forget_mapOrigin (s : Scenario) : (s.mapOrigin f).forget = s.forget := by
  simp only [Scenario.forget, Scenario.mapOrigin, map_forget_map (Step.forget_mapOrigin f),
    map_forget_map (Tag.forget_mapOrigin f)]

theorem Outline.forget_mapOrigin (o : Outline) : (o.mapOrigin f).forget = o.forget := by
  simp only [Outline.forget, Outline.mapOrigin, map_forget_map (Step.forget_mapOrigin f),
    map_forget_map (Tag.forget_mapOrigin f), map_forget_map (Example.forget_mapOrigin f)]

theorem Test.forget_mapOrigin (t : Test) : (t.mapOrigin f).forget = t.forget := by
  cases t with
  | scenario s => exact congrArg Test.scenario (s.forget_mapOrigin f)
  | outline o => exact congrArg Test.outline (o.forget_mapOrigin f)

theorem Feature.forget_mapOrigin (x : Feature) : (x.mapOrigin f).forget = x.forget := by
  simp only [Feature.forget, Feature.mapOrigin, map_forget_map (Tag.forget_mapOrigin f),
    map_forget_map (Comment.forget_mapOrigin f), map_forget_map (Test.forget_mapOrigin f),
    Option.map_map, Function.comp_def, Background.forget_mapOrigin]

theorem Element.forget_mapOrigin (e : Element) : (e.mapOrigin f).forget = e.forget := by
  cases e with
  | featureFile x =>
    simp only [Element.mapOrigin, Element.forget, FeatureFile.mapOrigin, FeatureFile.forget,
      Option.map_map, Function.comp_def, Feature.forget_mapOrigin]
  | feature x => exact congrArg Element.feature (x.forget_mapOrigin f)
  | background b => exact congrArg Element.background (b.forget_mapOrigin f)
  | scenario s => exact congrArg Element.scenario (s.forget_mapOrigin f)
  | outline o => exact congrArg Element.outline (o.forget_mapOrigin f)
  | «example» e => exact congrArg Element.example (e.forget_mapOrigin f)
  | directory _ | step _ | tag _ | comment _ => rfl

end Forget

end Gherkin
