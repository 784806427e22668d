import Gherkin.Element.OfData
import Gherkin.Layout.Render

/-! Elements without the places they were read from, and with the keywords that rendering gives to
those that have none. Neither changes how an element renders. -/

namespace Gherkin

/-! ### Origins -/

def Tag.forget (t : Tag) : Tag := { t with origin := none }

def Comment.forget (c : Comment) : Comment := { c with origin := none }

def Step.forget (s : Step) : Step := { s with origin := none }

def Example.forget (e : Example) : Example :=
  { e with tags := e.tags.map Tag.forget, origin := none }

def Background.forget (b : Background) : Background :=
  { b with steps := b.steps.map Step.forget, origin := none }

def Scenario.forget (s : Scenario) : Scenario :=
  { s with tags := s.tags.map Tag.forget, steps := s.steps.map Step.forget, origin := none }

def Outline.forget (o : Outline) : Outline :=
  { o with
    tags := o.tags.map Tag.forget
    steps := o.steps.map Step.forget
    examples := o.examples.map Example.forget
    origin := none }

def Test.forget : Test → Test
  | scenario s => .scenario s.forget
  | outline o => .outline o.forget

def Feature.forget (f : Feature) : Feature :=
  { f with
    tags := f.tags.map Tag.forget
    background := f.background.map Background.forget
    tests := f.tests.map Test.forget
    comments := f.comments.map Comment.forget
    origin := none }

def FeatureFile.forget (f : FeatureFile) : FeatureFile :=
  { f with feature := f.feature.map Feature.forget }

/-- An element without the places that it and its parts were read from. Directories are not read
from texts. -/
def Element.forget : Element → Element
  | directory d => .directory d
  | featureFile f => .featureFile f.forget
  | feature f => .feature f.forget
  | background b => .background b.forget
  | scenario s => .scenario s.forget
  | outline o => .outline o.forget
  | .example e => .example e.forget
  | step s => .step s.forget
  | tag t => .tag t.forget
  | comment c => .comment c.forget

/-! ### Keywords -/

/-- A heading with the given keyword, if it has none. -/
def Heading.settle (keyword : Text) (h : Heading) : Heading :=
  { h with keyword := Style.keywordOr h.keyword keyword }

namespace Dialect

/-- An examples block as it is read back: with a keyword of the dialect in force and no origin. -/
def settleExample (d : Dialect) (e : Example) : Example :=
  { e.forget with toHeading := e.toHeading.settle d.examplesKeyword }

def settleBackground (d : Dialect) (b : Background) : Background :=
  { b.forget with toHeading := b.toHeading.settle d.backgroundKeyword }

def settleScenario (d : Dialect) (s : Scenario) : Scenario :=
  { s.forget with toHeading := s.toHeading.settle d.scenarioKeyword }

def settleOutline (d : Dialect) (o : Outline) : Outline :=
  { o.forget with
    toHeading := o.toHeading.settle d.outlineKeyword
    examples := o.examples.map d.settleExample }

def settleTest (d : Dialect) : Test → Test
  | .scenario s => .scenario (d.settleScenario s)
  | .outline o => .outline (d.settleOutline o)

/-- A feature as it is read back in the dialect of `code`. -/
def settleFeature (d : Dialect) (code : Text) (f : Feature) : Feature :=
  { f.forget with
    toHeading := f.toHeading.settle d.featureKeyword
    language := code
    background := f.background.map d.settleBackground
    tests := f.tests.map d.settleTest }

/-- An element as it is read back in the dialect of `code`: its header keywords are filled in, and
nothing else about it changes. -/
def settle (d : Dialect) (code : Text) : Element → Element
  | .feature f => .feature (d.settleFeature code f)
  | .background b => .background (d.settleBackground b)
  | .scenario s => .scenario (d.settleScenario s)
  | .outline o => .outline (d.settleOutline o)
  | .example e => .example (d.settleExample e)
  | e => e.forget

end Dialect

/-! ### Rendering -/

namespace Style

variable (s : Style)

theorem keywordOr_keywordOr (keyword fallback : Text) :
    keywordOr (keywordOr keyword fallback) fallback = keywordOr keyword fallback := by
  unfold keywordOr
  by_cases h : keyword = [] <;> simp [h]

@[simp] theorem tagLine_forget (tags : List Tag) : tagLine (tags.map Tag.forget) = tagLine tags := by
  have hmap : (tags.map Tag.forget).map tag = tags.map tag := by
    rw [List.map_map]
    rfl
  rw [tagLine, tagLine, hmap]

@[simp] theorem withSteps_forget (page : List Text) (description : Text) (steps : List Step) :
    s.withSteps page description (steps.map Step.forget) = s.withSteps page description steps := by
  have hlines : ((steps.map Step.forget).flatMap fun e => Page.block s.indent 1 (s.step e)) =
      steps.flatMap fun e => Page.block s.indent 1 (s.step e) := by
    rw [List.flatMap_map]
    rfl
  simp only [withSteps, hlines, List.map_eq_nil_iff]

@[simp] theorem opening_settle (tags : List Tag) (h : Heading) (keyword : Text) :
    s.opening tags (h.settle keyword) keyword = s.opening tags h keyword := by
  simp only [opening, Heading.settle, keywordOr_keywordOr]

theorem opening_forget (tags : List Tag) (h : Heading) (keyword : Text) :
    s.opening (tags.map Tag.forget) h keyword = s.opening tags h keyword := by
  simp only [opening, tagLine_forget]

theorem examples_forget (e : Example) : s.examples e.forget = s.examples e := by
  simp only [examples, examplePage, Example.forget, opening_forget]

theorem examples_settle (e : Example) : s.examples (s.dialect.settleExample e) = s.examples e := by
  simp only [examples, examplePage, Dialect.settleExample, Example.forget, opening_forget,
    opening_settle]
  rfl

theorem background_forget (b : Background) : s.background b.forget = s.background b := by
  simp only [background, Background.forget, withSteps_forget]

theorem background_settle (b : Background) :
    s.background (s.dialect.settleBackground b) = s.background b := by
  simp only [background, Dialect.settleBackground, Background.forget, withSteps_forget,
    opening_settle]
  rfl

theorem scenario_forget (e : Scenario) : s.scenario e.forget = s.scenario e := by
  simp only [scenario, Scenario.forget, withSteps_forget, opening_forget]

theorem scenario_settle (e : Scenario) :
    s.scenario (s.dialect.settleScenario e) = s.scenario e := by
  simp only [scenario, Dialect.settleScenario, Scenario.forget, withSteps_forget, opening_forget,
    opening_settle]
  rfl

theorem outline_forget (o : Outline) : s.outline o.forget = s.outline o := by
  simp only [outline, Outline.forget, withSteps_forget, opening_forget, List.foldl_map,
    examples_forget]

theorem outline_settle (o : Outline) : s.outline (s.dialect.settleOutline o) = s.outline o := by
  simp only [outline, Dialect.settleOutline, Outline.forget, withSteps_forget, opening_forget,
    opening_settle, List.foldl_map, examples_settle]
  rfl

theorem test_forget (t : Test) : s.test t.forget = s.test t := by
  cases t with
  | scenario e => exact s.scenario_forget e
  | outline o => exact s.outline_forget o

theorem test_settle (t : Test) : s.test (s.dialect.settleTest t) = s.test t := by
  cases t with
  | scenario e => exact s.scenario_settle e
  | outline o => exact s.outline_settle o

theorem comments_forget (comments : List Comment) :
    (comments.map Comment.forget).map comment = comments.map comment := by
  rw [List.map_map]
  rfl

theorem feature_forget (f : Feature) : s.feature f.forget = s.feature f := by
  have hblocks : s.blocks f.forget = s.blocks f := by
    simp only [blocks, Feature.forget, Option.map_map, List.map_map, Function.comp_def,
      background_forget, test_forget]
  simp only [feature, hblocks]
  simp only [Feature.forget, comments_forget, tagLine_forget]

theorem feature_settle (code : Text) (f : Feature) :
    s.feature (s.dialect.settleFeature code f) = s.feature f := by
  have hblocks : s.blocks (s.dialect.settleFeature code f) = s.blocks f := by
    simp only [blocks, Dialect.settleFeature, Option.map_map, List.map_map, Function.comp_def,
      background_settle, test_settle]
  simp only [feature, hblocks]
  simp only [Dialect.settleFeature, Feature.forget, comments_forget, tagLine_forget, Heading.settle,
    keywordOr_keywordOr]

theorem featureFile_forget (f : FeatureFile) : s.featureFile f.forget = s.featureFile f := by
  simp only [featureFile, FeatureFile.forget, Option.map_map, Function.comp_def, feature_forget]

/-- Where an element was read from does not show when it is rendered. -/
theorem render_forget (e : Element) : s.render e.forget = s.render e := by
  cases e with
  | featureFile f => exact s.featureFile_forget f
  | feature f => exact s.feature_forget f
  | background b => exact s.background_forget b
  | scenario e => exact s.scenario_forget e
  | outline o => exact s.outline_forget o
  | «example» e => exact s.examples_forget e
  | directory _ | step _ | tag _ | comment _ => rfl

end Style

end Gherkin
