import Gherkin.Proofs.Element.Start
import Gherkin.Proofs.Element.Origins

/-! The trace of an element: the element with the line that it and each of its parts was read from,
but without their excerpts and data. Elements with one trace have the same attributes, structure and
lines. The trace of an element that is read can be told from its node. -/

namespace Gherkin

/-! ### Elements -/

/-- An origin without the excerpt and the data. -/
def Origin.trace (o : Origin) : Origin := ⟨[], o.line, .null⟩

def Tag.trace (t : Tag) : Tag := { t with origin := t.origin.map Origin.trace }

def Comment.trace (c : Comment) : Comment := { c with origin := c.origin.map Origin.trace }

def Step.trace (s : Step) : Step := { s with origin := s.origin.map Origin.trace }

def Example.trace (e : Example) : Example :=
  { e with tags := e.tags.map Tag.trace, origin := e.origin.map Origin.trace }

def Background.trace (b : Background) : Background :=
  { b with steps := b.steps.map Step.trace, origin := b.origin.map Origin.trace }

def Scenario.trace (s : Scenario) : Scenario :=
  { s with
    tags := s.tags.map Tag.trace
    steps := s.steps.map Step.trace
    origin := s.origin.map Origin.trace }

def Outline.trace (o : Outline) : Outline :=
  { o with
    tags := o.tags.map Tag.trace
    steps := o.steps.map Step.trace
    examples := o.examples.map Example.trace
    origin := o.origin.map Origin.trace }

def Test.trace : Test → Test
  | scenario s => .scenario s.trace
  | outline o => .outline o.trace

def Feature.trace (f : Feature) : Feature :=
  { f with
    tags := f.tags.map Tag.trace
    background := f.background.map Background.trace
    tests := f.tests.map Test.trace
    comments := f.comments.map Comment.trace
    origin := f.origin.map Origin.trace }

def FeatureFile.trace (f : FeatureFile) : FeatureFile :=
  { f with feature := f.feature.map Feature.trace }

/-- An element with the lines that it and its parts were read from, but nothing else of their
origins. Directories are not read from texts. -/
def Element.trace : Element → Element
  | directory d => .directory d
  | featureFile f => .featureFile f.trace
  | feature f => .feature f.trace
  | background b => .background b.trace
  | scenario s => .scenario s.trace
  | outline o => .outline o.trace
  | .example e => .example e.trace
  | step s => .step s.trace
  | tag t => .tag t.trace
  | comment c => .comment c.trace

theorem Test.trace_eq_mapOrigin (t : Test) : t.trace = t.mapOrigin Origin.trace := by
  cases t <;> rfl

theorem Feature.trace_eq_mapOrigin (f : Feature) : f.trace = f.mapOrigin Origin.trace := by
  have htests : f.tests.map Test.trace = f.tests.map (Test.mapOrigin Origin.trace) :=
    List.map_congr_left fun t _ => t.trace_eq_mapOrigin
  rw [trace, htests]
  rfl

/-- A trace is a change of origins. -/
theorem Element.trace_eq_mapOrigin (e : Element) : e.trace = e.mapOrigin Origin.trace := by
  cases e with
  | featureFile f =>
    have hfeature : f.feature.map Feature.trace = f.feature.map (Feature.mapOrigin Origin.trace) :=
      Option.map_congr fun g _ => g.trace_eq_mapOrigin
    rw [trace, FeatureFile.trace, hfeature]
    rfl
  | feature f => exact congrArg Element.feature f.trace_eq_mapOrigin
  | _ => rfl

theorem Element.forget_trace (e : Element) : e.trace.forget = e.forget := by
  rw [e.trace_eq_mapOrigin, e.forget_mapOrigin]

/-! ### Lines in data -/

namespace Data

theorem field?_lowerLine (n : ℕ) (d : Data) :
    ((lowerLine n d).field? "line").bind nat? = ((d.field? "line").bind nat?).map (· - n) := by
  cases d with
  | record fields =>
    rw [lowerLine, field?_record, field?_record]
    induction fields with
    | nil => rfl
    | cons field fields ih =>
      obtain ⟨key, value⟩ := field
      rw [List.map_cons]
      by_cases hkey : key = "line"
      · subst hkey
        cases hn : value.nat? <;> simp [hn]
      · have hne : ("line" == key) = false := by simpa using Ne.symm hkey
        split
        · next h _ => exact absurd h hkey
        · rw [List.lookup_cons, List.lookup_cons]
          simp only [hne, ih]
  | _ => rfl

theorem field?_location_lowerLines (n : ℕ) (d : Data) :
    (d.lowerLines n).field? "location" = (d.field? "location").map (lowerLine n) := by
  cases d with
  | record fields =>
    rw [lowerLines, field?_record, field?_record]
    induction fields with
    | nil => rfl
    | cons field fields ih =>
      obtain ⟨key, value⟩ := field
      rw [lowerFields, List.lookup_cons, List.lookup_cons, ih]
      by_cases hkey : key = "location"
      · simp [hkey]
      · have hne : ("location" == key) = false := by simpa using Ne.symm hkey
        simp only [hne]
  | _ => rfl

/-- Lowering lines lowers the line of a node. -/
theorem line?_lowerLines (n : ℕ) (d : Data) : (d.lowerLines n).line? = d.line?.map (· - n) := by
  rw [line?, line?, field?_location_lowerLines]
  cases d.field? "location" with
  | none => rfl
  | some l => exact field?_lowerLine n l

end Data

/-! ### Nodes -/

/-- The trace of the origin of a node that stands at `l`, with lines lowered by `n`. -/
def Location.traced (n : ℕ) (l : Location) : Option Origin := some ⟨[], some (l.line - n), .null⟩

def LocatedTag.traced (n : ℕ) (t : LocatedTag) : Tag := ⟨t.name, t.location.traced n⟩

namespace Document

section Traced

variable (n : ℕ)

def Comment.traced (c : Comment) : Gherkin.Comment := ⟨c.text, c.location.traced n⟩

def Step.traced (s : Step) : Gherkin.Step := { s.plain with origin := s.location.traced n }

def Examples.traced (e : Examples) : Example :=
  { e.plain with
    tags := e.tags.map (LocatedTag.traced n)
    origin := e.location.traced n }

def Background.traced (b : Background) : Gherkin.Background :=
  { b.plain with steps := b.steps.map (Step.traced n), origin := b.location.traced n }

def Scenario.traced (s : Scenario) : Gherkin.Scenario :=
  { s.plain with
    tags := s.tags.map (LocatedTag.traced n)
    steps := s.steps.map (Step.traced n)
    origin := s.location.traced n }

def Outline.traced (o : Outline) : Gherkin.Outline :=
  { o.plain with
    tags := o.tags.map (LocatedTag.traced n)
    steps := o.steps.map (Step.traced n)
    examples := o.examples.map (Examples.traced n)
    origin := o.location.traced n }

/-- A block of a feature as a background or a test. -/
def Child.traced : Child → Gherkin.Background ⊕ Test
  | background b => .inl (b.traced n)
  | scenario s => .inr (.scenario (s.traced n))
  | outline o => .inr (.outline (o.traced n))

def Feature.traced (comments : List Comment) (f : Feature) : Gherkin.Feature :=
  { f.plain comments with
    tags := f.tags.map (LocatedTag.traced n)
    background := (f.children.map (Child.traced n)).reverse.findSome? Sum.getLeft?
    tests := (f.children.map (Child.traced n)).filterMap Sum.getRight?
    comments := comments.map (Comment.traced n)
    origin := f.location.traced n }

/-- The trace of a document's feature, and its comments. -/
def traced (doc : Document) : Option Gherkin.Feature × List Comment :=
  (doc.feature.map (Feature.traced n doc.comments), doc.comments)

end Traced

variable (e : Excerpt) (n : ℕ)

theorem origin_traced {d : Data} {l : Location} (h : d.line? = some l.line) :
    (e.origin (d.lowerLines n)).map Origin.trace = l.traced n := by
  simp [Excerpt.origin, Origin.trace, Data.line?_lowerLines, h, Location.traced]

theorem tag_traced (t : LocatedTag) :
    (Tag.ofData e ((Normal.tag t.toData).lowerLines n)).trace = t.traced n := by
  have hname : (Normal.tag t.toData).textAt "name" = t.name := by
    simp [Normal.tag, Normal.copy, LocatedTag.toData, Data.textAt, Data.field, Data.text?,
      List.lookup_cons]
  rw [Tag.trace, Tag.ofData, Data.textAt_lowerLines n (by decide), hname,
    origin_traced e n (line?_tag t)]
  rfl

theorem tags_traced {tags : List LocatedTag} {d : Data}
    (h : d.itemsAt "tags" = tags.map fun t => Normal.tag t.toData) :
    (Tag.listOfData e (d.lowerLines n)).map Tag.trace = tags.map (LocatedTag.traced n) := by
  rw [Tag.listOfData, Data.itemsAt_lowerLines n (by decide), h, List.map_map, List.map_map,
    List.map_map]
  exact List.map_congr_left fun t _ => tag_traced _ n t

theorem comment_traced (c : Comment) :
    (Comment.ofData e ((Normal.comment c.toData).lowerLines n)).trace = c.traced n := by
  have htext : (Comment.ofData e (Normal.comment c.toData)).text = c.text :=
    congrArg (·.text) (comment_plain e c)
  rw [Comment.trace, Comment.ofData, Data.textAt_lowerLines n (by decide),
    origin_traced e n (line?_comment c)]
  exact congrArg (Gherkin.Comment.mk · _) htext

theorem step_traced (s : Step) :
    (Step.ofData e ((Normal.step s.toData).lowerLines n)).trace = s.traced n := by
  have hplain := (Step.unplaced e e n (Normal.step s.toData)).trans (step_plain e s)
  have horigin := origin_traced e n (line?_step s)
  exact congrArg₂ (fun (x : Gherkin.Step) o => { x with origin := o }) hplain horigin

theorem steps_traced {steps : List Step} {d : Data} (later : List Data)
    (h : d.itemsAt "steps" = steps.map fun s => Normal.step s.toData) :
    (Step.listOfData e (d.lowerLines n) later).map Step.trace = steps.map (Step.traced n) := by
  rw [Step.listOfData, Data.itemsAt_lowerLines n (by decide), h, List.map_map,
    List.zipWith_map_left]
  exact map_zipWith (fun s part => step_traced part n s) steps (by simp [length_splitAt])

theorem background_traced (b : Background) :
    (Background.ofData e ((Normal.background (Child.background b).toData).lowerLines n)).trace =
      b.traced n := by
  have hplain := (Background.unplaced e e n _).trans (background_plain e b)
  have hsteps := steps_traced e n [] (itemsAt_steps_background b)
  have horigin := origin_traced e n (line?_background b)
  rw [Background.traced, ← hplain, ← hsteps, ← horigin]
  rfl

theorem scenario_traced (s : Scenario) :
    (Scenario.ofData e ((Normal.scenario (Child.scenario s).toData).lowerLines n)).trace =
      s.traced n := by
  have hplain := (Scenario.unplaced e e n _).trans (scenario_plain e s)
  have htags := tags_traced e n (itemsAt_tags_scenario s)
  have hsteps := steps_traced e n [] (itemsAt_steps s)
  have horigin := origin_traced e n (line?_scenario s)
  rw [Scenario.traced, ← hplain, ← htags, ← hsteps, ← horigin]
  rfl

theorem examples_traced (x : Examples) :
    (Example.ofData e ((Normal.examples x.toData).lowerLines n)).trace = x.traced n := by
  have hplain := (Example.unplaced e e n _).trans (examples_plain e x)
  have htags := tags_traced e n (itemsAt_tags_examples x)
  have horigin := origin_traced e n (line?_examples x)
  rw [Examples.traced, ← hplain, ← htags, ← horigin]
  rfl

theorem outline_traced (o : Outline) :
    (Outline.ofData e ((Normal.outline (Child.outline o).toData).lowerLines n)).trace =
      o.traced n := by
  have hplain := (Outline.unplaced e e n _).trans (outline_plain e o)
  have htags := tags_traced e n (itemsAt_tags_outline o)
  have hsteps := steps_traced e n
    (((Normal.outline (Child.outline o).toData).lowerLines n).itemsAt "examples")
    (itemsAt_steps_outline o)
  have hexamples : (Outline.ofData e
      ((Normal.outline (Child.outline o).toData).lowerLines n)).examples.map Example.trace =
        o.examples.map (Examples.traced n) := by
    simp only [Outline.ofData, Data.itemsAt_lowerLines n (by decide : "examples" ≠ "location"),
      itemsAt_examples, List.map_map, List.zipWith_map_left]
    exact map_zipWith (fun x part => examples_traced part n x) o.examples (by simp [length_splitAt])
  have horigin := origin_traced e n (line?_outline o)
  rw [Outline.traced, ← hplain, ← htags, ← hsteps, ← hexamples, ← horigin]
  rfl

/-! ### Features -/

theorem line?_feature (comments : List Comment) (f : Feature) :
    (f.normal comments).line? = some f.location.line := by
  rw [Feature.normal, Normal.feature, List.append_assoc, List.append_assoc]
  exact line?_heading (by simp [Feature.toData, Heading.fields, Data.field]) _ _

theorem test_traced (c : Child) : (Normal.test? c.toData).map
    (fun d => (Test.ofData e (d.lowerLines n)).trace) = (c.traced n).getRight? := by
  rw [test?_toData]
  cases c with
  | background => rfl
  | scenario s =>
    simp only [Option.map_some, Test.ofData, Data.hasType_lowerLines, hasType_scenario,
      Bool.false_eq_true, if_false, Test.trace, scenario_traced]
    rfl
  | outline o =>
    simp only [Option.map_some, Test.ofData, Data.hasType_lowerLines, hasType_outline, if_true,
      Test.trace, outline_traced]
    rfl

theorem tests_traced (children : List Child) {es : List Excerpt}
    (hlen : (children.filterMap fun c => Normal.test? c.toData).length ≤ es.length) :
    (((children.filterMap fun c => Normal.test? c.toData).map (Data.lowerLines n)).zipWith
      (fun node part => Test.ofData part node) es).map Test.trace =
      (children.map (Child.traced n)).filterMap Sum.getRight? := by
  induction children generalizing es with
  | nil => rfl
  | cons c children ih =>
    rw [List.filterMap_cons] at hlen ⊢
    rw [List.map_cons, List.filterMap_cons]
    cases hc : Normal.test? c.toData with
    | none =>
      rw [hc] at hlen
      rw [← test_traced (.whole []) n c, hc]
      exact ih hlen
    | some d =>
      rw [hc] at hlen
      cases es with
      | nil => simp at hlen
      | cons part es =>
        rw [← test_traced part n c, hc]
        simp only [Option.map_some, List.zipWith_cons_cons, List.map_cons]
        rw [@ih es (by simpa using hlen)]

/-- The background of a feature is read from the last of its blocks that is one. -/
theorem findSome?_traced (children : List Child) :
    (children.findSome? Child.background?).map (Background.traced n) =
      (children.map (Child.traced n)).findSome? Sum.getLeft? := by
  induction children with
  | nil => rfl
  | cons c children ih => cases c <;> simp [List.findSome?_cons, Child.background?, Child.traced, ih]

theorem first_background_traced (b : Option Background) {es : List Excerpt}
    (hlen : b.toList.length ≤ es.length) :
    (((b.map fun b => (Normal.background (Child.background b).toData).lowerLines n).toList.zipWith
      (fun node part => Background.ofData part node) es).head?).map Gherkin.Background.trace =
      b.map (Background.traced n) := by
  cases b with
  | none => rfl
  | some b => cases es with
    | nil => simp at hlen
    | cons part es => exact congrArg some (background_traced part n b)

theorem feature_traced (comments : List Comment) (f : Feature) :
    (Feature.ofData e ((f.normal comments).lowerLines n)).trace = f.traced n comments := by
  have hplain := (Feature.unplaced e e n _).trans (feature_plain e comments f)
  have htags := tags_traced e n (itemsAt_tags_feature comments f)
  have hcomments : (Feature.ofData e ((f.normal comments).lowerLines n)).comments.map
      Comment.trace = comments.map (Comment.traced n) := by
    simp only [Feature.ofData, Data.itemsAt_lowerLines n (by decide : "comments" ≠ "location"),
      itemsAt_comments, List.map_map]
    exact List.map_congr_left fun c _ => comment_traced _ n c
  have hbackground : (Feature.ofData e ((f.normal comments).lowerLines n)).background.map
      Background.trace = (f.children.map (Child.traced n)).reverse.findSome? Sum.getLeft? := by
    rw [← List.map_reverse, ← findSome?_traced]
    simp only [Feature.ofData, Data.present?_lowerLines n (by decide : "background" ≠ "location"),
      present?_background, Option.map_map]
    exact first_background_traced n _ (by
      cases f.children.reverse.findSome? Child.background? <;> simp [length_splitAt])
  have htests : (Feature.ofData e ((f.normal comments).lowerLines n)).tests.map Test.trace =
      (f.children.map (Child.traced n)).filterMap Sum.getRight? := by
    simp only [Feature.ofData, Data.itemsAt_lowerLines n (by decide : "elements" ≠ "location"),
      itemsAt_elements]
    exact tests_traced n f.children (by simp [length_splitAt])
  have horigin := origin_traced e n (line?_feature comments f)
  rw [Feature.traced, ← hplain, ← htags, ← hcomments, ← hbackground, ← htests, ← horigin]
  rfl

end Document

end Gherkin
