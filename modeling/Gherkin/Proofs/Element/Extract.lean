import Gherkin.Element.Equality
import Gherkin.Proofs.Element.Trace
import Gherkin.Proofs.Layout.Wrap

/-! Taking a part out of a document. The part that a text stands for is looked for in the normal form
of the document around the text. Its trace, and whether it is there at all, can be told from the
traces of the feature and of the comments. -/

open Gherkin.Document

namespace Gherkin

def Test.scenario? : Test → Option Scenario
  | scenario s => some s
  | outline _ => none

def Test.outline? : Test → Option Outline
  | scenario _ => none
  | outline o => some o

namespace Snippet

/-- What is taken out of a document has a trace that shows in the trace of the document. -/
def Traces {α : Type} (k : Snippet) (ofData : Excerpt → Data → α) (trace : α → α) (n : ℕ)
    (view : Option Gherkin.Feature × List Document.Comment → Option α) : Prop :=
  ∀ (e : Excerpt) (doc : Document),
    (k.extract? (Normal.document doc.toData)).map (fun d => trace (ofData e (d.lowerLines n))) =
      view (doc.traced n)

variable (n : ℕ)

theorem traces_feature : feature.Traces Feature.ofData Feature.trace n (·.1) := by
  intro e doc
  rw [extract?, present?_feature, Option.map_map]
  cases hf : doc.feature with
  | none => rw [Document.traced, hf, Option.map_none, Option.map_none]
  | some f =>
    rw [Document.traced, hf, Option.map_some, Option.map_some]
    exact congrArg some (feature_traced e n doc.comments f)

theorem traces_background : background.Traces Background.ofData Background.trace n
    fun v => v.1.bind (·.background) := by
  intro e doc
  rw [extract?, present?_feature, Document.traced]
  cases doc.feature with
  | none => rfl
  | some f =>
    have hlast : (Document.Feature.traced n doc.comments f).background =
        (f.children.reverse.findSome? Child.background?).map (Document.Background.traced n) := by
      rw [findSome?_traced, List.map_reverse]
      rfl
    simp only [Option.map_some, Option.bind_some, field?_background, hlast, Option.map_map,
      Function.comp_def, background_traced]

/-- The first test of a feature is found under its trace, and it is read from a scenario or from an
outline. -/
theorem firstTest?_cases (doc : Document) :
    (firstTest? (Normal.document doc.toData) = none ∧
      (doc.traced n).1.bind (·.tests.head?) = none) ∨
    (∃ s, firstTest? (Normal.document doc.toData) =
        some (Normal.scenario (Child.scenario s).toData) ∧
      (doc.traced n).1.bind (·.tests.head?) = some (.scenario (s.traced n))) ∨
    ∃ o, firstTest? (Normal.document doc.toData) =
        some (Normal.outline (Child.outline o).toData) ∧
      (doc.traced n).1.bind (·.tests.head?) = some (.outline (o.traced n)) := by
  obtain ⟨feature, comments⟩ := doc
  cases feature with
  | none =>
    refine .inl ⟨?_, rfl⟩
    have hnone := present?_feature ⟨none, comments⟩
    rw [firstTest?, hnone]
    rfl
  | some f =>
    have hview : (Document.traced n ⟨some f, comments⟩).1.bind (·.tests.head?) =
        ((f.children.map (Child.traced n)).filterMap Sum.getRight?).head? := rfl
    rw [firstTest?_document, hview]
    induction f.children with
    | nil => exact .inl ⟨rfl, rfl⟩
    | cons c children ih =>
      rw [List.filterMap_cons, test?_toData, List.map_cons, List.filterMap_cons]
      cases c with
      | background b => exact ih
      | scenario s => exact .inr (.inl ⟨s, rfl, rfl⟩)
      | outline o => exact .inr (.inr ⟨o, rfl, rfl⟩)

theorem traces_scenario : scenario.Traces Scenario.ofData Scenario.trace n
    fun v => (v.1.bind (·.tests.head?)).bind Test.scenario? := by
  intro e doc
  rw [extract?]
  obtain ⟨hfirst, hview⟩ | ⟨s, hfirst, hview⟩ | ⟨o, hfirst, hview⟩ := firstTest?_cases n doc <;>
    simp only [hfirst, hview]
  · rfl
  · have htype : (Normal.scenario (Child.scenario s).toData).hasType "Scenario" = true :=
      (hasType_heading _ _ _ _).trans (by decide)
    simp only [Option.filter, htype, if_true]
    exact congrArg some (scenario_traced e n s)
  · have htype : (Normal.outline (Child.outline o).toData).hasType "Scenario" = false :=
      (hasType_heading _ _ _ _).trans (by decide)
    simp only [Option.filter, htype, Bool.false_eq_true, if_false]
    rfl

theorem traces_outline : outline.Traces Outline.ofData Outline.trace n
    fun v => (v.1.bind (·.tests.head?)).bind Test.outline? := by
  intro e doc
  rw [extract?]
  obtain ⟨hfirst, hview⟩ | ⟨s, hfirst, hview⟩ | ⟨o, hfirst, hview⟩ := firstTest?_cases n doc <;>
    simp only [hfirst, hview]
  · rfl
  · simp only [Option.filter, hasType_scenario, Bool.false_eq_true, if_false]
    rfl
  · simp only [Option.filter, hasType_outline, if_true]
    exact congrArg some (outline_traced e n o)

theorem traces_example : Snippet.example.Traces Example.ofData Example.trace n
    fun v => ((v.1.bind (·.tests.head?)).bind Test.outline?).bind (·.examples.head?) := by
  intro e doc
  rw [extract?]
  obtain ⟨hfirst, hview⟩ | ⟨s, hfirst, hview⟩ | ⟨o, hfirst, hview⟩ := firstTest?_cases n doc <;>
    simp only [hfirst, hview]
  · rfl
  · have hnone : (Normal.scenario (Child.scenario s).toData).itemsAt "examples" = [] := by
      simp [Normal.scenario, Data.itemsAt, Data.field, lookup_heading, headingKeys,
        List.lookup_cons, Data.items]
    rw [Option.bind_some, hnone]
    rfl
  · rw [Option.bind_some, itemsAt_examples, List.head?_map, Option.map_map]
    have hhead : (Document.Outline.traced n o).examples.head? =
        o.examples.head?.map (Examples.traced n) := List.head?_map
    simp only [Test.outline?, Option.bind_some, hhead, Function.comp_def, examples_traced]

theorem traces_step : step.Traces Step.ofData Step.trace n
    fun v => (v.1.bind (·.tests.head?)).bind (·.steps.head?) := by
  intro e doc
  have hhead (steps : List Document.Step) :
      ((steps.map fun s => Normal.step s.toData).head?).map
        (fun d => (Step.ofData e (d.lowerLines n)).trace) =
      (steps.map (Document.Step.traced n)).head? := by
    simp only [List.head?_map, Option.map_map, Function.comp_def, step_traced]
  rw [extract?]
  obtain ⟨hfirst, hview⟩ | ⟨s, hfirst, hview⟩ | ⟨o, hfirst, hview⟩ := firstTest?_cases n doc <;>
    simp only [hfirst, hview]
  · rfl
  · rw [Option.bind_some, itemsAt_steps, hhead]
    rfl
  · rw [Option.bind_some, itemsAt_steps_outline, hhead]
    rfl

theorem traces_tag : tag.Traces Tag.ofData Tag.trace n fun v => v.1.bind (·.tags.head?) := by
  intro e doc
  rw [extract?, present?_feature, Document.traced]
  cases doc.feature with
  | none => rfl
  | some f =>
    have hhead : (Document.Feature.traced n doc.comments f).tags.head? =
        f.tags.head?.map (LocatedTag.traced n) := List.head?_map
    simp only [Option.map_some, Option.bind_some, itemsAt_tags_feature, hhead, List.head?_map,
      Option.map_map, Function.comp_def, tag_traced]

theorem traces_comment : comment.Traces Comment.ofData Comment.trace n
    fun v => v.2.getLast?.map (Comment.traced n) := by
  intro e doc
  have hcomments : (Normal.document doc.toData).itemsAt "comments" =
      doc.comments.map fun c => Normal.comment c.toData := by
    simp [Normal.document, Normal.each, Document.toData, Data.itemsAt, Data.field, List.lookup_cons,
      Data.items]
  rw [extract?, hcomments, List.getLast?_map, Option.map_map]
  simp only [Function.comp_def, comment_traced]
  rfl

end Snippet

end Gherkin
