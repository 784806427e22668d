import Gherkin.Element.Parse
import Gherkin.Proofs.Document.Parse
import Gherkin.Proofs.Element.OfDocument
import Gherkin.Proofs.Text.Description

/-! The feature file of a text, read straight off the tree of its document. On the way through data,
normal form and excerpts nothing is lost: a text is refused for the same reason, every block of the
tree becomes a part of the feature, in the order of the tree, and only the origins are added. -/

namespace Gherkin

namespace Document

/-- A description of blanks is empty in normal form, as one that is missing is. -/
theorem descriptionOf_eq_normal (description : Option Text) :
    descriptionOf description = (description.map Text.normalizeDescription).getD [] := by
  cases description with
  | none => rfl
  | some t =>
    rw [descriptionOf, Option.map_some, Option.getD_some]
    split_ifs with hblank
    · exact (Text.normalizeDescription_of_blank (Text.trim_eq_nil_iff.1 hblank)).symm
    · rfl

/-- The feature file that a document is at a path. -/
def image (path : Text) (doc : Document) : FeatureFile :=
  { path, feature := doc.feature.map (Feature.plain doc.comments) }

/-- The part of a feature that a block of the tree becomes. -/
def Child.image : Child → Gherkin.Background ⊕ Test
  | background b => .inl b.plain
  | scenario s => .inr (.scenario s.plain)
  | outline o => .inr (.outline o.plain)

end Document

/-- The parts of a feature in their order. -/
def Feature.parts (f : Feature) : List (Background ⊕ Test) :=
  f.background.toList.map .inl ++ f.tests.map .inr

namespace Document

theorem image_of_test {ls : List Line} {c : Child} {cs : List Comment} (h : Reading.Test ls c cs) :
    c.background? = none ∧ ∃ t, c.test? = some t ∧ c.image = .inr t := by
  cases h with
  | scenario => exact ⟨rfl, _, rfl, rfl⟩
  | outline => exact ⟨rfl, _, rfl, rfl⟩

theorem image_of_tests {ls : List Line} {tests : List Child} {cs : List Comment}
    (h : Reading.Many Reading.Test ls tests cs) :
    tests.reverse.findSome? Child.background? = none ∧
      (tests.filterMap Child.test?).map .inr = tests.map Child.image := by
  induction h with
  | nil => exact ⟨rfl, rfl⟩
  | cons h _ ih =>
    obtain ⟨hnone, t, htest, himage⟩ := image_of_test h
    refine ⟨?_, ?_⟩
    · rw [List.reverse_cons, List.findSome?_append, ih.1]
      simp [hnone]
    · rw [List.filterMap_cons, htest, List.map_cons, List.map_cons, ih.2, himage]

/-- Every block of a feature becomes a part, in its place. -/
theorem parts_plain {language : Text} {ls : List Line} {f : Feature} {cs : List Comment}
    (h : Reading.Feature language ls f cs) (comments : List Comment) :
    (f.plain comments).parts = f.children.map Child.image := by
  cases h with
  | mk _ _ h => cases h with
    | tests h =>
      obtain ⟨hnone, htests⟩ := image_of_tests h
      simp [Feature.plain, Feature.parts, hnone, htests]
    | @background _ b _ _ tests _ _ h =>
      obtain ⟨hnone, htests⟩ := image_of_tests h
      simp [Feature.plain, Feature.parts, List.filterMap_cons, hnone, htests, Child.background?,
        Child.test?, Child.image]

end Document

/-- A feature file is read just when its document is, and refused for the same reason. But for the
origins it is the image of the document: its descriptions are those of the document in normal form,
and no block of the document is missing or out of place. -/
theorem FeatureFile.forget_parse (code path source : Text) :
    (FeatureFile.parse code path source).map FeatureFile.forget =
        ((Document.parse code source).mapError fun e => ⟨e, path⟩).map (Document.image path) ∧
      (∀ h : Document.Heading,
        h.plain.description = (h.description.map Text.normalizeDescription).getD []) ∧
      ∀ doc, Document.parse code source = .ok doc → ∀ f ∈ doc.feature,
        (f.plain doc.comments).parts = f.children.map Document.Child.image := by
  refine ⟨?_, fun h => Document.descriptionOf_eq_normal h.description, ?_⟩
  · unfold FeatureFile.parse Document.read
    cases Document.parse code source with
    | error e => rfl
    | ok doc =>
      have hplain : Feature.forget ∘ Feature.ofData (.whole source) ∘
          Document.Feature.normal doc.comments = Document.Feature.plain doc.comments :=
        funext fun f => Document.feature_plain (.whole source) doc.comments f
      simp only [Except.map, Except.mapError, Document.present?_feature, FeatureFile.forget,
        Document.image, Option.map_map, hplain]
  · intro doc hparse f hf
    obtain ⟨-, language, d, header, -, -, -, hreading⟩ := Document.reading_of_parse hparse
    cases hreading with
    | empty => cases hf
    | feature h =>
      obtain rfl := Option.some.inj hf
      exact Document.parts_plain h _

/-- A background and a scenario both have their part. -/
theorem FeatureFile.forget_parse_pair :
    ∃ doc f, Document.parse Dialect.defaultCode
        "Feature: a\nBackground:\nGiven b\n@c\nScenario: d".toList = .ok doc ∧
      doc.feature = some f ∧ f.children.length = 2 ∧
      (f.plain doc.comments).parts = f.children.map Document.Child.image := by
  generalize hsource : "Feature: a\nBackground:\nGiven b\n@c\nScenario: d".toList = source
  have hlength : ((Document.parse Dialect.defaultCode source).toOption.bind
      (·.feature)).map (·.children.length) = some 2 := by
    rw [← hsource]
    decide +kernel
  cases hparse : Document.parse Dialect.defaultCode source with
  | error e => simp [hparse, Except.toOption] at hlength
  | ok doc =>
    rw [hparse] at hlength
    obtain ⟨f, hfeature, htwo⟩ := Option.map_eq_some_iff.1 hlength
    exact ⟨doc, f, rfl, hfeature, htwo,
      (FeatureFile.forget_parse Dialect.defaultCode [] source).2.2 doc hparse f hfeature⟩

end Gherkin
