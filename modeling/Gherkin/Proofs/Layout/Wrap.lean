import Gherkin.Proofs.Layout.Feature

/-! Parts of a feature behind the lines that are put in front of them. Together they are a feature
that has just that part, so the text is a document that holds it. -/

open Gherkin.Document

namespace Gherkin

variable {d : Dialect} {page : List Text}

/-! ### Lines put in front -/

/-- A header line with nothing under it. -/
theorem holds_header (hd : d.Sound) {block : Block} {keyword name : Text}
    (h : (block, keyword) ∈ d.headerKeywords) (hname : name.trim = name) (hline : '\n' ∉ name) :
    Holds d (Reading.Headed block) Heading.plain [Style.nameLine keyword name]
      ⟨keyword, name, []⟩ := by
  have hne : keyword ≠ [] := by
    obtain ⟨c, cs, hcons, -⟩ := (hd.header _ h).1.exists_cons
    simp only at hcons
    rw [hcons]
    exact List.cons_ne_nil _ _
  have hheading : Heading.WellFormed d block ⟨keyword, name, []⟩ := by
    refine ⟨.inr h, hname, hline, rfl, fun l hl => ?_⟩
    have hnil : l = [] := by simpa [Text.lines, Text.splitOn] using hl
    rw [hnil]
    rfl
  have hholds := holds_headed hd h hheading (fun t ht => absurd ht List.not_mem_nil)
  simpa [Style.keywordOr, hne, paragraph, Heading.settle] using hholds

theorem featureLine_eq (d : Dialect) : Snippet.featureLine d =
    Style.nameLine d.featureKeyword "Fake feature to parse".toList := by
  have hopen : ": Fake feature to parse".toList = ": ".toList ++ "Fake feature to parse".toList := by
    simp
  have hname : "Fake feature to parse".toList ≠ [] := by simp
  unfold Snippet.featureLine Style.nameLine
  rw [if_neg hname, hopen, List.append_assoc]

theorem Vocabulary.plainKind_nameLine (hd : d.Sound) (block : Block) {name : Text}
    (hname : name.trim = name) :
    d.vocabulary.plainKind (Style.nameLine (d.defaultKeyword block) name) =
      .header block (d.defaultKeyword block) name :=
  plainKind_of_ne (kindOf_nameLine hd (hd.defaultKeyword_mem block) hname) (by simp)

theorem Snippet.plainKind_featureLine (hd : d.Sound) : d.vocabulary.plainKind (Snippet.featureLine d) =
    .header .feature d.featureKeyword "Fake feature to parse".toList := by
  rw [featureLine_eq]
  exact Vocabulary.plainKind_nameLine hd .feature (by decide)

theorem Snippet.exists_plainKind_givenLine (hd : d.Sound) : ∃ keyword text,
    d.vocabulary.plainKind (d.givenKeyword ++ " fake step".toList) = .step keyword text := by
  have hstep : " fake step".toList = ' ' :: 'f' :: "ake step".toList := by simp
  have hcolon : ':' ∉ "ake step".toList := by simp
  obtain ⟨keyword, text, hkind⟩ := Vocabulary.kindOf_given hd hcolon
  rw [hstep]
  exact ⟨keyword, text, Vocabulary.plainKind_of_ne hkind (by simp)⟩

theorem holds_featureLine (hd : d.Sound) :
    Holds d (Reading.Headed .feature) Heading.plain [Snippet.featureLine d]
      ⟨d.featureKeyword, "Fake feature to parse".toList, []⟩ := by
  rw [featureLine_eq]
  exact holds_header hd (hd.defaultKeyword_mem .feature) (by decide) (by decide)

theorem holds_givenLine (hd : d.Sound) : ∃ steps,
    Holds d (Reading.Many Reading.Step) (List.map Step.plain)
      [d.givenKeyword ++ " fake step".toList] steps := by
  have hend : Text.trimEnd (d.givenKeyword ++ " fake step".toList) =
      d.givenKeyword ++ " fake step".toList := by
    have hlast : " fake step".toList.getLast? = some 'p' := by simp
    have hne : " fake step".toList ≠ [] := by simp
    rw [Text.trimEnd_eq_self_iff, List.getLast?_append_of_ne_nil _ hne, hlast]
    intro c hc
    obtain rfl := Option.some.inj hc
    rfl
  have hline : '\n' ∉ d.givenKeyword ++ " fake step".toList := by
    rw [List.mem_append, not_or]
    exact ⟨hd.given.1, by decide⟩
  obtain ⟨keyword, text, hkind⟩ := Snippet.exists_plainKind_givenLine hd
  refine ⟨[{ keyword := keyword.trim, text }], fun t ht => ?_, fun hp hw => ?_⟩
  · rw [List.mem_singleton.1 ht]
    exact Text.isLine_of_trimEnd hline hend
  · obtain ⟨l, rest, rfl, -, hl, hrest⟩ := Written.cons_iff.1 hw
    rw [Written.nil_iff.1 hrest]
    rw [hkind] at hl
    have hread : Reading.Step [l] ⟨l.location, keyword, text, none⟩ [] :=
      .mk .nil hl (.none .nil)
    exact ⟨_, .cons hread (.nil .nil), rfl⟩

/-! ### Taking the part out -/

/-- The element that is taken out of a document with the feature `f` and these comments. -/
def Snippet.plainOf {α : Type} (k : Snippet) (ofData : Excerpt → Data → α) (forget : α → α)
    (comments : List Document.Comment) (f : Document.Feature) : Option α :=
  (k.extract? (Normal.document (Document.toData ⟨some f, comments⟩))).map fun node =>
    forget (ofData (.whole []) node)

section Parts

variable (comments : List Document.Comment) (f : Document.Feature) (head : Document.Heading)
  (code : Text)

theorem present?_feature_some :
    (Normal.document (Document.toData ⟨some f, comments⟩)).present? "feature" =
      some (f.normal comments) :=
  present?_feature ⟨some f, comments⟩

theorem firstTest?_document :
    Snippet.firstTest? (Normal.document (Document.toData ⟨some f, comments⟩)) =
      (f.children.filterMap fun c => Normal.test? c.toData).head? := by
  rw [Snippet.firstTest?, present?_feature_some, ← itemsAt_elements comments]
  rfl

theorem plainOf_background (b : Document.Background) :
    Snippet.background.plainOf Background.ofData Background.forget comments
      ⟨head, [], code, [.background b]⟩ = some b.plain := by
  rw [Snippet.plainOf, Snippet.extract?, present?_feature_some, Option.bind_some,
    field?_background]
  exact congrArg some (background_plain _ b)

theorem plainOf_scenario (x : Document.Scenario) :
    Snippet.scenario.plainOf Scenario.ofData Scenario.forget comments
      ⟨head, [], code, [.scenario x]⟩ = some x.plain := by
  have htype : (Normal.scenario (Child.scenario x).toData).hasType "Scenario" = true :=
    (hasType_heading _ _ _ _).trans (by decide)
  rw [Snippet.plainOf, Snippet.extract?, firstTest?_document, List.filterMap_cons, test?_toData]
  simp only [List.head?_cons, Option.filter, htype, if_true]
  exact congrArg some (scenario_plain _ x)

theorem plainOf_outline (x : Document.Outline) :
    Snippet.outline.plainOf Outline.ofData Outline.forget comments
      ⟨head, [], code, [.outline x]⟩ = some x.plain := by
  rw [Snippet.plainOf, Snippet.extract?, firstTest?_document, List.filterMap_cons, test?_toData]
  simp only [List.head?_cons, Option.filter, hasType_outline, if_true]
  exact congrArg some (outline_plain _ x)

theorem plainOf_example (x : Document.Outline) (e : Document.Examples) (he : x.examples = [e]) :
    Snippet.example.plainOf Example.ofData Example.forget comments
      ⟨head, [], code, [.outline x]⟩ = some e.plain := by
  rw [Snippet.plainOf, Snippet.extract?, firstTest?_document, List.filterMap_cons, test?_toData]
  simp only [List.head?_cons, Option.bind_some, itemsAt_examples, he, List.map_cons]
  exact congrArg some (examples_plain _ e)

theorem plainOf_step (x : Document.Scenario) (e : Document.Step) (he : x.steps = [e]) :
    Snippet.step.plainOf Step.ofData Step.forget comments
      ⟨head, [], code, [.scenario x]⟩ = some e.plain := by
  rw [Snippet.plainOf, Snippet.extract?, firstTest?_document, List.filterMap_cons, test?_toData]
  simp only [List.head?_cons, Option.bind_some, itemsAt_steps, he, List.map_cons]
  exact congrArg some (step_plain _ e)

theorem plainOf_comment (c : Document.Comment) :
    Snippet.comment.plainOf Comment.ofData Comment.forget [c] f = some { text := c.text } := by
  have hcomments : (Normal.document (Document.toData ⟨some f, [c]⟩)).itemsAt "comments" =
      [Normal.comment c.toData] := by
    simp [Normal.document, Normal.each, Document.toData, Data.itemsAt, Data.field, List.lookup_cons,
      Data.items]
  rw [Snippet.plainOf, Snippet.extract?, hcomments]
  exact congrArg some (comment_plain _ c)

end Parts

/-! ### Frames -/

/-- Behind these lines, a node is the part of a feature that is taken out again. -/
structure Frames {α β : Type} (d : Dialect) (code : Text) (k : Snippet) (before : List Text)
    (R : List Line → α → List Document.Comment → Prop) (plain : α → β)
    (ofData : Excerpt → Data → β) (forget : β → β) : Prop where
  line : ∀ t ∈ before, t.IsLine
  reading : ∀ {p hs ls a cs}, Text.IsIndent p → Written d.vocabulary p before hs → R ls a cs →
    ∃ f, Reading.Feature code (hs ++ ls) f cs ∧ k.plainOf ofData forget cs f = some (plain a)

/-- A page that holds a node can be put behind the lines. -/
theorem Frames.holds {α β : Type} {code : Text} {k : Snippet} {before : List Text}
    {R : List Line → α → List Document.Comment → Prop} {plain : α → β}
    {ofData : Excerpt → Data → β} {forget : β → β}
    (hframe : Frames d code k before R plain ofData forget) {x : β} (h : Holds d R plain page x) :
    Holds d (Reading.Feature code) (k.plainOf ofData forget []) (before ++ page) (some x) where
  line := List.forall_mem_append.2 ⟨hframe.line, h.line⟩
  reading hp hw := by
    obtain ⟨hs, ls, rfl, hhs, hls⟩ := Written.append_iff.1 hw
    obtain ⟨a, ha, rfl⟩ := h.reading hp hls
    exact hframe.reading hp hhs ha

/-- A test in front of which the feature line is put. -/
theorem reading_framed_test (code : Text) {hs ls : List Line} {head : Document.Heading} {c : Child}
    {cs : List Document.Comment} (hh : Reading.Headed .feature hs head [])
    (h : Reading.Test ls c cs) :
    Reading.Feature code (hs ++ ls) ⟨head, [], code, [c]⟩ cs := by
  have hmany : Reading.Many Reading.Test (ls ++ []) [c] (cs ++ []) := .cons h (.nil .nil)
  rw [List.append_nil, List.append_nil] at hmany
  exact .mk (.nil .nil) hh (.tests hmany)

section Framed

variable (hd : d.Sound) (code : Text)

include hd

theorem frames_background : Frames d code .background [Snippet.featureLine d] Reading.Background
    Background.plain Background.ofData Background.forget where
  line := (holds_featureLine hd).line
  reading {_ _ ls b cs} hp hw hb := by
    obtain ⟨head, hh, -⟩ := (holds_featureLine hd).reading hp hw
    have hchildren : Reading.Children (ls ++ []) [.background b] (cs ++ []) :=
      .background hb (.nil .nil)
    rw [List.append_nil, List.append_nil] at hchildren
    exact ⟨_, .mk (.nil .nil) hh hchildren, plainOf_background _ _ _ _⟩

theorem frames_scenario : Frames d code .scenario [Snippet.featureLine d]
    (fun ls s => Reading.Test ls (.scenario s)) Scenario.plain Scenario.ofData Scenario.forget where
  line := (holds_featureLine hd).line
  reading hp hw hs := by
    obtain ⟨head, hh, -⟩ := (holds_featureLine hd).reading hp hw
    exact ⟨_, reading_framed_test code hh hs, plainOf_scenario _ _ _ _⟩

theorem frames_outline : Frames d code .outline [Snippet.featureLine d]
    (fun ls o => Reading.Test ls (.outline o)) Outline.plain Outline.ofData Outline.forget where
  line := (holds_featureLine hd).line
  reading hp hw ho := by
    obtain ⟨head, hh, -⟩ := (holds_featureLine hd).reading hp hw
    exact ⟨_, reading_framed_test code hh ho, plainOf_outline _ _ _ _⟩

theorem frames_example : Frames d code .example
    [Snippet.featureLine d, d.outlineKeyword ++ [':'], d.givenKeyword ++ " fake step".toList]
    Reading.Examples Examples.plain Example.ofData Example.forget := by
  obtain ⟨steps, hsteps⟩ := holds_givenLine hd
  have houtline : Holds d (Reading.Headed .outline) Heading.plain [d.outlineKeyword ++ [':']] _ :=
    holds_header hd (hd.defaultKeyword_mem .outline) Text.trim_nil (by simp)
  have hall := (holds_featureLine hd).both (houtline.both hsteps)
  refine ⟨hall.line, fun {_ _ ls e cs} hp hw he => ?_⟩
  obtain ⟨⟨head, title, nodes⟩, ⟨as, _, rfl, hh, ⟨bs, ss, rfl, ht, hs, -⟩, -⟩, -⟩ :=
    hall.reading hp hw
  have hmany : Reading.Many Reading.Examples (ls ++ []) [e] (cs ++ []) := .cons he (.nil .nil)
  rw [List.append_nil, List.append_nil] at hmany
  have hread := reading_framed_test code hh (.outline (.nil .nil) ht hs hmany)
  refine ⟨_, ?_, plainOf_example _ head code ⟨title, [], nodes, [e]⟩ e rfl⟩
  simpa using hread

theorem frames_step : Frames d code .step [Snippet.featureLine d, d.scenarioKeyword ++ [':']]
    Reading.Step Step.plain Step.ofData Step.forget := by
  have hscenario : Holds d (Reading.Headed .scenario) Heading.plain [d.scenarioKeyword ++ [':']] _ :=
    holds_header hd (hd.defaultKeyword_mem .scenario) Text.trim_nil (by simp)
  have hall := (holds_featureLine hd).both hscenario
  refine ⟨hall.line, fun {_ _ ls e cs} hp hw he => ?_⟩
  obtain ⟨⟨head, title⟩, ⟨as, bs, rfl, hh, ht, -⟩, -⟩ := hall.reading hp hw
  have hmany : Reading.Many Reading.Step (ls ++ []) [e] (cs ++ []) := .cons he (.nil .nil)
  rw [List.append_nil, List.append_nil] at hmany
  have hread := reading_framed_test code hh (.scenario (.nil .nil) ht hmany)
  refine ⟨_, ?_, plainOf_step _ head code ⟨title, [], [e]⟩ e rfl⟩
  simpa using hread

end Framed

/-! ### Pages of tests -/

theorem Holds.scenario {e : Gherkin.Scenario}
    (h : Holds d Reading.Test Child.test? page (some (.scenario e))) :
    Holds d (fun ls s => Reading.Test ls (.scenario s)) Scenario.plain page e where
  line := h.line
  reading hp hw := by
    obtain ⟨c, hc, htest⟩ := h.reading hp hw
    cases c with
    | background b | outline o => cases htest
    | scenario x => exact ⟨x, hc, Test.scenario.inj (Option.some.inj htest)⟩

theorem Holds.outline {o : Gherkin.Outline}
    (h : Holds d Reading.Test Child.test? page (some (.outline o))) :
    Holds d (fun ls o => Reading.Test ls (.outline o)) Outline.plain page o where
  line := h.line
  reading hp hw := by
    obtain ⟨c, hc, htest⟩ := h.reading hp hw
    cases c with
    | background b | scenario s => cases htest
    | outline x => exact ⟨x, hc, Test.outline.inj (Option.some.inj htest)⟩

end Gherkin
