import Gherkin.Element.Parse
import Gherkin.Proofs.Layout.Wrap
import Gherkin.Proofs.Element.Essence

/-! Rendering an element that is well formed in a dialect and reading the text again gives the
element back. -/

open Gherkin.Document

namespace Gherkin

variable {code : Text} {d : Dialect} {page : List Text}

/-! ### Documents -/

theorem Text.unlines_append (before : List Text) (hne : page ≠ []) :
    Text.unlines (before ++ [Text.unlines page]) = Text.unlines (before ++ page) := by
  rw [← Text.unlines_lines (Text.unlines (before ++ [Text.unlines page])),
    Text.lines_unlines_eq_flatMap (by simp), List.flatMap_append, List.flatMap_singleton,
    Text.lines_unlines_eq_flatMap hne, ← List.flatMap_append,
    ← Text.lines_unlines_eq_flatMap (by simp [hne]), Text.unlines_lines]

theorem isLine_languageLine (hcode : Dialect.get? code = some d) :
    (Snippet.languageLine code).IsLine := by
  obtain ⟨hne, hchars⟩ := Dialect.code_table _ (Dialect.mem_table_of_get? hcode)
  have hblank : ∀ c ∈ code, Text.isBlank c = false := fun c hc =>
    Vocabulary.not_isBlank_of_isCodeChar (hchars c hc)
  have hopen : '\n' ∉ "# language: ".toList := by simp
  unfold Snippet.languageLine
  refine Text.isLine_of_trimEnd ?_ ?_
  · rw [List.mem_append, not_or]
    exact ⟨hopen, fun hmem => Bool.noConfusion (hblank '\n' hmem)⟩
  · rw [Text.trimEnd_eq_self_iff, List.getLast?_append_of_ne_nil _ hne]
    exact fun c hc => hblank c (List.mem_of_getLast? hc)

/-- The header of a supported language, as a line. -/
theorem linesAt_languageLine (hcode : Dialect.get? code = some d) (v : Vocabulary) (n : ℕ)
    (lines : List Text) : v.linesAt n (Snippet.languageLine code :: lines) =
      ⟨n + 1, Snippet.languageLine code, .language code⟩ :: v.linesAt (n + 1) lines := by
  obtain ⟨hne, hchars⟩ := Dialect.code_table _ (Dialect.mem_table_of_get? hcode)
  rw [Vocabulary.linesAt_cons, (isLine_languageLine hcode).dropReturn,
    Vocabulary.kindOf_languageLine v hne hchars]

/-- A language header on the first line decides the dialect. -/
theorem parse_of_languageLine {active : Text} {fallback : Dialect} {source : Text} {lines : List Text}
    (hactive : Dialect.get? active = some fallback) (hcode : Dialect.get? code = some d)
    (hlines : source.lines = Snippet.languageLine code :: lines) :
    Document.parse active source = Parser.document code (linesIn d (some 1) source) := by
  have hopening : openingLanguage? (fallback.vocabulary.classify source) = some (1, code) := by
    rw [Vocabulary.classify_eq, hlines, linesAt_languageLine hcode, openingLanguage?]
  simp only [Document.parse, hactive, hopening, hcode]

/-- Below a language header the lines are read in the dialect of the header. -/
theorem parse_languageLine {active : Text} {fallback : Dialect} {lines : List Text}
    (hactive : Dialect.get? active = some fallback) (hcode : Dialect.get? code = some d)
    (hlines : ∀ t ∈ lines, '\n' ∉ t) {f : Document.Feature} {comments : List Document.Comment}
    (h : Reading.Feature code ((d.vocabulary.linesAt 1 lines).map (demote (some 1))) f comments) :
    Document.parse active (Text.unlines (Snippet.languageLine code :: lines)) =
      .ok ⟨some f, comments⟩ := by
  have hsplit := Text.lines_unlines (Snippet.languageLine code) lines
    (List.forall_mem_cons.2 ⟨(isLine_languageLine hcode).1, hlines⟩)
  obtain ⟨l, hl, hall⟩ : ∃ l, l.kind = .language code ∧
      linesIn d (some 1) (Text.unlines (Snippet.languageLine code :: lines)) =
        l :: (d.vocabulary.linesAt 1 lines).map (demote (some 1)) := by
    rw [linesIn, Vocabulary.classify_eq, hsplit, linesAt_languageLine hcode, List.map_cons]
    exact ⟨_, by simp [demote], rfl⟩
  have hread := h.lead (Trivia.single (l := l) (by rw [hl]; rfl))
  rw [commentsOf_of_ne (by rw [hl]; simp)] at hread
  have htidy := tidy_linesIn d (some 1) (Text.unlines (Snippet.languageLine code :: lines))
  rw [parse_of_languageLine hactive hcode hsplit]
  rw [hall] at htidy ⊢
  exact document_of_reading (.feature hread) htidy

/-- What is taken out of the document around a text is what the text is read as. -/
theorem readWith_of_parse {α : Type} {k : Snippet} {ofData : Excerpt → Data → α} {forget : α → α}
    (hunplaced : Unplaced forget ofData) (absent : α) (hcode : Dialect.get? code = some d)
    {source : Text} {f : Document.Feature} {comments : List Document.Comment}
    (hparse : Document.parse code (k.wrap code d source) = .ok ⟨some f, comments⟩) {x : α}
    (hplain : k.plainOf ofData forget comments f = some x) :
    ∃ r, k.readWith ofData absent code source = .ok r ∧ forget r = x := by
  obtain ⟨node, hnode, hforget⟩ := Option.map_eq_some_iff.1 hplain
  refine ⟨ofData (.whole source) (node.lowerLines (k.opening code d).length), ?_, ?_⟩
  · simp only [Snippet.readWith, Snippet.read, hcode, Document.read, hparse, Except.map, hnode]
  · exact (hunplaced _ _ _ _).trans hforget

/-- The document around a text that is put behind a language header and further lines. -/
theorem wrap_eq {k : Snippet} {before : List Text}
    (hopening : k.opening code d = Snippet.languageLine code :: before)
    (hclosing : k.closing d = []) (hne : page ≠ []) :
    k.wrap code d (Text.unlines page) =
      Text.unlines (Snippet.languageLine code :: (before ++ page)) := by
  rw [Snippet.wrap, hopening, hclosing, Text.unlines_append _ hne, List.cons_append]

/-- A text that is wrapped in a language header and further lines. -/
theorem exists_readWith {α : Type} {k : Snippet} {ofData : Excerpt → Data → α} {forget : α → α}
    (hunplaced : Unplaced forget ofData) (absent : α) (hcode : Dialect.get? code = some d)
    {before : List Text} (hopening : k.opening code d = Snippet.languageLine code :: before)
    (hclosing : k.closing d = []) (hne : page ≠ []) {x : α}
    (h : Holds d (Reading.Feature code) (k.plainOf ofData forget []) (before ++ page) (some x)) :
    ∃ r, k.readWith ofData absent code (Text.unlines page) = .ok r ∧ forget r = x := by
  have hw : Written d.vocabulary [] (before ++ page)
      ((d.vocabulary.linesAt 1 (before ++ page)).map (demote (some 1))) :=
    written_linesAt d.vocabulary (by simp) h.line
  obtain ⟨f, hf, hplain⟩ := h.reading Text.IsIndent.nil hw
  refine readWith_of_parse hunplaced absent hcode ?_ hplain
  rw [wrap_eq hopening hclosing hne]
  exact parse_languageLine hcode hcode (fun t ht => (h.line t ht).1) hf

/-- A feature's own page is a document in which its comments are found again. -/
theorem exists_parse_feature {s : Style} (hcode : Dialect.get? s.code = some s.dialect)
    (hs : s.indent.IsIndent) {f : Gherkin.Feature} (h : f.WellFormed s.dialect) :
    ∃ node comments, Document.parse s.code (s.feature f) = .ok ⟨some node, comments⟩ ∧
      node.plain comments = s.dialect.settleFeature s.code f := by
  have hd := Dialect.sound_of_get? hcode
  obtain ⟨t, page, hpage, -⟩ := exists_featurePage hd hs h.toWellFormedBelow s.code
  have hne : featurePage s f ≠ [] := by
    rw [hpage]
    simp
  have hw := written_linesIn s.dialect hne (isLine_featurePage hd hs h.toWellFormedBelow)
  obtain ⟨node, comments, hnode, hplain⟩ := feature_reading hd hs h.toWellFormedBelow s.code hw
  have htidy := tidy_linesIn s.dialect none (Text.unlines (featurePage s f))
  refine ⟨node, comments, ?_, hplain⟩
  simp only [Document.parse, hcode, openingLanguage?_featurePage hd hs h]
  exact document_of_reading (.feature hnode) htidy

/-! ### Elements -/

section Elements

variable {s : Style} (hcode : Dialect.get? s.code = some s.dialect) (hs : s.indent.IsIndent)

include hcode hs

theorem Feature.exists_parse {f : Feature} (h : f.WellFormed s.dialect) :
    ∃ r, Feature.parse s.code (s.feature f) = .ok r ∧
      r.forget = s.dialect.settleFeature s.code f := by
  obtain ⟨node, comments, hparse, hplain⟩ := exists_parse_feature hcode hs h
  have hwrap : Snippet.feature.wrap s.code s.dialect (s.feature f) = s.feature f :=
    @Text.joinWith_singleton '\n' _
  have hextract : Snippet.feature.extract?
      (Normal.document (Document.toData ⟨some node, comments⟩)) = some (node.normal comments) :=
    present?_feature ⟨some node, comments⟩
  refine ⟨Feature.ofData (.whole (s.feature f)) ((node.normal comments).lowerLines 0), ?_, ?_⟩
  · simp only [Feature.parse, Snippet.readWith, Snippet.read, hcode, hwrap, Document.read, hparse,
      Except.map, hextract]
    rfl
  · exact (Feature.unplaced _ (.whole []) _ _).trans ((feature_plain _ _ _).trans hplain)

theorem Background.exists_parse {b : Background} (h : b.WellFormed s.dialect) :
    ∃ r, Background.parse s.code (s.background b) = .ok r ∧
      r.forget = s.dialect.settleBackground b := by
  have hd := Dialect.sound_of_get? hcode
  exact exists_readWith Background.unplaced {} hcode rfl rfl (withSteps_ne_nil _ _ _ _ _)
    ((frames_background hd s.code).holds (holds_background hd hs h))

theorem Scenario.exists_parse {e : Scenario} (h : e.WellFormed s.dialect) :
    ∃ r, Scenario.parse s.code (s.scenario e) = .ok r ∧
      r.forget = s.dialect.settleScenario e := by
  have hd := Dialect.sound_of_get? hcode
  exact exists_readWith Scenario.unplaced {} hcode rfl rfl (withSteps_ne_nil _ _ _ _ _)
    ((frames_scenario hd s.code).holds (holds_scenario hd hs h).scenario)

theorem Outline.exists_parse {o : Outline} (h : o.WellFormed s.dialect) :
    ∃ r, Outline.parse s.code (s.outline o) = .ok r ∧ r.forget = s.dialect.settleOutline o := by
  have hd := Dialect.sound_of_get? hcode
  exact exists_readWith Outline.unplaced {} hcode rfl rfl (testPage_ne_nil (.outline o))
    ((frames_outline hd s.code).holds (holds_outline hd hs h).outline)

theorem Example.exists_parse {e : Example} (h : e.WellFormed s.dialect) :
    ∃ r, Example.parse s.code (s.examples e) = .ok r ∧ r.forget = s.dialect.settleExample e := by
  have hd := Dialect.sound_of_get? hcode
  exact exists_readWith Example.unplaced {} hcode rfl rfl (examplePage_ne_nil e)
    ((frames_example hd s.code).holds (holds_example hd hs h))

/-- A step is read back with what is read of its doc string. -/
theorem Step.exists_parse_reread {e : Step} (h : e.Readable s.dialect) :
    ∃ r, Step.parse s.code (s.step e) = .ok r ∧ r.forget = e.reread := by
  have hd := Dialect.sound_of_get? hcode
  exact exists_readWith Step.unplaced {} hcode rfl rfl (List.cons_ne_nil _ _)
    ((frames_step hd s.code).holds (holds_step hd hs h))

theorem Step.exists_parse {e : Step} (h : e.WellFormed s.dialect) :
    ∃ r, Step.parse s.code (s.step e) = .ok r ∧ r.forget = e.forget := by
  obtain ⟨r, hparse, hr⟩ := Step.exists_parse_reread hcode hs h.toReadable
  exact ⟨r, hparse, hr.trans h.reread_eq⟩

end Elements

/-- Whatever an element that is well formed in a dialect is rendered to is read as the element, but
for header keywords that it had none of, and for the language of a feature. -/
theorem Element.exists_parse_render {code indent : Text} {d : Dialect}
    (hcode : Dialect.get? code = some d) (hindent : ∀ c ∈ indent, c = ' ' ∨ c = '\t')
    {n : Element} (h : n.WellFormed d) (path : Text) :
    ∃ r, Element.parse? n.kind code path (Style.render ⟨indent, code⟩ n) = some (.ok r) ∧
      r.forget = d.settle code n ∧ r.equal n ∧
      Style.render ⟨indent, code⟩ r = Style.render ⟨indent, code⟩ n := by
  have hs := Text.IsSpacing.isIndent hindent
  obtain ⟨s, rfl, rfl⟩ : ∃ s : Style, s.indent = indent ∧ s.code = code := ⟨⟨indent, code⟩, rfl, rfl⟩
  have hd : s.dialect = d := by rw [Style.dialect, hcode, Option.getD_some]
  subst hd
  cases n with
  | feature f =>
    obtain ⟨r, hparse, hr⟩ := Feature.exists_parse hcode hs h
    refine ⟨.feature r, ?_, congrArg Element.feature hr, Feature.equal_of_settle hr, ?_⟩
    · exact congrArg (fun x => some (x.map Element.feature)) hparse
    · have hsame := s.feature_settle s.code f
      rwa [← hr, Style.feature_forget] at hsame
  | background b =>
    obtain ⟨r, hparse, hr⟩ := Background.exists_parse hcode hs h
    refine ⟨.background r, ?_, congrArg Element.background hr, Background.equal_of_settle hr, ?_⟩
    · exact congrArg (fun x => some (x.map Element.background)) hparse
    · have hsame := s.background_settle b
      rwa [← hr, Style.background_forget] at hsame
  | scenario e =>
    obtain ⟨r, hparse, hr⟩ := Scenario.exists_parse hcode hs h
    have htest : (Test.scenario r).forget = s.dialect.settleTest (.scenario e) :=
      congrArg Test.scenario hr
    refine ⟨.scenario r, ?_, congrArg Element.scenario hr, Test.equal_of_settle htest, ?_⟩
    · exact congrArg (fun x => some (x.map Element.scenario)) hparse
    · have hsame := s.scenario_settle e
      rwa [← hr, Style.scenario_forget] at hsame
  | outline o =>
    obtain ⟨r, hparse, hr⟩ := Outline.exists_parse hcode hs h
    have htest : (Test.outline r).forget = s.dialect.settleTest (.outline o) :=
      congrArg Test.outline hr
    refine ⟨.outline r, ?_, congrArg Element.outline hr, Test.equal_of_settle htest, ?_⟩
    · exact congrArg (fun x => some (x.map Element.outline)) hparse
    · have hsame := s.outline_settle o
      rwa [← hr, Style.outline_forget] at hsame
  | «example» e =>
    obtain ⟨r, hparse, hr⟩ := Example.exists_parse hcode hs h
    refine ⟨.example r, ?_, congrArg Element.example hr, Example.equal_of_settle hr, ?_⟩
    · exact congrArg (fun x => some (x.map Element.example)) hparse
    · have hsame := s.examples_settle e
      rwa [← hr, Style.examples_forget] at hsame
  | step e =>
    obtain ⟨r, hparse, hr⟩ := Step.exists_parse hcode hs h
    refine ⟨.step r, ?_, congrArg Element.step hr, Step.equal_of_forget hr, ?_⟩
    · exact congrArg (fun x => some (x.map Element.step)) hparse
    · have hsame : s.step r.forget = s.step e.forget := congrArg s.step hr
      exact hsame
  | directory _ | featureFile _ | tag _ | comment _ => exact absurd h id

/-- A feature with a comment, a tag and a scenario whose one step has a table. -/
def smallFeature : Feature :=
  { name := ['f']
    description := ['d']
    tags := [{ name := ['@', 't'] }]
    comments := [{ text := ['#', 'c'] }]
    tests := [.scenario
      { name := ['s']
        steps := [{ keyword := ['*'], text := ['x'], block := some (.table [[['v'], []]]) }] }] }

theorem wellFormed_smallFeature : smallFeature.WellFormed Dialect.english where
  heading := ⟨.inl rfl, rfl, by decide, rfl, by decide +kernel⟩
  tags t ht := by
    rw [List.mem_singleton.1 ht]
    exact ⟨['t'], rfl, by decide, List.forall_mem_singleton.2 rfl⟩
  background b hb := nomatch hb
  tests t ht := by
    rw [List.mem_singleton.1 ht]
    refine ⟨⟨.inl rfl, rfl, by decide, rfl, by decide +kernel⟩, fun t ht => (nomatch ht), ?_⟩
    intro x hx
    rw [List.mem_singleton.1 hx]
    refine ⟨⟨by decide, by decide, ⟨"* ".toList, by decide +kernel, by decide +kernel⟩, ?_⟩, ?_⟩
    · intro b hb
      obtain rfl := Option.some.inj hb
      refine ⟨by decide, by decide, ?_⟩
      unfold Cell.Fits
      decide +kernel
    · intro b hb
      obtain rfl := Option.some.inj hb
      exact trivial
  marked c hc := by
    rw [List.mem_singleton.1 hc]
    exact ⟨rfl, by decide, _, rfl⟩
  language c hc := by
    rw [List.mem_singleton.1 hc]
    rfl

theorem Element.exists_parse_render_small :
    Dialect.get? Dialect.defaultCode = some Dialect.english ∧
      Element.WellFormed Dialect.english (.feature smallFeature) ∧
      ∃ r, Element.parse? .feature Dialect.defaultCode []
          (Style.render ⟨['\t'], Dialect.defaultCode⟩ (.feature smallFeature)) = some (.ok r) ∧
        r.forget = Dialect.english.settle Dialect.defaultCode (.feature smallFeature) ∧
        r.equal (.feature smallFeature) ∧
        Style.render ⟨['\t'], Dialect.defaultCode⟩ r =
          Style.render ⟨['\t'], Dialect.defaultCode⟩ (.feature smallFeature) := by
  have hcode : Dialect.get? Dialect.defaultCode = some Dialect.english := rfl
  have htab : ∀ c ∈ ['\t'], c = ' ' ∨ c = '\t' := by simp
  have hwell : Element.WellFormed Dialect.english (.feature smallFeature) := wellFormed_smallFeature
  exact ⟨hcode, hwell, Element.exists_parse_render hcode htab hwell []⟩

end Gherkin
