import Gherkin.Proofs.Element.Image
import Gherkin.Proofs.Layout.RoundTrip

/-! Language headers of rendered files. A feature keeps the language that it was read in, but no
header is rendered, so a rendering is at home in the dialect of its keywords only. With the header
in front of it every dialect reads it back. -/

open Gherkin.Document

namespace Gherkin

/-- A rendered feature behind the header of its language is read as the feature. -/
theorem parse_languageLine_feature {s : Style} (hcode : Dialect.get? s.code = some s.dialect)
    (hs : s.indent.IsIndent) {f : Feature} (h : f.WellFormedBelow s.dialect) {active : Text}
    {fallback : Dialect} (hactive : Dialect.get? active = some fallback) :
    ∃ node comments,
      Document.parse active (Text.unlines [Snippet.languageLine s.code, s.feature f]) =
        .ok ⟨some node, comments⟩ ∧
      node.plain comments = s.dialect.settleFeature s.code f := by
  have hd := Dialect.sound_of_get? hcode
  obtain ⟨t, page, hpage, -⟩ := exists_featurePage hd hs h s.code
  have hne : featurePage s f ≠ [] := by
    rw [hpage]
    simp
  have hlines := isLine_featurePage hd hs h
  have hw : Written s.dialect.vocabulary [] (featurePage s f)
      ((s.dialect.vocabulary.linesAt 1 (featurePage s f)).map (demote (some 1))) :=
    written_linesAt s.dialect.vocabulary (by simp) hlines
  obtain ⟨node, comments, hnode, hplain⟩ := feature_reading hd hs h s.code hw
  refine ⟨node, comments, ?_, hplain⟩
  have hpages := Text.unlines_append [Snippet.languageLine s.code] hne
  rw [List.singleton_append] at hpages
  rw [feature_eq, hpages]
  exact parse_languageLine hactive hcode (fun t ht => (hlines t ht).1) hnode

/-- A document that is a feature but for its keywords is read as the file of the feature. -/
theorem FeatureFile.exists_of_document {s : Style} {active text : Text} {f : Feature}
    {node : Document.Feature} {comments : List Document.Comment}
    (hparse : Document.parse active text = .ok ⟨some node, comments⟩)
    (hplain : node.plain comments = s.dialect.settleFeature s.code f) (path : Text) :
    ∃ r, FeatureFile.parse active path text = .ok r ∧
      r.forget = ⟨path, some (s.dialect.settleFeature s.code f)⟩ ∧ r.equal ⟨path, some f⟩ ∧
      s.featureFile r = s.featureFile ⟨path, some f⟩ := by
  let r := Feature.ofData (.whole text) (node.normal comments)
  have hr : r.forget = s.dialect.settleFeature s.code f :=
    (feature_plain _ comments node).trans hplain
  refine ⟨⟨path, some r⟩, ?_, ?_, ?_, ?_⟩
  · rw [FeatureFile.parse, Document.read, hparse]
    simp only [Except.map, present?_feature, Option.map_some, r]
  · rw [FeatureFile.forget, Option.map_some, hr]
  · have hequal : r.equal f := Feature.equal_of_settle hr
    simpa [FeatureFile.equal, Path.equal, equalOptions] using hequal
  · have hsame := s.feature_settle s.code f
    rwa [← hr, Style.feature_forget] at hsame

/-- In every dialect, a rendered file behind the header of its language is read as the file, also
when a comment of it has the form of a header. -/
theorem FeatureFile.exists_parse_languageLine {active code indent : Text} {fallback d : Dialect}
    (hactive : Dialect.get? active = some fallback) (hcode : Dialect.get? code = some d)
    (hindent : ∀ c ∈ indent, c = ' ' ∨ c = '\t') {f : Feature} (h : f.WellFormedBelow d)
    (path : Text) :
    ∃ r : FeatureFile,
      FeatureFile.parse active path (Text.unlines
        [Snippet.languageLine code, Style.featureFile ⟨indent, code⟩ ⟨path, some f⟩]) = .ok r ∧
      r.forget = ⟨path, some (d.settleFeature code f)⟩ ∧ r.equal ⟨path, some f⟩ ∧
      Style.featureFile ⟨indent, code⟩ r = Style.featureFile ⟨indent, code⟩ ⟨path, some f⟩ := by
  have hs := Text.IsSpacing.isIndent hindent
  obtain ⟨s, rfl, rfl⟩ : ∃ s : Style, s.indent = indent ∧ s.code = code := ⟨⟨indent, code⟩, rfl, rfl⟩
  have hd : s.dialect = d := by rw [Style.dialect, hcode, Option.getD_some]
  subst hd
  obtain ⟨node, comments, hparse, hplain⟩ := parse_languageLine_feature hcode hs h hactive
  exact FeatureFile.exists_of_document hparse hplain path

/-! ### Files that were read -/

/-- A file without a feature is rendered to nothing, and nothing is read as such a file. -/
theorem FeatureFile.parse_nil {active : Text} {d : Dialect} (hactive : Dialect.get? active = some d)
    (path : Text) : FeatureFile.parse active path [] = .ok ⟨path, none⟩ := by
  have hkind : d.vocabulary.kindOf [] = .blank := Vocabulary.kindOf_eq_blank_iff.2 Text.trim_nil
  have hlines : d.vocabulary.classify [] = [⟨1, [], .blank⟩] := by
    rw [← hkind]
    rfl
  have hdocument : Document.parse active [] = .ok ⟨none, []⟩ := by
    simp only [Document.parse, hactive, hlines, openingLanguage?, linesIn]
    rfl
  rw [FeatureFile.parse, Document.read, hdocument]
  rfl

theorem FeatureFile.path_of_parse {active path source : Text} {file : FeatureFile}
    (h : FeatureFile.parse active path source = .ok file) : file.path = path := by
  unfold FeatureFile.parse at h
  cases hread : Document.read active source with
  | error e =>
    rw [hread] at h
    cases h
  | ok data =>
    rw [hread] at h
    obtain rfl := Except.ok.inj h
    rfl

/-- A file that was read is read back from its rendering in the dialect it was read with, whatever
language its header names, if its feature is well formed in that dialect. -/
theorem FeatureFile.exists_parse_again {active path source indent : Text} {d : Dialect}
    {file : FeatureFile} (hactive : Dialect.get? active = some d)
    (hfile : FeatureFile.parse active path source = .ok file)
    (h : ∀ f ∈ file.feature, f.WellFormed d) (hindent : ∀ c ∈ indent, c = ' ' ∨ c = '\t') :
    ∃ r, FeatureFile.parse active path (Style.featureFile ⟨indent, active⟩ file) = .ok r ∧
      r.forget = ⟨path, file.feature.map (d.settleFeature active)⟩ ∧ r.equal file ∧
      Style.featureFile ⟨indent, active⟩ r = Style.featureFile ⟨indent, active⟩ file := by
  have hs := Text.IsSpacing.isIndent hindent
  obtain ⟨s, rfl, rfl⟩ : ∃ s : Style, s.indent = indent ∧ s.code = active :=
    ⟨⟨indent, active⟩, rfl, rfl⟩
  have hd : s.dialect = d := by rw [Style.dialect, hactive, Option.getD_some]
  subst hd
  obtain rfl := FeatureFile.path_of_parse hfile
  obtain ⟨path, feature⟩ := file
  cases feature with
  | none => exact ⟨⟨path, none⟩, FeatureFile.parse_nil hactive path, rfl, by
      simp [FeatureFile.equal, Path.equal, equalOptions], rfl⟩
  | some f =>
    obtain ⟨node, comments, hparse, hplain⟩ := exists_parse_feature hactive hs (h f rfl)
    exact FeatureFile.exists_of_document hparse hplain path

/-- The document of a Norwegian file with a comment, a description and a table, and with keywords
that are Swedish as well. -/
def sharedDocument : Document where
  feature := some {
    location := ⟨2, 1⟩, keyword := "Egenskap".toList, name := ['a'], description := some "  b".toList
    tags := [], language := "no".toList
    children := [.scenario {
      location := ⟨5, 1⟩, keyword := "Scenario".toList, name := [], description := none, tags := []
      steps := [{
        location := ⟨6, 1⟩, keyword := "Så ".toList, text := ['d']
        argument := some (.table ⟨7, 1⟩ [⟨⟨7, 1⟩, [⟨⟨7, 2⟩, ['e']⟩]⟩]) }] }] }
  comments := [⟨⟨4, 1⟩, "# c".toList⟩]

theorem wellFormed_sharedDocument :
    ∀ f ∈ (sharedDocument.image []).feature, f.WellFormed Dialect.swedish := by
  intro f hf
  obtain rfl := Option.some.inj hf
  refine ⟨⟨⟨.inr (by decide +kernel), rfl, by decide, rfl, by decide +kernel⟩, ?_, ?_, ?_, ?_⟩, ?_⟩
  · exact fun t ht => nomatch ht
  · exact fun b hb => nomatch hb
  · intro t ht
    obtain rfl := List.mem_singleton.1 ht
    refine ⟨⟨.inr (by decide +kernel), rfl, by decide, rfl, by decide +kernel⟩, ?_, ?_⟩
    · exact fun t ht => nomatch ht
    · intro x hx
      obtain rfl := List.mem_singleton.1 hx
      refine ⟨⟨by decide, by decide, ⟨"Så ".toList, by decide +kernel, by decide +kernel⟩, ?_⟩, ?_⟩
      · intro b hb
        obtain rfl := Option.some.inj hb
        refine ⟨by decide, by decide, ?_⟩
        unfold Cell.Fits
        decide +kernel
      · intro b hb
        obtain rfl := Option.some.inj hb
        exact trivial
  · intro c hc
    obtain rfl := List.mem_singleton.1 hc
    exact ⟨rfl, by decide, _, rfl⟩
  · intro c hc
    obtain rfl := List.mem_singleton.1 hc
    rfl

/-- A Norwegian file is read, rendered and read back in Swedish. -/
theorem FeatureFile.exists_parse_again_shared :
    Dialect.get? "sv".toList = some Dialect.swedish ∧
      ∃ file, FeatureFile.parse "sv".toList "a.feature".toList
          "#language:no\nEgenskap: a\n  b\n# c\nScenario:\nSå d\n|e|".toList = .ok file ∧
        (∀ f ∈ file.feature, f.language = "no".toList ∧ f.WellFormed Dialect.swedish) ∧
        ∃ r, FeatureFile.parse "sv".toList "a.feature".toList
            (Style.featureFile ⟨['\t'], "sv".toList⟩ file) = .ok r ∧
          r.equal file ∧
          Style.featureFile ⟨['\t'], "sv".toList⟩ r =
            Style.featureFile ⟨['\t'], "sv".toList⟩ file := by
  have hcode : Dialect.get? "sv".toList = some Dialect.swedish := rfl
  refine ⟨hcode, ?_⟩
  generalize hsource :
    "#language:no\nEgenskap: a\n  b\n# c\nScenario:\nSå d\n|e|".toList = source
  generalize "a.feature".toList = path
  have hdocument : Document.parse "sv".toList source = .ok sharedDocument := by
    rw [← hsource]
    decide +kernel
  have himage := (FeatureFile.forget_parse "sv".toList path source).1
  rw [hdocument] at himage
  cases hfile : FeatureFile.parse "sv".toList path source with
  | error e =>
    rw [hfile] at himage
    cases himage
  | ok file =>
    rw [hfile] at himage
    have hforget : file.forget = sharedDocument.image path := Except.ok.inj himage
    have hfeature : ∀ f ∈ file.feature, f.forget ∈ (sharedDocument.image []).feature := by
      intro f hf
      have hmem : f.forget ∈ file.forget.feature := Option.mem_map_of_mem Feature.forget hf
      rwa [hforget] at hmem
    have hwell : ∀ f ∈ file.feature, f.WellFormed Dialect.swedish := fun f hf =>
      .of_forget (wellFormed_sharedDocument f.forget (hfeature f hf))
    have htab : ∀ c ∈ ['\t'], c = ' ' ∨ c = '\t' := by simp
    obtain ⟨r, hparse, -, hequal, hrender⟩ := FeatureFile.exists_parse_again hcode hfile hwell htab
    refine ⟨file, rfl, fun f hf => ⟨?_, hwell f hf⟩, r, hparse, hequal, hrender⟩
    have hlanguage := congrArg Feature.language (Option.some.inj (hfeature f hf))
    exact hlanguage.symm

/-- A rendering alone is read back only where its keywords are: the file of a German feature is read
in English, by its header, and its rendering is refused. -/
theorem FeatureFile.refuses_render_german :
    Dialect.get? Dialect.defaultCode = some Dialect.english ∧
      (Dialect.get? "de".toList).isSome ∧
      openingLanguage? (Dialect.english.vocabulary.classify
        "# language: de\nFunktionalität: x".toList) = some (1, "de".toList) ∧
      ∃ file, FeatureFile.parse Dialect.defaultCode "a.feature".toList
          "# language: de\nFunktionalität: x".toList = .ok file ∧
        ∃ e, FeatureFile.parse Dialect.defaultCode "a.feature".toList
          (Style.featureFile ⟨"  ".toList, Dialect.defaultCode⟩ file) = .error e := by
  generalize hsource : "# language: de\nFunktionalität: x".toList = source
  generalize hpath : "a.feature".toList = path
  generalize hindent : "  ".toList = indent
  refine ⟨rfl, by decide +kernel, by rw [← hsource]; decide +kernel, ?_⟩
  have hrefused : (FeatureFile.parse Dialect.defaultCode path source).toOption.map (fun file =>
      (FeatureFile.parse Dialect.defaultCode path
        (Style.featureFile ⟨indent, Dialect.defaultCode⟩ file)).toOption.isNone) = some true := by
    rw [← hsource, ← hpath, ← hindent]
    decide +kernel
  cases hparse : FeatureFile.parse Dialect.defaultCode path source with
  | error e => simp [hparse, Except.toOption] at hrefused
  | ok file =>
    rw [hparse] at hrefused
    obtain ⟨file', hfile, hnone⟩ := Option.map_eq_some_iff.1 hrefused
    obtain rfl := Option.some.inj hfile
    refine ⟨file, rfl, ?_⟩
    cases hread : FeatureFile.parse Dialect.defaultCode path
        (Style.featureFile ⟨indent, Dialect.defaultCode⟩ file) with
    | error e => exact ⟨e, rfl⟩
    | ok r => simp [hread, Except.toOption] at hnone

end Gherkin
