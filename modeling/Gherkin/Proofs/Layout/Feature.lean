import Gherkin.Proofs.Layout.Block

/-! The page of a feature: its comments come first, and its background and tests stand apart, one
level deeper. Behind the comments the page holds the feature. -/

open Gherkin.Document

namespace Gherkin

variable {s : Style}

/-! ### Pages of tests -/

/-- The page of a test. -/
def testPage (s : Style) : Test → List Text
  | .scenario e => s.withSteps (s.opening e.tags e.toHeading s.dialect.scenarioKeyword)
      e.description e.steps
  | .outline o => outlinePage s o

theorem test_eq (t : Test) : s.test t = Text.unlines (testPage s t) := by
  cases t <;> rfl

theorem withSteps_ne_nil (tags : List Tag) (h : Heading) (keyword description : Text)
    (steps : List Gherkin.Step) :
    s.withSteps (s.opening tags h keyword) description steps ≠ [] := by
  obtain ⟨before, -, hopen⟩ := exists_opening s tags h keyword
  obtain ⟨blanks, -, hpage⟩ := exists_withSteps s (s.opening tags h keyword) description steps
  rw [hpage, hopen]
  simp

theorem foldl_apart_ne_nil {γ : Type} (f : γ → List Text) {page : List Text} (hne : page ≠ [])
    (items : List γ) : items.foldl (fun page x => Page.apart page (f x)) page ≠ [] := by
  induction items generalizing page with
  | nil => exact hne
  | cons x items ih =>
    obtain ⟨blanks, hgap, -⟩ := Page.exists_gap page
    have hapart : Page.apart page (f x) ≠ [] := by
      rw [Page.apart, hgap]
      simp [hne]
    exact ih hapart

theorem testPage_ne_nil (t : Test) : testPage s t ≠ [] := by
  cases t with
  | scenario e => exact withSteps_ne_nil _ _ _ _ _
  | outline o => exact foldl_apart_ne_nil _ (withSteps_ne_nil _ _ _ _ _) _

theorem holds_test (hd : s.dialect.Sound) (hs : s.indent.IsIndent) {t : Test}
    (h : t.WellFormed s.dialect) :
    Holds s.dialect Reading.Test Child.test? (testPage s t) (some (s.dialect.settleTest t)) := by
  cases t with
  | scenario e => exact holds_scenario hd hs h
  | outline o => exact holds_outline hd hs h

/-! ### Background and tests -/

/-- The background and the tests among the blocks of a feature. -/
def partsOf (children : List Child) : Option Gherkin.Background × List Test :=
  ((children.reverse.findSome? Child.background?).map Background.plain,
    children.filterMap Child.test?)

theorem background?_of_test? {children : List Child} {tests : List Test}
    (h : children.map Child.test? = tests.map some) :
    children.reverse.findSome? Child.background? = none := by
  rw [List.findSome?_eq_none_iff]
  intro c hc
  have hmem := List.mem_map_of_mem (f := Child.test?) (List.mem_reverse.1 hc)
  rw [h] at hmem
  obtain ⟨t, -, ht⟩ := List.mem_map.1 hmem
  cases c with
  | background b => cases ht
  | scenario _ | outline _ => rfl

theorem tests_of_test? {children : List Child} {tests : List Test}
    (h : children.map Child.test? = tests.map some) :
    children.filterMap Child.test? = tests := by
  have hid := congrArg (List.filterMap id) h
  rw [List.filterMap_map, List.filterMap_map] at hid
  simpa using hid

theorem partsOf_tests {children : List Child} {tests : List Test}
    (h : children.map Child.test? = tests.map some) : partsOf children = (none, tests) := by
  rw [partsOf, background?_of_test? h, tests_of_test? h]
  rfl

theorem partsOf_background (b : Document.Background) {children : List Child} {tests : List Test}
    (h : children.map Child.test? = tests.map some) :
    partsOf (.background b :: children) = (some b.plain, tests) := by
  rw [partsOf, List.reverse_cons, List.findSome?_append, background?_of_test? h,
    List.filterMap_cons, tests_of_test? h]
  rfl

theorem holds_blocks (hd : s.dialect.Sound) (hs : s.indent.IsIndent) {f : Gherkin.Feature}
    (hback : ∀ b ∈ f.background, b.WellFormed s.dialect)
    (htests : ∀ t ∈ f.tests, t.WellFormed s.dialect) (page : List Text) :
    ∃ more, (s.blocks f).foldl
        (fun page text => Page.apart page (Page.block s.indent 1 text)) page = page ++ more ∧
      Holds s.dialect Reading.Children partsOf more
        (f.background.map s.dialect.settleBackground, f.tests.map s.dialect.settleTest) := by
  have hblock : ∀ t ∈ f.tests, Holds s.dialect Reading.Test Child.test?
      (Page.block s.indent 1 (s.test t)) (some (s.dialect.settleTest t)) := by
    intro t ht
    rw [test_eq]
    exact (holds_test hd hs (htests t ht)).block_one (testPage_ne_nil t) hs
  have hmany := Holds.foldl_apart (fun ht h => h.lead ht) hblock
  have hmap : f.tests.map (fun t => some (s.dialect.settleTest t)) =
      (f.tests.map s.dialect.settleTest).map some := by
    rw [List.map_map]
    rfl
  rw [hmap] at hmany
  rw [Style.blocks, List.foldl_append]
  cases hb : f.background with
  | none =>
    obtain ⟨more, hfold, hholds⟩ := hmany page
    refine ⟨more, by rw [← hfold, List.foldl_map]; rfl, hholds.line, fun hp hw => ?_⟩
    obtain ⟨nodes, hnodes, hplain⟩ := hholds.reading hp hw
    exact ⟨nodes, .tests hnodes, partsOf_tests hplain⟩
  | some b =>
    have hpage := (holds_background hd hs (hback b hb)).block_one (withSteps_ne_nil _ _ _ _ _) hs
    obtain ⟨blanks, hgap, hblanks⟩ := Page.exists_gap page
    obtain ⟨more, hfold, hholds⟩ :=
      hmany (Page.apart page (Page.block s.indent 1 (s.background b)))
    have hfirst := hpage.lead (fun ht h => h.lead ht) hblanks
    refine ⟨(blanks ++ Page.block s.indent 1 (s.background b)) ++ more, ?_,
      List.forall_mem_append.2 ⟨hfirst.line, hholds.line⟩, fun hp hw => ?_⟩
    · rw [List.foldl_map, Option.map_some, Option.toList_some, List.foldl_cons, List.foldl_nil,
        hfold, Page.apart, hgap]
      simp only [List.append_assoc]
    · obtain ⟨as, bs, rfl, has, hbs⟩ := Written.append_iff.1 hw
      obtain ⟨node, hnode, hplain⟩ := hfirst.reading hp has
      obtain ⟨nodes, hnodes, hplains⟩ := hholds.reading hp hbs
      refine ⟨_, .background hnode hnodes, ?_⟩
      rw [partsOf_background node hplains, hplain]
      rfl

/-! ### Comments -/

theorem Comment.Marked.isLine {c : Gherkin.Comment} (h : c.Marked) : c.text.IsLine :=
  Text.isLine_of_trimEnd h.line (Text.trim_eq_self_iff.1 h.trimmed).2

theorem Comment.WellFormed.kindOf {c : Gherkin.Comment} (h : c.WellFormed) (v : Vocabulary) :
    v.kindOf c.text = .comment := by
  obtain ⟨cs, hcs⟩ := h.sign
  have htrim := h.trimmed
  have hcode := h.language
  rw [hcs] at htrim hcode ⊢
  rw [Vocabulary.kindOf_hash v htrim, hcode]

theorem Comment.Marked.plainKind {c : Gherkin.Comment} (h : c.Marked) (v : Vocabulary) :
    v.plainKind c.text = .comment := by
  obtain ⟨cs, hcs⟩ := h.sign
  have htrim := h.trimmed
  rw [hcs] at htrim ⊢
  rw [Vocabulary.plainKind, Vocabulary.kindOf_hash v htrim]
  cases languageCode? ('#' :: cs) <;> rfl

/-- Comments in front of a page are passed over and kept. -/
theorem comments_reading {d : Dialect} {p : Text} {ls : List Line} (hp : p.IsIndent)
    {comments : List Gherkin.Comment} (h : ∀ c ∈ comments, c.Marked)
    (hw : Written d.vocabulary p (comments.map (·.text)) ls) :
    Trivia ls ∧ (commentsOf ls).map (·.text) = comments.map (·.text) := by
  induction comments generalizing ls with
  | nil =>
    rw [Written.nil_iff.1 hw]
    exact ⟨.nil, rfl⟩
  | cons c comments ih =>
    obtain ⟨hc, hmore⟩ := List.forall_mem_cons.1 h
    obtain ⟨l, rest, rfl, hraw, hkind, hrest⟩ := Written.cons_iff.1 hw
    obtain ⟨htrivia, htexts⟩ := ih hmore hrest
    rw [hc.plainKind] at hkind
    have htext : l.text = c.text := Written.text_eq hp hraw hc.trimmed
    refine ⟨htrivia.cons (by simp [hkind, LineKind.isTrivia]), ?_⟩
    rw [List.map_cons, ← htexts, commentsOf, List.filter_cons, if_pos (by simp [hkind]),
      List.map_cons, List.map_cons, ← commentsOf]
    exact congrArg (· :: _) htext

/-! ### Features -/

/-- The page of a feature. -/
def featurePage (s : Style) (f : Gherkin.Feature) : List Text :=
  (s.blocks f).foldl (fun page text => Page.apart page (Page.block s.indent 1 text))
    (s.describe ((f.comments.map Style.comment).filter (!·.isEmpty) ++ Style.tagLine f.tags ++
      [Style.nameLine (Style.keywordOr f.keyword s.dialect.featureKeyword) f.name]) f.description)

theorem feature_eq (f : Gherkin.Feature) : s.feature f = Text.unlines (featurePage s f) := rfl

/-- The kinds of line that a feature may begin with, comments aside. -/
def LineKind.opensFeature : LineKind → Bool
  | .tags | .header .feature .. => true
  | _ => false

/-- Tags and a header line begin with a line that opens a feature. -/
theorem exists_opensFeature {d : Dialect} {tags : List Tag} (h : Tag.AllNamed tags)
    {header keyword name : Text} (hheader : d.vocabulary.kindOf header =
      .header .feature keyword name) (rest : List Text) :
    ∃ t page, Style.tagLine tags ++ header :: rest = t :: page ∧
      (d.vocabulary.kindOf t).opensFeature := by
  rw [tagLine_eq h]
  split
  · exact ⟨header, rest, rfl, by rw [hheader]; rfl⟩
  · next hne =>
    have hnames : ∀ n ∈ tags.map Tag.name, IsTagName n := by
      intro n hn
      obtain ⟨t, ht, rfl⟩ := List.mem_map.1 hn
      exact h t ht
    obtain ⟨⟨cs, hcs⟩, -, -⟩ := joinWith_names (by simpa using hne) hnames
    refine ⟨_, _, rfl, ?_⟩
    rw [hcs, Vocabulary.kindOf_at]
    rfl

/-- The page of a feature is its comments and a page that holds the rest of it. -/
theorem exists_featurePage (hd : s.dialect.Sound) (hs : s.indent.IsIndent) {f : Gherkin.Feature}
    (h : f.WellFormedBelow s.dialect) (code : Text) :
    ∃ t page, featurePage s f = f.comments.map (·.text) ++ t :: page ∧
      (s.dialect.vocabulary.kindOf t).opensFeature ∧
      Holds s.dialect (Reading.Feature code) (Document.Feature.plain []) (t :: page)
        { s.dialect.settleFeature code f with comments := [] } := by
  have hcomments : (f.comments.map Style.comment).filter (!·.isEmpty) =
      f.comments.map (·.text) := by
    rw [List.filter_eq_self.2]
    · rfl
    · intro t ht
      obtain ⟨c, hc, rfl⟩ := List.mem_map.1 ht
      obtain ⟨cs, hcs⟩ := (h.marked c hc).sign
      simp [Style.comment, hcs]
  have hname : (Block.feature, s.dialect.featureKeyword) ∈ s.dialect.headerKeywords :=
    hd.defaultKeyword_mem .feature
  obtain ⟨blanks, hblanks, hdescribe⟩ := exists_describe s
    (f.comments.map (·.text) ++ Style.tagLine f.tags)
    (Style.nameLine (Style.keywordOr f.keyword s.dialect.featureKeyword) f.name) f.description
  obtain ⟨more, hfold, hblocks⟩ := holds_blocks hd hs h.background h.tests
    (f.comments.map (·.text) ++ Style.tagLine f.tags ++
      Style.nameLine (Style.keywordOr f.keyword s.dialect.featureKeyword) f.name ::
        (blanks ++ paragraph f.description))
  obtain ⟨t, page, hpage, hopens⟩ := exists_opensFeature h.tags
    (Vocabulary.kindOf_nameLine hd (keywordOr_mem hname h.heading) h.heading.name)
    (blanks ++ paragraph f.description ++ more)
  have hall := (holds_tags (d := s.dialect) h.tags).both
    ((holds_headed hd hname h.heading hblanks).both hblocks)
  rw [List.cons_append, hpage] at hall
  refine ⟨t, page, ?_, hopens, hall.map (fun x => ⟨x.2.1, x.1, code, x.2.2⟩)
    (fun x => { toHeading := x.2.1, tags := x.1, language := code, background := x.2.2.1,
                tests := x.2.2.2 }) rfl ?_ fun _ => rfl⟩
  · rw [featurePage, hcomments, hdescribe, hfold, ← hpage]
    simp only [List.append_assoc, List.cons_append]
  · rintro _ ⟨found, head, children⟩ ⟨as, _, rfl, ht, ⟨bs, cs, rfl, hh, hc, -⟩, -⟩
    exact .mk ht hh hc

/-- The lines of a feature are read as the feature with its comments. -/
theorem feature_reading (hd : s.dialect.Sound) (hs : s.indent.IsIndent) {f : Gherkin.Feature}
    (h : f.WellFormedBelow s.dialect) (code : Text) {ls : List Line}
    (hw : Written s.dialect.vocabulary [] (featurePage s f) ls) :
    ∃ node comments, Reading.Feature code ls node comments ∧
      node.plain comments = s.dialect.settleFeature code f := by
  obtain ⟨t, page, hpage, -, hholds⟩ := exists_featurePage hd hs h code
  rw [hpage] at hw
  obtain ⟨as, bs, rfl, has, hbs⟩ := Written.append_iff.1 hw
  obtain ⟨htrivia, htexts⟩ := comments_reading Text.IsIndent.nil h.marked has
  obtain ⟨node, hnode, hplain⟩ := hholds.reading Text.IsIndent.nil hbs
  have hread := hnode.lead htrivia
  rw [List.append_nil] at hread
  refine ⟨node, _, hread, ?_⟩
  have hcomments : (commentsOf as).map (fun c => ({ text := c.text } : Gherkin.Comment)) =
      f.comments.map Comment.forget := by
    have hsame := congrArg (List.map fun text => ({ text } : Gherkin.Comment)) htexts
    rwa [List.map_map, List.map_map] at hsame
  have hrest : { node.plain [] with comments := f.comments.map Comment.forget } =
      s.dialect.settleFeature code f := by
    rw [hplain]
    rfl
  rw [← hrest, ← hcomments]
  rfl

theorem isLine_featurePage (hd : s.dialect.Sound) (hs : s.indent.IsIndent) {f : Gherkin.Feature}
    (h : f.WellFormedBelow s.dialect) : ∀ t ∈ featurePage s f, t.IsLine := by
  obtain ⟨t, page, hpage, -, hholds⟩ := exists_featurePage hd hs h []
  rw [hpage]
  refine List.forall_mem_append.2 ⟨fun u hu => ?_, hholds.line⟩
  obtain ⟨c, hc, rfl⟩ := List.mem_map.1 hu
  exact (h.marked c hc).isLine

theorem openingLanguage?_comments {v : Vocabulary} {before : List Text}
    (hbefore : ∀ t ∈ before, v.kindOf t = .comment) {t : Text} (ht : (v.kindOf t).opensFeature)
    (page : List Text) (number : ℕ → ℕ) :
    openingLanguage? ((before ++ t :: page).mapIdx fun i t => ⟨number i, t, v.kindOf t⟩) = none := by
  induction before generalizing number with
  | nil =>
    rw [List.nil_append, List.mapIdx_cons, openingLanguage?]
    cases hk : v.kindOf t <;> simp_all [LineKind.opensFeature]
  | cons u before ih =>
    obtain ⟨hu, hmore⟩ := List.forall_mem_cons.1 hbefore
    rw [List.cons_append, List.mapIdx_cons, openingLanguage?, hu]
    exact ih hmore fun i => number (i + 1)

/-- Nothing in the page of a feature is a language header. -/
theorem openingLanguage?_featurePage (hd : s.dialect.Sound) (hs : s.indent.IsIndent)
    {f : Gherkin.Feature} (h : f.WellFormed s.dialect) :
    openingLanguage? (s.dialect.vocabulary.classify (s.feature f)) = none := by
  obtain ⟨t, page, hpage, hopens, -⟩ := exists_featurePage hd hs h.toWellFormedBelow []
  have hne : featurePage s f ≠ [] := by
    rw [hpage]
    simp
  rw [feature_eq, Vocabulary.classify_unlines _ hne (isLine_featurePage hd hs h.toWellFormedBelow), hpage]
  refine openingLanguage?_comments (fun u hu => ?_) hopens page (· + 1)
  obtain ⟨c, hc, rfl⟩ := List.mem_map.1 hu
  exact (h.comments c hc).kindOf _

end Gherkin
