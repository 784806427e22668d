import Gherkin.Layout.Render
import Gherkin.Proofs.Layout.Draft
import Gherkin.Proofs.Line.Cells

/-! The depths of a rendering. An element of any kind, whatever its attributes hold, is rendered from
a draft in which no line is deeper than three levels and an empty line has no depth. The indentation
is the only thing that a style decides about a rendering: with another one the same lines come, at
the same depths. -/

namespace Gherkin

open Page

variable (code : Text) {page : Text → List Text} {n : ℕ}

/-! ### Parts of a page -/

/-- The lines of an attribute at a depth. -/
theorem drafted_block (d : ℕ) (t : Text) :
    Drafted (IsLine d) fun indent => Page.block indent d t := by
  have hlines : Drafted (IsLine 0) fun _ => t.lines := .fixed t
  exact hlines.block d

theorem drafted_margin (texts : List Text) : Drafted (IsEntry n) fun _ => texts :=
  .margin fun _ _ => ⟨Nat.zero_le n, .inl rfl⟩

theorem drafted_describe (h : Drafted (IsEntry n) page) (description : Text) :
    Drafted (IsEntry n) fun indent =>
      (Style.mk indent code).describe (page indent) description := by
  by_cases hnil : description = []
  · exact h.congr fun indent _ => if_pos hnil
  · have hblock := (drafted_block 0 description).imp fun _ _ hl => hl.isEntry (Nat.zero_le n)
    exact (h.apart hblock).congr fun indent _ => if_neg hnil

theorem drafted_opening (tags : List Tag) (h : Heading) (fallback : Text) :
    Drafted (IsEntry n) fun indent => (Style.mk indent code).opening tags h fallback :=
  drafted_describe code (drafted_margin _) h.description

theorem head?_tableRow {rows : List (List Text)} {t : Text} (ht : t ∈ tableRows rows) :
    t.head? = some '|' := by
  obtain ⟨row, -, rfl⟩ := List.mem_map.1 ht
  rw [Cell.rowText_eq]
  rfl

theorem drafted_table (rows : List (List Text)) :
    Drafted (IsEntry 1) fun indent => Page.table indent 1 rows :=
  .lines 1 fun t ht => ⟨Nat.le_refl 1, .inr (by simp [head?_tableRow ht])⟩

/-- Lines under a description are apart from it. -/
theorem drafted_under {more : Text → List Text} (h : Drafted (IsEntry n) page)
    (hmore : Drafted (IsEntry n) more) (description : Text) :
    Drafted (IsEntry n) fun indent =>
      if description = [] then page indent ++ more indent
      else Page.apart (page indent) (more indent) := by
  by_cases hnil : description = []
  · exact (h.append hmore).congr fun indent _ => if_pos hnil
  · exact (h.apart hmore).congr fun indent _ => if_neg hnil

/-! ### Steps -/

theorem drafted_docString (content : Text) (contentType : Option Text) :
    Drafted (IsEntry 1) fun indent =>
      (Style.mk indent code).docString content contentType := by
  have hmark (t : Text) : IsEntry 1 1 (Fence.quotes.mark ++ t) :=
    ⟨Nat.le_refl 1, .inr (by simp [Fence.mark])⟩
  have hopen : Drafted (IsEntry 1) fun indent =>
      [Page.line indent 1 (Fence.quotes.mark ++ contentType.getD [])] :=
    .lines 1 (List.forall_mem_singleton.2 (hmark _))
  have hclose : Drafted (IsEntry 1) fun indent => [Page.line indent 1 Fence.quotes.mark] :=
    .lines 1 (List.forall_mem_singleton.2 (by simpa using hmark []))
  have hcontent : Drafted (IsEntry 1) fun indent =>
      if content = [] then []
      else Page.block indent 1 (content.replace Fence.quotes.mark Fence.quotes.escaped) := by
    by_cases hnil : content = []
    · exact Drafted.nil.congr fun indent _ => if_pos hnil
    · have hblock := (drafted_block 1 (content.replace Fence.quotes.mark Fence.quotes.escaped)).imp
        fun _ _ hl => hl.isEntry (Nat.le_refl 1)
      exact hblock.congr fun indent _ => if_neg hnil
  exact (hopen.append hcontent).append hclose

theorem drafted_stepBlock (b : Option StepBlock) :
    Drafted (IsEntry 1) fun indent => (Style.mk indent code).stepBlock b := by
  cases b with
  | none => exact .nil
  | some b => cases b with
    | table rows => exact drafted_table rows
    | docString content contentType => exact drafted_docString code content contentType

theorem drafted_step (e : Step) :
    Drafted (IsLine 1) fun indent => ((Style.mk indent code).step e).lines :=
  Drafted.lines_unlines ((drafted_margin [_]).append (drafted_stepBlock code e.block))

theorem drafted_withSteps (h : Drafted (IsEntry 2) page) (description : Text) (steps : List Step) :
    Drafted (IsEntry 2) fun indent =>
      (Style.mk indent code).withSteps (page indent) description steps := by
  by_cases hnil : steps = []
  · exact h.congr fun indent _ => if_pos hnil
  · have hsteps : Drafted (IsEntry 2) fun indent =>
        steps.flatMap fun e => Page.block indent 1 ((Style.mk indent code).step e) :=
      .flatMap fun e _ => ((drafted_step code e).block 1).imp fun _ _ hl => hl.isEntry (Nat.le_refl 2)
    exact (drafted_under h hsteps description).congr fun indent _ => if_neg hnil

/-! ### Blocks -/

theorem drafted_examples (e : Example) :
    Drafted (IsLine 1) fun indent => ((Style.mk indent code).examples e).lines := by
  have hopen : Drafted (IsEntry 1) fun indent => (Style.mk indent code).opening e.tags e.toHeading
      (Style.mk indent code).dialect.examplesKeyword :=
    drafted_opening code e.tags e.toHeading (Style.mk [] code).dialect.examplesKeyword
  refine Drafted.lines_unlines ?_
  by_cases hnil : e.rows = []
  · exact hopen.congr fun indent _ => if_pos hnil
  · exact (drafted_under hopen (drafted_table e.rows) e.description).congr fun indent _ =>
      if_neg hnil

theorem drafted_background (b : Background) :
    Drafted (IsLine 2) fun indent => ((Style.mk indent code).background b).lines :=
  (drafted_withSteps code (drafted_opening code [] b.toHeading
    (Style.mk [] code).dialect.backgroundKeyword) b.description b.steps).lines_unlines

theorem drafted_scenario (e : Scenario) :
    Drafted (IsLine 2) fun indent => ((Style.mk indent code).scenario e).lines :=
  (drafted_withSteps code (drafted_opening code e.tags e.toHeading
    (Style.mk [] code).dialect.scenarioKeyword) e.description e.steps).lines_unlines

theorem drafted_outline (o : Outline) :
    Drafted (IsLine 2) fun indent => ((Style.mk indent code).outline o).lines := by
  have hsteps := drafted_withSteps code (drafted_opening code o.tags o.toHeading
    (Style.mk [] code).dialect.outlineKeyword) o.description o.steps
  refine (hsteps.foldl_apart fun e _ => ?_).lines_unlines
  exact ((drafted_examples code e).block 0).imp fun _ _ hl => hl.isEntry (Nat.le_succ 1)

theorem drafted_test (t : Test) :
    Drafted (IsLine 2) fun indent => ((Style.mk indent code).test t).lines := by
  cases t with
  | scenario e => exact drafted_scenario code e
  | outline o => exact drafted_outline code o

/-- The blocks of a feature, each drafted by itself. -/
theorem exists_blocks (f : Feature) :
    ∃ texts : List (Text → Text),
      (∀ x ∈ texts, Drafted (IsLine 2) fun indent => (x indent).lines) ∧
      ∀ indent, (Style.mk indent code).blocks f = texts.map (· indent) := by
  refine ⟨(f.background.map fun b indent => (Style.mk indent code).background b).toList ++
    f.tests.map fun t indent => (Style.mk indent code).test t,
    List.forall_mem_append.2 ⟨fun x hx => ?_, ?_⟩, fun indent => ?_⟩
  · obtain ⟨b, -, rfl⟩ := Option.map_eq_some_iff.1 (Option.mem_toList.1 hx)
    exact drafted_background code b
  · rw [List.forall_mem_map]
    exact fun t _ => drafted_test code t
  · rw [Style.blocks]
    cases f.background <;> simp [Function.comp_def]

theorem drafted_feature (f : Feature) :
    Drafted (IsLine 3) fun indent => ((Style.mk indent code).feature f).lines := by
  have hfront : Drafted (IsEntry 3) fun indent => (Style.mk indent code).describe
      ((f.comments.map Style.comment).filter (!·.isEmpty) ++ Style.tagLine f.tags ++
        [Style.nameLine (Style.keywordOr f.keyword (Style.mk [] code).dialect.featureKeyword)
          f.name]) f.description :=
    drafted_describe code (drafted_margin _) f.description
  obtain ⟨texts, htexts, hblocks⟩ := exists_blocks code f
  have hpage := hfront.foldl_apart fun x hx =>
    ((htexts x hx).block 1).imp fun _ _ hl => hl.isEntry (Nat.le_refl 3)
  refine hpage.lines_unlines.congr fun indent _ => ?_
  rw [Style.feature, hblocks, List.foldl_map]
  rfl

theorem drafted_featureFile (f : FeatureFile) :
    Drafted (IsLine 3) fun indent => ((Style.mk indent code).featureFile f).lines := by
  cases hf : f.feature with
  | none => exact (Drafted.fixed []).congr fun indent _ => by rw [Style.featureFile, hf]; rfl
  | some feature =>
    exact (drafted_feature code feature).congr fun indent _ => by rw [Style.featureFile, hf]; rfl

theorem directoryTexts_eq (s : Style) (ds : List Directory) :
    s.directoryTexts ds = ds.map s.directory := by
  induction ds with
  | nil => rfl
  | cons d ds ih => rw [Style.directoryTexts, ih, List.map_cons]

mutual

theorem drafted_directory : ∀ d : Directory,
    Drafted (IsLine 3) fun indent => ((Style.mk indent code).directory d).lines
  | .mk path files directories => by
    have htexts : ∀ f ∈ files.map (fun file indent => (Style.mk indent code).featureFile file) ++
        directories.map (fun d indent => (Style.mk indent code).directory d),
        Drafted (IsLine 3) fun indent => (f indent).lines := by
      refine List.forall_mem_append.2 ⟨?_, ?_⟩ <;> rw [List.forall_mem_map]
      · exact fun file _ => drafted_featureFile code file
      · exact drafted_directories directories
    obtain ⟨kept, hkept, hfilter⟩ := Drafted.exists_filter htexts
    refine (Drafted.intercalate hkept).congr fun indent hindent => ?_
    rw [← hfilter indent hindent, Style.directory, directoryTexts_eq, List.map_append, List.map_map,
      List.map_map]
    rfl

theorem drafted_directories : ∀ ds : List Directory, ∀ d ∈ ds,
    Drafted (IsLine 3) fun indent => ((Style.mk indent code).directory d).lines
  | [] => by simp
  | d :: ds => List.forall_mem_cons.2 ⟨drafted_directory d, drafted_directories ds⟩

end

/-! ### Elements -/

theorem drafted_render (e : Element) :
    Drafted (IsLine 3) fun indent => ((Style.mk indent code).render e).lines := by
  have hdeeper {n : ℕ} {page : Text → List Text} (h : Drafted (IsLine n) page) (hn : n ≤ 3) :
      Drafted (IsLine 3) page :=
    h.imp fun _ _ hl => hl.mono hn
  cases e with
  | directory d => exact drafted_directory code d
  | featureFile f => exact drafted_featureFile code f
  | feature f => exact drafted_feature code f
  | background b => exact hdeeper (drafted_background code b) (by decide)
  | scenario e => exact hdeeper (drafted_scenario code e) (by decide)
  | outline o => exact hdeeper (drafted_outline code o) (by decide)
  | «example» e => exact hdeeper (drafted_examples code e) (by decide)
  | step e => exact hdeeper (drafted_step code e) (by decide)
  | tag t => exact .fixed (Style.tag t)
  | comment c => exact .fixed c.text

/-- An element has one draft for a dialect: whatever the indentation, its rendering has the lines of
the draft, each behind as many levels of indentation as it is deep. No line is deeper than three
levels, and an empty line has no indentation. -/
theorem Element.exists_draft (e : Element) (code : Text) :
    ∃ draft : List (ℕ × Text),
      (∀ l ∈ draft, l.1 ≤ 3 ∧ '\n' ∉ l.2 ∧ (l.2 = [] → l.1 = 0)) ∧
      ∀ indent, '\n' ∉ indent → ((Style.mk indent code).render e).lines =
        draft.map fun l => (List.replicate l.1 indent).flatten ++ l.2 := by
  obtain ⟨draft, hdraft, hpage⟩ := drafted_render code e
  refine ⟨draft.map fun l => (if l.2 = [] then 0 else l.1, l.2), ?_, fun indent hindent => ?_⟩
  · rw [List.forall_mem_map]
    intro l hl
    obtain ⟨hdepth, hline⟩ := hdraft l hl
    refine ⟨?_, hline, fun hempty => if_pos hempty⟩
    show (if l.2 = [] then 0 else l.1) ≤ 3
    split <;> omega
  · have hlines : ((Style.mk indent code).render e).lines = draft.page indent :=
      hpage indent hindent
    rw [hlines, Draft.page, List.map_map]
    refine List.map_congr_left fun l _ => ?_
    by_cases hempty : l.2 = []
    · simp [hempty, Page.line]
    · simp [hempty, Page.line]

/-- Line feeds in a text, in a content type and in a cell, and a description of line feeds alone. -/
theorem Element.exists_draft_unruly :
    let given : Step := {
      text := "a\n".toList
      block := some (.docString "b\n\nc".toList (some "d\ne".toList)) }
    let rows : Step := { block := some (.table [["f\ng".toList, []], []]) }
    let e : Element := .feature {
      description := "\n".toList
      tests := [.outline { steps := [given, rows], examples := [{ name := "h\n".toList }] }] }
    let code := "fr".toList
    '\n' ∉ "\t ".toList ∧ ∃ draft : List (ℕ × Text),
      (∀ l ∈ draft, l.1 ≤ 3 ∧ '\n' ∉ l.2 ∧ (l.2 = [] → l.1 = 0)) ∧
      (∀ indent, '\n' ∉ indent → ((Style.mk indent code).render e).lines =
        draft.map fun l => (List.replicate l.1 indent).flatten ++ l.2) ∧
      ((Style.mk "\t ".toList code).render e).lines =
        draft.map fun l => (List.replicate l.1 "\t ".toList).flatten ++ l.2 := by
  intro given rows e code
  have hindent : '\n' ∉ "\t ".toList := by decide
  obtain ⟨draft, hdraft, hrender⟩ := Element.exists_draft e code
  exact ⟨hindent, draft, hdraft, hrender, hrender _ hindent⟩

/-- Only the first line of a content type is indented. -/
example : ((Style.mk ['\t'] "en".toList).step {
      text := "a".toList
      block := some (.docString "b\n\nc".toList (some "d\ne".toList)) }).lines =
    ["* a".toList, "\t\"\"\"d".toList, "e".toList, "\tb".toList, [], "\tc".toList,
      "\t\"\"\"".toList] := by
  decide

end Gherkin
