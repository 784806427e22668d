import Gherkin.Proofs.Element.Forget
import Gherkin.Proofs.Layout.Heading

/-! The pages of blocks hold the blocks: what opens them, and the steps, rows and examples that
follow. What is read back is the block with the keyword of the dialect in force where it had none. -/

open Gherkin.Document

namespace Gherkin

variable {s : Style}

/-! ### Parts of a page -/

theorem exists_opening (s : Style) (tags : List Tag) (h : Heading) (keyword : Text) :
    ∃ blanks : List Text, (∀ t ∈ blanks, t = []) ∧
      s.opening tags h keyword = Style.tagLine tags ++
        Style.nameLine (Style.keywordOr h.keyword keyword) h.name ::
          (blanks ++ paragraph h.description) :=
  exists_describe s _ _ _

/-- What stands under a description is apart from it. -/
theorem exists_under (page more : List Text)
    (description : Text) : ∃ blanks : List Text, (∀ t ∈ blanks, t = []) ∧
      (if description = [] then page ++ more else Page.apart page more) = page ++ (blanks ++ more) := by
  split
  · exact ⟨[], by simp, rfl⟩
  · obtain ⟨blanks, hgap, hblank⟩ := Page.exists_gap page
    exact ⟨blanks, hblank, by rw [Page.apart, hgap, List.append_assoc]⟩

theorem exists_withSteps (s : Style) (page : List Text) (description : Text)
    (steps : List Gherkin.Step) : ∃ blanks : List Text, (∀ t ∈ blanks, t = []) ∧
      s.withSteps page description steps =
        page ++ (blanks ++ steps.flatMap fun e => Page.block s.indent 1 (s.step e)) := by
  by_cases hsteps : steps = []
  · exact ⟨[], by simp, by simp [Style.withSteps, hsteps]⟩
  · obtain ⟨blanks, hblank, hunder⟩ := exists_under page
      (steps.flatMap fun e => Page.block s.indent 1 (s.step e)) description
    exact ⟨blanks, hblank, by simpa only [Style.withSteps, if_neg hsteps] using hunder⟩

theorem exists_withRows (s : Style) (e : Example) : ∃ blanks : List Text, (∀ t ∈ blanks, t = []) ∧
    s.examplePage e = s.opening e.tags e.toHeading s.dialect.examplesKeyword ++
      (blanks ++ Page.table s.indent 1 e.rows) := by
  by_cases hrows : e.rows = []
  · exact ⟨[], by simp, by simp [Style.examplePage, hrows, Page.table, Page.tableRows]⟩
  · obtain ⟨blanks, hblank, hunder⟩ := exists_under
      (s.opening e.tags e.toHeading s.dialect.examplesKeyword) (Page.table s.indent 1 e.rows)
      e.description
    exact ⟨blanks, hblank, by simpa only [Style.examplePage, if_neg hrows] using hunder⟩

theorem examplePage_ne_nil (e : Example) : s.examplePage e ≠ [] := by
  obtain ⟨before, -, hopen⟩ := exists_opening s e.tags e.toHeading s.dialect.examplesKeyword
  obtain ⟨blanks, -, hpage⟩ := exists_withRows s e
  rw [hpage, hopen]
  simp

/-! ### Rows -/

/-- Table rows, however many cells they have. -/
def IsRows (ls : List Line) (rows : List Row) (cs : List Document.Comment) : Prop :=
  ∃ width, Reading.Rows width ls rows cs

theorem holds_rows {d : Dialect} (hd : d.Sound) (hs : s.indent.IsIndent) {rows : List (List Text)}
    (h : IsTable rows) :
    Holds d IsRows (List.map Row.plain) (Page.table s.indent 1 rows) rows := by
  have hline : Page.line s.indent 1 = Text.shift s.indent := funext (Page.line_one s.indent)
  rw [Page.table, hline, tableRows_eq]
  refine Holds.shift ⟨fun t ht => ?_, fun hp hw => ?_⟩ hs
  · obtain ⟨row, -, rfl⟩ := List.mem_map.1 ht
    exact isLine_rowLine _ row
  · have hlen : ∀ r ∈ rows, r.length = (rows.headD []).length := fun r hr => by
      cases rows with
      | nil => cases hr
      | cons row more => exact h.length r hr row List.mem_cons_self
    obtain ⟨rs, hrs, hplain⟩ := rows_reading _ hd hp hlen h.cells hw
    exact ⟨rs, ⟨_, hrs⟩, hplain⟩

/-! ### Blocks -/

/-- The page of an outline. -/
def outlinePage (s : Style) (o : Gherkin.Outline) : List Text :=
  o.examples.foldl (fun page e => Page.apart page (Page.block s.indent 0 (s.examples e)))
    (s.withSteps (s.opening o.tags o.toHeading s.dialect.outlineKeyword) o.description o.steps)

section Blocks

variable (hd : s.dialect.Sound) (hs : s.indent.IsIndent)

theorem leads_steps : Leads (Reading.Many Reading.Step) :=
  fun ht h => h.lead (fun h => h.lead ht) ht

include hd hs

theorem holds_example {e : Example} (h : e.WellFormed s.dialect) :
    Holds s.dialect Reading.Examples Examples.plain (s.examplePage e)
      (s.dialect.settleExample e) := by
  obtain ⟨before, hbefore, hopen⟩ :=
    exists_opening s e.tags e.toHeading s.dialect.examplesKeyword
  obtain ⟨blanks, hblanks, hpage⟩ := exists_withRows s e
  have hkeyword : (Block.examples, s.dialect.examplesKeyword) ∈ s.dialect.headerKeywords :=
    hd.defaultKeyword_mem .examples
  have hhead := holds_headed hd hkeyword h.heading hbefore
  have hrows := (holds_rows hd hs h.rows).lead (fun ht ⟨n, hr⟩ => ⟨n, hr.lead ht⟩) hblanks
  have hall := (holds_tags (d := s.dialect) h.tags).both (hhead.both hrows)
  rw [hpage, hopen, List.append_assoc]
  refine hall.map (fun x => ⟨x.2.1, x.1, x.2.2.head?, x.2.2.tail⟩)
    (fun x => { toHeading := x.2.1, tags := x.1, rows := x.2.2 }) rfl ?_ ?_
  · rintro _ ⟨found, head, rows⟩ ⟨as, _, rfl, ht, ⟨bs, cs, rfl, hh, ⟨_, hr⟩, -⟩, -⟩
    exact .mk ht hh hr
  · rintro ⟨found, head, rows⟩
    cases rows <;> rfl

theorem holds_background {b : Gherkin.Background} (h : b.WellFormed s.dialect) :
    Holds s.dialect Reading.Background Background.plain
      (s.withSteps (s.opening [] b.toHeading s.dialect.backgroundKeyword) b.description b.steps)
      (s.dialect.settleBackground b) := by
  obtain ⟨before, hbefore, hopen⟩ := exists_opening s [] b.toHeading s.dialect.backgroundKeyword
  obtain ⟨blanks, hblanks, hpage⟩ := exists_withSteps s
    (s.opening [] b.toHeading s.dialect.backgroundKeyword) b.description b.steps
  have hkeyword : (Block.background, s.dialect.backgroundKeyword) ∈ s.dialect.headerKeywords :=
    hd.defaultKeyword_mem .background
  have hhead := holds_headed hd hkeyword h.heading hbefore
  have hall := hhead.both ((holds_steps hd hs h.steps).lead leads_steps hblanks)
  rw [hpage, hopen]
  refine hall.map (fun x => ⟨x.1, x.2⟩) (fun x => { toHeading := x.1, steps := x.2 }) rfl ?_ ?_
  · rintro _ ⟨head, steps⟩ ⟨as, bs, rfl, hh, hsteps, -⟩
    exact .mk hh hsteps
  · exact fun _ => rfl

theorem holds_scenario {e : Gherkin.Scenario} (h : e.WellFormed s.dialect) :
    Holds s.dialect Reading.Test Child.test?
      (s.withSteps (s.opening e.tags e.toHeading s.dialect.scenarioKeyword) e.description e.steps)
      (some (.scenario (s.dialect.settleScenario e))) := by
  obtain ⟨before, hbefore, hopen⟩ :=
    exists_opening s e.tags e.toHeading s.dialect.scenarioKeyword
  obtain ⟨blanks, hblanks, hpage⟩ := exists_withSteps s
    (s.opening e.tags e.toHeading s.dialect.scenarioKeyword) e.description e.steps
  have hkeyword : (Block.scenario, s.dialect.scenarioKeyword) ∈ s.dialect.headerKeywords :=
    hd.defaultKeyword_mem .scenario
  have hhead := holds_headed hd hkeyword h.heading hbefore
  have hall := (holds_tags (d := s.dialect) h.tags).both
    (hhead.both ((holds_steps hd hs h.steps).lead leads_steps hblanks))
  rw [hpage, hopen, List.append_assoc]
  refine hall.map (fun x => .scenario ⟨x.2.1, x.1, x.2.2⟩)
    (fun x => some (.scenario { toHeading := x.2.1, tags := x.1, steps := x.2.2 })) rfl ?_ ?_
  · rintro _ ⟨found, head, steps⟩ ⟨as, _, rfl, ht, ⟨bs, cs, rfl, hh, hsteps, -⟩, -⟩
    exact .scenario ht hh hsteps
  · exact fun _ => rfl

theorem holds_outline {o : Gherkin.Outline} (h : o.WellFormed s.dialect) :
    Holds s.dialect Reading.Test Child.test? (outlinePage s o)
      (some (.outline (s.dialect.settleOutline o))) := by
  obtain ⟨before, hbefore, hopen⟩ := exists_opening s o.tags o.toHeading s.dialect.outlineKeyword
  obtain ⟨blanks, hblanks, hpage⟩ := exists_withSteps s
    (s.opening o.tags o.toHeading s.dialect.outlineKeyword) o.description o.steps
  have hblock : ∀ e ∈ o.examples, Holds s.dialect Reading.Examples Examples.plain
      (Page.block s.indent 0 (s.examples e)) (s.dialect.settleExample e) := fun e he =>
    (holds_example hd hs (h.examples e he)).block_zero (examplePage_ne_nil e) s.indent
  obtain ⟨more, hfold, hmore⟩ := Holds.foldl_apart (fun ht h => h.lead ht) hblock
    (s.withSteps (s.opening o.tags o.toHeading s.dialect.outlineKeyword) o.description o.steps)
  have hkeyword : (Block.outline, s.dialect.outlineKeyword) ∈ s.dialect.headerKeywords :=
    hd.defaultKeyword_mem .outline
  have hhead := holds_headed hd hkeyword h.heading hbefore
  have hall := (holds_tags (d := s.dialect) h.tags).both
    (hhead.both (((holds_steps hd hs h.steps).lead leads_steps hblanks).both hmore))
  rw [outlinePage, hfold, hpage, hopen, List.append_assoc, List.append_assoc, List.append_assoc]
  rw [List.append_assoc] at hall
  refine hall.map (fun x => .outline ⟨x.2.1, x.1, x.2.2.1, x.2.2.2⟩)
    (fun x => some (.outline
      { toHeading := x.2.1, tags := x.1, steps := x.2.2.1, examples := x.2.2.2 })) rfl ?_ ?_
  · rintro _ ⟨found, head, steps, examples⟩
      ⟨as, _, rfl, ht, ⟨bs, _, rfl, hh, ⟨cs, es, rfl, hsteps, hexamples, -⟩, -⟩, -⟩
    exact .outline ht hh hsteps hexamples
  · exact fun _ => rfl

end Blocks

end Gherkin
