import Gherkin.Proofs.Document.Soundness
import Gherkin.Proofs.Element.OfDocument
import Gherkin.Proofs.Element.WellFormed
import Gherkin.Proofs.Layout.Page
import Gherkin.Proofs.Line.Kinds
import Gherkin.Proofs.Text.Indent

/-! The lines of a rendered step hold the step: its table or doc string is read back from the lines
one level deeper, wherever the step itself stands. -/

open Gherkin.Document

namespace Gherkin

variable {d : Dialect} {p : Text} {ls : List Line}

namespace Written

variable {l : Line} {t : Text}

/-- An indented line, trimmed. -/
theorem text_eq (hp : p.IsIndent) (hraw : l.raw = Text.shift p t) (ht : t.trim = t) :
    l.text = t := by
  rw [Line.text, hraw]
  by_cases hne : t = []
  · rw [hne]
    rfl
  · rw [Text.shift_of_ne hne, Text.trim_append_of_blank hp.blank, ht]

/-- The indentation of a line that starts with no blank of its own. -/
theorem indent_eq (hp : p.IsIndent) (hraw : l.raw = Text.shift p t) (hne : t ≠ [])
    (ht : Text.trimStart t = t) : l.indent = p.length := by
  have hzero : t.takeWhile Text.isBlank = [] := by
    have h := congrArg List.length (Text.takeWhile_append_trimStart t)
    rw [ht, List.length_append] at h
    exact List.eq_nil_of_length_eq_zero (by omega)
  rw [Line.indent, hraw, Text.shift_of_ne hne, Text.indent_append_of_blank hp.blank, Text.indent,
    hzero]
  rfl

end Written

/-! ### Tables -/

section Rows

variable (width : ℕ → ℕ)

/-- A row whose columns have the given widths. -/
def rowLine (row : List Text) : Text :=
  Page.rowText (row.mapIdx fun k value => Page.pad (width k) (Cell.escape value))

theorem rowLine_eq (row : List Text) : ∃ cs, rowLine width row = '|' :: cs :=
  ⟨_, Cell.rowText_eq _⟩

theorem getLast?_rowLine (row : List Text) : (rowLine width row).getLast? = some '|' := by
  rw [rowLine, Cell.rowText_eq]
  rcases List.eq_nil_or_concat
    (row.mapIdx fun k value => Page.pad (width k) (Cell.escape value)) with h | ⟨init, last, h⟩
  · rw [h]
    rfl
  · rw [h, List.concat_eq_append, List.flatMap_append]
    simp [List.getLast?_cons]

theorem trim_rowLine (row : List Text) : (rowLine width row).trim = rowLine width row := by
  obtain ⟨cs, hcs⟩ := rowLine_eq width row
  refine Text.trim_eq_self_iff.2 ⟨?_, ?_⟩
  · rw [hcs]
    exact Text.trimStart_cons_of_not (by decide) _
  · rw [Text.trimEnd_eq_self_iff, getLast?_rowLine]
    intro c hc
    obtain rfl := Option.some.inj hc
    decide

theorem isLine_rowLine (row : List Text) : (rowLine width row).IsLine := by
  refine ⟨?_, by rw [getLast?_rowLine]; decide⟩
  rw [rowLine, Cell.rowText_eq]
  intro h
  rcases List.mem_cons.1 h with h | h
  · exact absurd h (by decide)
  · obtain ⟨cell, hcell, hmem⟩ := List.mem_flatMap.1 h
    obtain ⟨k, hk, rfl⟩ := List.mem_mapIdx.1 hcell
    have hpad : '\n' ∉ Page.pad (width k) (Cell.escape row[k]) := by
      simp [Page.pad, Cell.not_mem_escape, List.mem_replicate]
    simp [hpad] at hmem

/-- The rows of a written table. -/
theorem rows_reading (hd : d.Sound) (hp : p.IsIndent) {rows : List (List Text)} {n : ℕ}
    (hlen : ∀ r ∈ rows, r.length = n) (hfits : ∀ r ∈ rows, ∀ value ∈ r, Cell.Fits value)
    (hw : Written d.vocabulary p (rows.map (rowLine width)) ls) :
    ∃ rs, Reading.Rows n ls rs [] ∧ rs.map Row.plain = rows := by
  induction rows generalizing ls with
  | nil =>
    obtain rfl := Written.nil_iff.1 hw
    exact ⟨[], .nil .nil, rfl⟩
  | cons row rows ih =>
    obtain ⟨hlen, hlens⟩ := List.forall_mem_cons.1 hlen
    obtain ⟨hfits, hfitss⟩ := List.forall_mem_cons.1 hfits
    obtain ⟨l, rest, rfl, hraw, hkind, hrest⟩ := Written.cons_iff.1 hw
    obtain ⟨rs, hrs, hplain⟩ := ih hlens hfitss hrest
    obtain ⟨cs, hcs⟩ := rowLine_eq width row
    have hrow : l.kind = .row := by
      rw [hkind]
      exact Vocabulary.plainKind_of_ne (hcs ▸ Vocabulary.kindOf_pipe hd cs) (by simp)
    have hcells : (Cell.split l.text l.location).map Cell.value = row := by
      rw [Written.text_eq hp hraw (trim_rowLine width row)]
      exact Cell.map_value_split hfits width _
    have hn : (Cell.split l.text l.location).length = n := by
      rw [← hlen, ← congrArg List.length hcells, List.length_map]
    refine ⟨_, Reading.Rows.cons .nil hrow hn hrs, ?_⟩
    rw [List.map_cons, hplain, Row.plain, hcells]

end Rows

/-- The width of a column when a table is written. -/
theorem tableRows_eq (rows : List (List Text)) :
    Page.tableRows rows = rows.map (rowLine (Page.width (rows.map (List.map Cell.escape)))) := by
  rw [Page.tableRows, List.map_map]
  refine List.map_congr_left fun row _ => ?_
  have hmap : ∀ f : ℕ → Text → Text, (row.map Cell.escape).mapIdx f =
      row.mapIdx fun k value => f k (Cell.escape value) := by
    intro f
    rw [List.mapIdx_eq_iff]
    simp [List.getElem?_mapIdx, Function.comp_def]
  rw [Function.comp_apply, rowLine, hmap]

/-! ### Doc strings -/

/-- The lines of a written doc string, at the margin. -/
def docLines (content : Text) (contentType : Option Text) : List Text :=
  (Fence.quotes.mark ++ contentType.getD []) ::
    ((if content = [] then []
      else content.lines.map (Text.replace · Fence.quotes.mark Fence.quotes.escaped)) ++
      [Fence.quotes.mark])

theorem docString_eq (s : Style) (content : Text) (contentType : Option Text) :
    s.docString content contentType =
      (docLines content contentType).map (Text.shift s.indent) := by
  have hne : Fence.quotes.mark ≠ [] := by decide
  have hline : Page.line s.indent 1 = Text.shift s.indent := funext (Page.line_one s.indent)
  have hlines : Text.lines (content.replace Fence.quotes.mark Fence.quotes.escaped) = _ :=
    Text.lines_replace hne (by decide) (by decide) content
  simp only [Style.docString, docLines, Page.block, hlines, hline]
  split <;> simp

theorem Text.isLine_mark : Text.IsLine Fence.quotes.mark := ⟨by decide, by decide⟩

theorem Text.IsLine.replace {l : Text} (hline : '\n' ∉ l) (hlast : l.getLast? ≠ some '\r') :
    Text.IsLine (l.replace Fence.quotes.mark Fence.quotes.escaped) := by
  have hne : Fence.quotes.mark ≠ [] := by decide
  refine ⟨fun h => ?_, fun h => ?_⟩
  · rcases Text.mem_replace hne h with h | h
    · exact hline h
    · exact absurd h (by decide)
  · rcases Text.getLast?_replace hne (by decide) h with h | h
    · exact hlast h
    · exact absurd h (by decide)

theorem Text.isLine_fence {t : Text} (h : IsContentType t) :
    Text.IsLine (Fence.quotes.mark ++ t) := by
  have hend := (Text.trim_eq_self_iff.1 h.trimmed).2
  obtain ⟨-, hlast⟩ := Text.isLine_of_trimEnd h.line hend
  refine ⟨?_, by rwa [List.getLast?_append_of_ne_nil _ h.ne_nil]⟩
  simp [h.line, Fence.mark]

theorem isLine_docLines {content : Text} {contentType : Option Text}
    (hcontent : ∀ l ∈ content.lines, l.getLast? ≠ some '\r')
    (htype : ∀ t ∈ contentType, IsContentType t) :
    ∀ t ∈ docLines content contentType, t.IsLine := by
  intro t ht
  rcases List.mem_cons.1 ht with rfl | ht
  · cases contentType with
    | none => exact Text.isLine_mark
    | some t => exact Text.isLine_fence (htype t rfl)
  rcases List.mem_append.1 ht with ht | ht
  · split at ht
    · cases ht
    · obtain ⟨l, hl, rfl⟩ := List.mem_map.1 ht
      exact .replace (Text.not_mem_lines hl) (hcontent l hl)
  · rw [List.mem_singleton.1 ht]
    exact Text.isLine_mark

/-- The content of a line of a doc string that stands where its opening fence does. -/
theorem contentLine_eq {l : Line} {t : Text} (hp : p.IsIndent) (hraw : l.raw = Text.shift p
    (t.replace Fence.quotes.mark Fence.quotes.escaped)) :
    Parser.contentLine p.length .quotes l = t.reread := by
  have hdrop : Text.dropIndent p.length l.raw =
      t.replace Fence.quotes.mark Fence.quotes.escaped := by
    rw [hraw]
    by_cases hne : t.replace Fence.quotes.mark Fence.quotes.escaped = []
    · rw [hne, Text.shift_nil]
      cases p <;> rfl
    · rw [Text.shift_of_ne hne, ← Nat.add_zero p.length, Text.dropIndent_add hp.blank,
        Text.dropIndent_zero]
  rw [Parser.contentLine, hdrop, Text.reread]

theorem body_reading (hp : p.IsIndent) {ts : List Text}
    (hw : Written d.vocabulary p
      (ts.map (Text.replace · Fence.quotes.mark Fence.quotes.escaped)) ls) :
    (∀ l ∈ ls, Parser.isFence .quotes l.kind = false) ∧
      ls.map (Parser.contentLine p.length .quotes) = ts.map Text.reread := by
  induction ts generalizing ls with
  | nil =>
    obtain rfl := Written.nil_iff.1 hw
    exact ⟨by simp, rfl⟩
  | cons t ts ih =>
    obtain ⟨l, rest, rfl, hraw, hkind, hrest⟩ := Written.cons_iff.1 hw
    obtain ⟨hfences, hmap⟩ := ih hrest
    refine ⟨List.forall_mem_cons.2 ⟨?_, hfences⟩, ?_⟩
    · rw [Bool.eq_false_iff]
      intro hfence
      obtain ⟨contentType, hk⟩ := Grammar.isFence_iff.1 hfence
      refine Vocabulary.kindOf_replace_ne_fence d.vocabulary t contentType ?_
      rw [hkind, Vocabulary.plainKind] at hk
      split at hk
      · cases hk
      · exact hk
    · rw [List.map_cons, hmap, contentLine_eq hp hraw, List.map_cons]

theorem Written.fence (hd : d.Sound) {l : Line} {t : Text} (ht : t.trim = t)
    (hkind : l.kind = d.vocabulary.plainKind (Fence.quotes.mark ++ t)) :
    l.kind = .fence .quotes t := by
  rw [hkind]
  exact Vocabulary.plainKind_of_ne (Vocabulary.kindOf_quotes hd ht) (by simp)

theorem docString_reading (hd : d.Sound) (hp : p.IsIndent) {content : Text}
    {contentType : Option Text} (htype : ∀ t ∈ contentType, IsContentType t)
    (hw : Written d.vocabulary p (docLines content contentType) ls) :
    ∃ location,
      Reading.Argument ls (some (.docString location contentType content.reread .quotes)) [] := by
  obtain ⟨first, rest, rfl, hraw, hkind, hrest⟩ := Written.cons_iff.1 hw
  obtain ⟨body, after, rfl, hbody, hafter⟩ := Written.append_iff.1 hrest
  obtain ⟨last, rest, rfl, -, hlast, hnil⟩ := Written.cons_iff.1 hafter
  obtain rfl := Written.nil_iff.1 hnil
  have htrim : (contentType.getD []).trim = contentType.getD [] := by
    cases contentType with
    | none => rfl
    | some t => exact (htype t rfl).trimmed
  have hindent : first.indent = p.length :=
    Written.indent_eq hp hraw (by simp [Fence.mark]) (Text.trimStart_cons_of_not (by decide) _)
  have hclose : last.kind = .fence .quotes [] :=
    Written.fence hd Text.trim_nil (by rwa [List.append_nil])
  obtain ⟨hfences, hlines⟩ : (∀ l ∈ body, Parser.isFence .quotes l.kind = false) ∧
      Text.unlines (body.map (Parser.contentLine p.length .quotes)) = content.reread := by
    split at hbody
    · next hempty =>
      obtain rfl := Written.nil_iff.1 hbody
      exact ⟨by simp, by rw [hempty, Text.reread_nil]; rfl⟩
    · obtain ⟨hfences, hmap⟩ := body_reading hp hbody
      exact ⟨hfences, by rw [hmap, ← Text.lines_reread, Text.unlines_lines]⟩
  have hlast : Parser.isFence .quotes last.kind := by simp [hclose, Parser.isFence]
  have hread := Reading.Argument.docString .nil (Written.fence hd htrim hkind) hfences hlast
  rw [hindent, hlines, commentsOf_nil] at hread
  have hsame : (if contentType.getD [] = [] then none else some (contentType.getD [])) =
      contentType := by
    cases contentType with
    | none => rfl
    | some t => exact if_neg (htype t rfl).ne_nil
  rw [hsame] at hread
  exact ⟨first.location, hread⟩

/-! ### Steps -/

/-- The lines of a written step block, at the margin. -/
def blockLines : Option StepBlock → List Text
  | none => []
  | some (.table rows) => Page.tableRows rows
  | some (.docString content contentType) => docLines content contentType

theorem stepBlock_eq (s : Style) (b : Option StepBlock) :
    s.stepBlock b = (blockLines b).map (Text.shift s.indent) := by
  rcases b with - | ⟨rows⟩ | ⟨content, contentType⟩
  · rfl
  · have hline : Page.line s.indent 1 = Text.shift s.indent := funext (Page.line_one s.indent)
    rw [Style.stepBlock, Page.table, hline, blockLines]
  · exact docString_eq s content contentType

theorem isLine_blockLines {b : Option StepBlock} (hb : ∀ x ∈ b, x.Readable) :
    ∀ t ∈ blockLines b, t.IsLine := by
  rcases b with - | ⟨rows⟩ | ⟨content, contentType⟩
  · exact fun t ht => nomatch ht
  · intro t ht
    rw [blockLines, tableRows_eq] at ht
    obtain ⟨row, -, rfl⟩ := List.mem_map.1 ht
    exact isLine_rowLine _ row
  · obtain ⟨hcontent, htype⟩ := hb _ rfl
    exact isLine_docLines hcontent htype

theorem argument_reading (hd : d.Sound) (hp : p.IsIndent) {b : Option StepBlock}
    (hb : ∀ x ∈ b, x.Readable) (hw : Written d.vocabulary p (blockLines b) ls) :
    ∃ arg, Reading.Argument ls arg [] ∧ arg.map Argument.plain = b.map StepBlock.reread := by
  rcases b with - | ⟨rows⟩ | ⟨content, contentType⟩
  · obtain rfl := Written.nil_iff.1 hw
    exact ⟨none, .none .nil, rfl⟩
  · obtain ⟨hne, htable⟩ := hb _ rfl
    obtain ⟨row, more, rfl⟩ := List.exists_cons_of_ne_nil hne
    rw [blockLines, tableRows_eq] at hw
    have hlen : ∀ r ∈ row :: more, r.length = row.length := fun r hr =>
      htable.length r hr row List.mem_cons_self
    obtain ⟨rs, hrs, hplain⟩ := rows_reading _ hd hp hlen htable.cells hw
    obtain ⟨r, rs, rfl⟩ := List.exists_cons_of_ne_nil (List.ne_nil_of_length_pos
      (l := rs) (by rw [← List.length_map, hplain]; simp))
    refine ⟨_, .table hrs, ?_⟩
    rw [Option.map_some, Option.map_some, Argument.plain, hplain, StepBlock.reread]
  · obtain ⟨location, hread⟩ := docString_reading hd hp (hb _ rfl).2 hw
    exact ⟨_, hread, rfl⟩

/-- A well-formed step is read as it is. -/
theorem Step.WellFormed.reread_eq {s : Gherkin.Step} (h : s.WellFormed d) :
    s.reread = s.forget := by
  have hblock : s.block.map StepBlock.reread = s.block := by
    cases hb : s.block with
    | none => rfl
    | some b => rw [Option.map_some, (h.restored b hb).reread_eq]
  rw [Gherkin.Step.reread, hblock, Gherkin.Step.forget]

/-- The lines of a rendered step. -/
def stepLines (s : Style) (e : Gherkin.Step) : List Text :=
  (Style.keywordOr e.keyword Dialect.wildcard ++ ' ' :: e.text) :: s.stepBlock e.block

variable {s : Style} {e : Gherkin.Step}

theorem isLine_stepLine (hd : d.Sound) (he : e.Readable d) :
    Text.IsLine (e.keyword ++ ' ' :: e.text) := by
  obtain ⟨keyword, hkind, hkeyword⟩ := he.kind
  have hfits := Vocabulary.fits_kindOf d.vocabulary (e.keyword ++ ' ' :: e.text)
  rw [hkind] at hfits
  obtain ⟨rest, hmem, -, hrest⟩ := hfits
  have hline : '\n' ∉ e.keyword := by
    rw [← hkeyword]
    exact fun h => (hd.step keyword hmem).line
      (((Text.trimEnd_sublist _).trans (List.dropWhile_sublist _)).subset h)
  refine ⟨by simp [hline, he.line], ?_⟩
  by_cases hne : e.text = []
  · rw [hne]
    simp
  · have htrim : e.text.trim = e.text := by rw [hrest, Text.trim_trim]
    obtain ⟨-, hlast⟩ := Text.isLine_of_trimEnd he.line (Text.trim_eq_self_iff.1 htrim).2
    rwa [List.getLast?_append_of_ne_nil _ (List.cons_ne_nil _ _), List.getLast?_cons_of_ne_nil hne]

theorem isLine_stepLines (hd : d.Sound) (hs : s.indent.IsIndent) (he : e.Readable d) :
    ∀ t ∈ stepLines s e, t.IsLine := by
  refine List.forall_mem_cons.2 ⟨?_, ?_⟩
  · rw [Style.keywordOr, if_neg he.keyword]
    exact isLine_stepLine hd he
  · rw [stepBlock_eq]
    intro t ht
    obtain ⟨u, hu, rfl⟩ := List.mem_map.1 ht
    exact (isLine_blockLines he.block u hu).shift hs.line

theorem step_reading (hd : d.Sound) (hp : p.IsIndent) (hs : s.indent.IsIndent)
    (he : e.Readable d) (hw : Written d.vocabulary p (stepLines s e) ls) :
    ∃ node, Reading.Step ls node [] ∧ node.plain = e.reread := by
  obtain ⟨l, rest, rfl, -, hkind, hrest⟩ := Written.cons_iff.1 hw
  rw [stepBlock_eq, Written.map_shift_iff hs.blank] at hrest
  obtain ⟨arg, harg, hplain⟩ := argument_reading hd (hp.append hs) he.block hrest
  obtain ⟨keyword, hstep, hkeyword⟩ := he.kind
  rw [Style.keywordOr, if_neg he.keyword, Vocabulary.plainKind_of_ne hstep (by simp)] at hkind
  refine ⟨_, .mk .nil hkind harg, ?_⟩
  rw [Document.Step.plain, hplain, hkeyword]
  rfl

end Gherkin
