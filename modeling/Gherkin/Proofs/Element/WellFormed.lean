import Gherkin.Document.Parser.Step
import Gherkin.Element.Kind
import Gherkin.Line.Classify
import Gherkin.Proofs.Element.Forget
import Gherkin.Proofs.Line.Cells
import Gherkin.Proofs.Line.Fence
import Gherkin.Proofs.Line.Tags
import Gherkin.Text.Description
import Gherkin.Layout.Render

/-! Elements whose rendering can be read back. Each condition is on one attribute: that the line it
is written on is of the right kind, and that nothing of it is trimmed away. -/

namespace Gherkin

variable (d : Dialect)

/-- A keyword of the block or none, a name that fits on the header line, and a description in normal
form that no line of its own ends. -/
structure Heading.WellFormed (block : Block) (h : Heading) : Prop where
  keyword : h.keyword = [] ∨ (block, h.keyword) ∈ d.headerKeywords
  name : h.name.trim = h.name
  name_line : '\n' ∉ h.name
  description : Text.normalizeDescription h.description = h.description
  description_lines : ∀ l ∈ h.description.lines,
    Document.Parser.endsDescription block (d.vocabulary.kindOf l) = false

/-- A comment as it may stand below a language header, where another one counts as a comment. -/
structure Comment.Marked (c : Comment) : Prop where
  trimmed : c.text.trim = c.text
  line : '\n' ∉ c.text
  sign : ∃ cs, c.text = '#' :: cs

/-- A comment that is none of the language headers. -/
structure Comment.WellFormed (c : Comment) : Prop extends c.Marked where
  language : languageCode? c.text = none

/-- The tags of an element have names. -/
def Tag.AllNamed (tags : List Tag) : Prop := ∀ t ∈ tags, IsTagName t.name

/-- Rows of one length whose cells keep their values. -/
structure IsTable (rows : List (List Text)) : Prop where
  length : ∀ r ∈ rows, ∀ r' ∈ rows, r.length = r'.length
  cells : ∀ r ∈ rows, ∀ value ∈ r, Cell.Fits value

/-- A content type is not empty and fits on the line of the opening fence. -/
structure IsContentType (t : Text) : Prop where
  ne_nil : t ≠ []
  trimmed : t.trim = t
  line : '\n' ∉ t

/-! ### Steps -/

/-- A block that is read as a block of its kind, whatever becomes of the fences in it. -/
def StepBlock.Readable : StepBlock → Prop
  | table rows => rows ≠ [] ∧ IsTable rows
  | docString content contentType =>
    (∀ l ∈ content.lines, l.getLast? ≠ some '\r') ∧ ∀ t ∈ contentType, IsContentType t

/-- What escaping does to the lines of a doc string is undone by reading. -/
def StepBlock.Restored : StepBlock → Prop
  | table _ => True
  | docString content _ => ∀ l ∈ content.lines,
    (l.replace Fence.quotes.mark Fence.quotes.escaped).replace Fence.quotes.escaped
      Fence.quotes.mark = l

/-- The line of the keyword and the text is a step with just these. -/
structure Step.Readable (s : Step) : Prop where
  keyword : s.keyword ≠ []
  line : '\n' ∉ s.text
  kind : ∃ keyword, d.vocabulary.kindOf (s.keyword ++ ' ' :: s.text) = .step keyword s.text ∧
    keyword.trim = s.keyword
  block : ∀ b ∈ s.block, b.Readable

/-- A step that is read as it is, with the fences in its doc string. -/
structure Step.WellFormed (s : Step) : Prop extends s.Readable d where
  restored : ∀ b ∈ s.block, b.Restored

/-- What is read of a block. -/
def StepBlock.reread : StepBlock → StepBlock
  | table rows => .table rows
  | docString content contentType => .docString content.reread contentType

/-- What is read of a step. -/
def Step.reread (s : Step) : Step := { s with block := s.block.map StepBlock.reread, origin := none }

theorem StepBlock.Restored.reread_eq {b : StepBlock} (h : b.Restored) : b.reread = b := by
  cases b with
  | table rows => rfl
  | docString content contentType =>
    have hlines : content.lines.map Text.reread = content.lines :=
      (List.map_congr_left h).trans (List.map_id' _)
    rw [StepBlock.reread, ← Text.unlines_lines content.reread, Text.lines_reread, hlines,
      Text.unlines_lines]

/-! ### Blocks and features -/

structure Example.WellFormed (e : Example) : Prop where
  heading : e.toHeading.WellFormed d .examples
  tags : Tag.AllNamed e.tags
  rows : IsTable e.rows

structure Background.WellFormed (b : Background) : Prop where
  heading : b.toHeading.WellFormed d .background
  steps : ∀ s ∈ b.steps, s.WellFormed d

structure Scenario.WellFormed (s : Scenario) : Prop where
  heading : s.toHeading.WellFormed d .scenario
  tags : Tag.AllNamed s.tags
  steps : ∀ x ∈ s.steps, x.WellFormed d

structure Outline.WellFormed (o : Outline) : Prop where
  heading : o.toHeading.WellFormed d .outline
  tags : Tag.AllNamed o.tags
  steps : ∀ x ∈ o.steps, x.WellFormed d
  examples : ∀ e ∈ o.examples, e.WellFormed d

def Test.WellFormed : Test → Prop
  | scenario s => s.WellFormed d
  | outline o => o.WellFormed d

/-- A feature that is well formed below a language header. -/
structure Feature.WellFormedBelow (f : Feature) : Prop where
  heading : f.toHeading.WellFormed d .feature
  tags : Tag.AllNamed f.tags
  background : ∀ b ∈ f.background, b.WellFormed d
  tests : ∀ t ∈ f.tests, t.WellFormed d
  marked : ∀ c ∈ f.comments, c.Marked

/-- No comment of a feature without a language header is one. -/
structure Feature.WellFormed (f : Feature) : Prop extends f.WellFormedBelow d where
  language : ∀ c ∈ f.comments, languageCode? c.text = none

theorem Feature.WellFormed.comments {d : Dialect} {f : Feature} (h : f.WellFormed d) :
    ∀ c ∈ f.comments, c.WellFormed :=
  fun c hc => ⟨h.marked c hc, h.language c hc⟩

/-! ### Origins do not matter -/

section Forget

variable {d}

theorem Tag.allNamed_forget {tags : List Tag} :
    Tag.AllNamed (tags.map Tag.forget) ↔ Tag.AllNamed tags :=
  List.forall_mem_map

theorem Step.WellFormed.of_forget {s : Step} (h : s.forget.WellFormed d) : s.WellFormed d :=
  ⟨⟨h.keyword, h.line, h.kind, h.block⟩, h.restored⟩

theorem Step.wellFormed_of_forget {steps : List Step}
    (h : ∀ s ∈ steps.map Step.forget, s.WellFormed d) : ∀ s ∈ steps, s.WellFormed d :=
  fun s hs => .of_forget (h s.forget (List.mem_map_of_mem hs))

theorem Example.WellFormed.of_forget {e : Example} (h : e.forget.WellFormed d) : e.WellFormed d :=
  ⟨h.heading, Tag.allNamed_forget.1 h.tags, h.rows⟩

theorem Background.WellFormed.of_forget {b : Background} (h : b.forget.WellFormed d) :
    b.WellFormed d :=
  ⟨h.heading, Step.wellFormed_of_forget h.steps⟩

theorem Test.WellFormed.of_forget {t : Test} (h : t.forget.WellFormed d) : t.WellFormed d := by
  cases t with
  | scenario s => exact ⟨h.heading, Tag.allNamed_forget.1 h.tags, Step.wellFormed_of_forget h.steps⟩
  | outline o =>
    refine ⟨h.heading, Tag.allNamed_forget.1 h.tags, Step.wellFormed_of_forget h.steps, ?_⟩
    exact fun e he => .of_forget (h.examples e.forget (List.mem_map_of_mem he))

theorem Feature.WellFormed.of_forget {f : Feature} (h : f.forget.WellFormed d) :
    f.WellFormed d where
  heading := h.heading
  tags := Tag.allNamed_forget.1 h.tags
  background b hb := .of_forget (h.background b.forget (Option.mem_map_of_mem _ hb))
  tests t ht := .of_forget (h.tests t.forget (List.mem_map_of_mem ht))
  marked c hc :=
    have hmarked := h.marked c.forget (List.mem_map_of_mem hc)
    ⟨hmarked.trimmed, hmarked.line, hmarked.sign⟩
  language c hc := h.language c.forget (List.mem_map_of_mem hc)

end Forget

/-! ### Elements -/

/-- An element that is read back as it was written. Only elements that are a step or have a header
line are considered. -/
def Element.WellFormed : Element → Prop
  | feature f => f.WellFormed d
  | background b => b.WellFormed d
  | scenario s => s.WellFormed d
  | outline o => o.WellFormed d
  | .example e => e.WellFormed d
  | step s => s.WellFormed d
  | _ => False

def Element.kind : Element → Kind
  | directory _ => .directory
  | featureFile _ => .featureFile
  | feature _ => .feature
  | background _ => .background
  | scenario _ => .scenario
  | outline _ => .outline
  | .example _ => .example
  | step _ => .step
  | tag _ => .tag
  | comment _ => .comment

end Gherkin
