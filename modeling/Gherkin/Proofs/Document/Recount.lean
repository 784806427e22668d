import Gherkin.Proofs.Document.Reading
import Gherkin.Proofs.Element.OfDocument
import Gherkin.Proofs.Line.Cells
import Gherkin.Proofs.Line.Tags

/-! Lines that are counted anew, as when a part of a text is put into another one. A language header
may turn into a comment on the way, and nothing else changes; so the lines hold a node of the same
element as before. -/

open Gherkin.Document.Parser

namespace Gherkin

/-- The kind of a line that is not the language header of its document. -/
def LineKind.demoted : LineKind → LineKind
  | .language _ => .comment
  | k => k

theorem LineKind.demoted_of_ne {k : LineKind} (h : ∀ code, k ≠ .language code) : k.demoted = k := by
  cases k <;> first | rfl | exact absurd rfl (h _)

namespace Document

variable {α β : Type} {R : List Line → α → List Comment → Prop} {plain : α → β} {g : Line → Line}
  {ls ts : List Line} {cs : List Comment}

/-- The map counts lines anew and leaves them as they are. -/
structure Recounts (g : Line → Line) : Prop where
  raw : ∀ l, (g l).raw = l.raw
  kind : ∀ l, (g l).kind = l.kind.demoted

/-- Lines that are counted anew hold a node of the same element. -/
def Recountable (R : List Line → α → List Comment → Prop) (plain : α → β) : Prop :=
  ∀ {g ls a cs}, Recounts g → R ls a cs → ∃ a' cs', R (ls.map g) a' cs' ∧ plain a' = plain a

namespace Recounts

variable (hg : Recounts g)

include hg

theorem kind_of_ne {l : Line} {k : LineKind} (hl : l.kind = k) (hk : ∀ code, k ≠ .language code) :
    (g l).kind = k := by
  rw [hg.kind, hl, LineKind.demoted_of_ne hk]

theorem text (l : Line) : (g l).text = l.text := congrArg Text.trim (hg.raw l)

theorem indent (l : Line) : (g l).indent = l.indent := congrArg Text.indent (hg.raw l)

theorem trivia (ht : Trivia ts) : Trivia (ts.map g) := by
  intro l hl
  obtain ⟨m, hm, rfl⟩ := List.mem_map.1 hl
  have htrivia := ht m hm
  rw [hg.kind]
  cases hk : m.kind <;> simp_all [LineKind.isTrivia, LineKind.demoted]

theorem isFence_kind (fence : Fence) (l : Line) : isFence fence (g l).kind = isFence fence l.kind := by
  rw [hg.kind]
  cases l.kind <;> rfl

theorem endsDescription_kind (block : Block) (l : Line) :
    endsDescription block (g l).kind = endsDescription block l.kind := by
  rw [hg.kind]
  cases l.kind <;> rfl

theorem descriptionText_map (body : List Line) :
    descriptionText ((body.map g).dropWhile (·.kind = .blank)) =
      descriptionText (body.dropWhile (·.kind = .blank)) := by
  have hblank : ((fun l : Line => decide (l.kind = .blank)) ∘ g) =
      fun l : Line => decide (l.kind = .blank) := by
    funext l
    rw [Function.comp_apply, hg.kind]
    cases l.kind <;> rfl
  have htrim : ((fun l : Line => l.raw.trimEnd) ∘ g) = fun l : Line => l.raw.trimEnd := by
    funext l
    rw [Function.comp_apply, hg.raw]
  rw [List.dropWhile_map, hblank, descriptionText, descriptionText, List.map_map, htrim]

theorem map_contentLine (indent : ℕ) (fence : Fence) (body : List Line) :
    (body.map g).map (contentLine indent fence) = body.map (contentLine indent fence) := by
  rw [List.map_map]
  exact List.map_congr_left fun l _ => by
    rw [Function.comp_apply, contentLine, contentLine, hg.raw]

end Recounts

/-! ### Lines of one kind -/

theorem recountable_tags : Recountable Reading.Tags tagsOf := by
  intro g ls found cs hg h
  induction h with
  | nil ht => exact ⟨[], _, .nil (hg.trivia ht), rfl⟩
  | @cons ts l ls found more cs ht hl hf _ ih =>
    obtain ⟨more', cs', hmore, hplain⟩ := ih
    obtain ⟨found', hfound, hnames⟩ := LocatedTag.exists_split_of_split hf (g l).location
    rw [← hg.text l] at hfound
    refine ⟨found' ++ more', commentsOf (ts.map g) ++ cs', ?_, ?_⟩
    · rw [List.map_append, List.map_cons]
      exact .cons (hg.trivia ht) (hg.kind_of_ne hl (by simp)) hfound hmore
    · have hsame : tagsOf found' = tagsOf found := by
        have hmap := congrArg (List.map fun n => ({ name := n } : Gherkin.Tag)) hnames
        rwa [List.map_map, List.map_map] at hmap
      have happend : ∀ xs ys, tagsOf (xs ++ ys) = tagsOf xs ++ tagsOf ys := fun _ _ => List.map_append
      rw [happend, happend, hsame, hplain]

theorem recountable_rows (width : ℕ) : Recountable (Reading.Rows width) (List.map Row.plain) := by
  intro g ls rows cs hg h
  induction h with
  | nil ht => exact ⟨[], _, .nil (hg.trivia ht), rfl⟩
  | @cons ts l ls more cs ht hl hw _ ih =>
    obtain ⟨more', cs', hmore, hplain⟩ := ih
    have hvalues : (Cell.split (g l).text (g l).location).map Cell.value =
        (Cell.split l.text l.location).map Cell.value := by
      rw [hg.text, Cell.map_value_split_eq _ _ l.location]
    have hwidth : (Cell.split (g l).text (g l).location).length = width := by
      rw [← hw, ← List.length_map (f := Cell.value), hvalues, List.length_map]
    refine ⟨⟨(g l).location, Cell.split (g l).text (g l).location⟩ :: more',
      commentsOf (ts.map g) ++ cs', ?_, ?_⟩
    · rw [List.map_append, List.map_cons]
      exact .cons (hg.trivia ht) (hg.kind_of_ne hl (by simp)) hwidth hmore
    · rw [List.map_cons, List.map_cons, hplain, Row.plain, Row.plain, hvalues]

theorem recountable_argument : Recountable Reading.Argument (Option.map Argument.plain) := by
  intro g ls arg cs hg h
  cases h with
  | none ht => exact ⟨_, _, .none (hg.trivia ht), rfl⟩
  | table h =>
    obtain ⟨rows', cs', hrows, hplain⟩ := recountable_rows _ hg h
    cases rows' with
    | nil => cases hplain
    | cons row' rows' =>
      exact ⟨_, cs', .table hrows, congrArg (fun rows => some (StepBlock.table rows)) hplain⟩
  | @docString ts first body last fence contentType ht ho hb hc =>
    have hbody : ∀ l ∈ body.map g, isFence fence l.kind = false := by
      intro l hl
      obtain ⟨m, hm, rfl⟩ := List.mem_map.1 hl
      rw [hg.isFence_kind, hb m hm]
    have hread := Reading.Argument.docString (hg.trivia ht) (hg.kind_of_ne ho (by simp)) hbody
      ((hg.isFence_kind fence last).trans hc)
    rw [hg.indent, hg.map_contentLine] at hread
    rw [List.map_append, List.map_append, List.map_cons]
    exact ⟨_, _, hread, rfl⟩

theorem recountable_step : Recountable Reading.Step Step.plain := by
  intro g ls step cs hg h
  cases h with
  | @mk ts l ls keyword text arg cs ht hl h =>
    obtain ⟨arg', cs', harg, hplain⟩ := recountable_argument hg h
    refine ⟨⟨(g l).location, keyword, text, arg'⟩, commentsOf (ts.map g) ++ cs', ?_, ?_⟩
    · rw [List.map_append, List.map_cons]
      exact .mk (hg.trivia ht) (hg.kind_of_ne hl (by simp)) harg
    · rw [Step.plain, Step.plain, hplain]

theorem recountable_many (hR : Recountable R plain) :
    Recountable (Reading.Many R) (List.map plain) := by
  intro g ls items cs hg h
  induction h with
  | nil ht => exact ⟨[], _, .nil (hg.trivia ht), rfl⟩
  | @cons as a cs ls more ds ha _ ih =>
    obtain ⟨a', cs', ha', hplain⟩ := hR hg ha
    obtain ⟨more', ds', hmore, hplains⟩ := ih
    refine ⟨a' :: more', cs' ++ ds', ?_, ?_⟩
    · rw [List.map_append]
      exact .cons ha' hmore
    · rw [List.map_cons, List.map_cons, hplain, hplains]

/-! ### Blocks -/

theorem recountable_headed (block : Block) : Recountable (Reading.Headed block) Heading.plain := by
  intro g ls head cs hg h
  cases h with
  | @mk ts l body keyword name ht hl hb =>
    have hbody : ∀ x ∈ body.map g, endsDescription block x.kind = false := by
      intro x hx
      obtain ⟨y, hy, rfl⟩ := List.mem_map.1 hx
      rw [hg.endsDescription_kind, hb y hy]
    have hread := Reading.Headed.mk (hg.trivia ht) (hg.kind_of_ne hl (by simp)) hbody
    rw [hg.descriptionText_map] at hread
    rw [List.map_append, List.map_cons]
    exact ⟨_, _, hread, rfl⟩

theorem recountable_background : Recountable Reading.Background Background.plain := by
  intro g ls b cs hg h
  cases h with
  | mk hh h =>
    obtain ⟨head', cs', hh', hhead⟩ := recountable_headed _ hg hh
    obtain ⟨steps', ds', h', hsteps⟩ := recountable_many recountable_step hg h
    refine ⟨⟨head', steps'⟩, cs' ++ ds', ?_, ?_⟩
    · rw [List.map_append]
      exact .mk hh' h'
    · rw [Background.plain, Background.plain, hhead, hsteps]

theorem recountable_examples : Recountable Reading.Examples Examples.plain := by
  intro g ls e cs hg h
  cases h with
  | @mk _ _ _ found head width rows _ _ _ ht hh hr =>
    obtain ⟨found', bs', ht', htags⟩ := recountable_tags hg ht
    obtain ⟨head', cs', hh', hhead⟩ := recountable_headed _ hg hh
    obtain ⟨rows', ds', hr', hrows⟩ := recountable_rows width hg hr
    have hall : ∀ rows : List Row, rows.head?.toList ++ rows.tail = rows := by
      intro rows
      cases rows <;> rfl
    refine ⟨⟨head', found', rows'.head?, rows'.tail⟩, bs' ++ (cs' ++ ds'), ?_, ?_⟩
    · rw [List.map_append, List.map_append]
      exact .mk ht' hh' hr'
    · simp only [Examples.plain, hall, hhead, htags, hrows]

theorem recountable_scenario :
    Recountable (fun ls s => Reading.Test ls (.scenario s)) Scenario.plain := by
  intro g ls s cs hg h
  cases h with
  | scenario ht hh h =>
    obtain ⟨found', bs', ht', htags⟩ := recountable_tags hg ht
    obtain ⟨head', cs', hh', hhead⟩ := recountable_headed _ hg hh
    obtain ⟨steps', ds', h', hsteps⟩ := recountable_many recountable_step hg h
    refine ⟨⟨head', found', steps'⟩, bs' ++ (cs' ++ ds'), ?_, ?_⟩
    · rw [List.map_append, List.map_append]
      exact .scenario ht' hh' h'
    · simp only [Scenario.plain, hhead, htags, hsteps]

theorem recountable_outline :
    Recountable (fun ls o => Reading.Test ls (.outline o)) Outline.plain := by
  intro g ls o cs hg h
  cases h with
  | outline ht hh h he =>
    obtain ⟨found', bs', ht', htags⟩ := recountable_tags hg ht
    obtain ⟨head', cs', hh', hhead⟩ := recountable_headed _ hg hh
    obtain ⟨steps', ds', h', hsteps⟩ := recountable_many recountable_step hg h
    obtain ⟨blocks', es', he', hblocks⟩ := recountable_many recountable_examples hg he
    refine ⟨⟨head', found', steps', blocks'⟩, bs' ++ (cs' ++ (ds' ++ es')), ?_, ?_⟩
    · rw [List.map_append, List.map_append, List.map_append]
      exact .outline ht' hh' h' he'
    · simp only [Outline.plain, hhead, htags, hsteps, hblocks]

end Document

end Gherkin
