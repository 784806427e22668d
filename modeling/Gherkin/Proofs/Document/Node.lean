import Gherkin.Proofs.Document.Account
import Gherkin.Proofs.Line.Cells
import Gherkin.Proofs.Line.Tags

/-! The nodes of a document and the lines that they stand on. Whatever part of a document some lines
hold, each of its nodes starts at one of these lines, and what the node shows of itself can be told
from that line and, for a description or the content of a doc string, from the lines right after
it. -/

open Gherkin.Document.Parser

namespace Gherkin

namespace Document

/-! ### Nodes -/

/-- What has a place in a document. -/
inductive Node
  | header (block : Block) (h : Heading)
  | step (s : Step)
  | table (location : Location) (rows : List Row)
  | docString (location : Location) (contentType : Option Text) (content : Text) (fence : Fence)
  | row (r : Row)
  | cell (c : Cell)
  | tag (t : LocatedTag)
  | comment (c : Comment)

def Node.location : Node → Location
  | header _ h => h.location
  | step s => s.location
  | table location _ => location
  | docString location .. => location
  | row r => r.location
  | cell c => c.location
  | tag t => t.location
  | comment c => c.location

def Row.nodes (r : Row) : List Node := .row r :: r.cells.map .cell

def Argument.nodes : Argument → List Node
  | table location rows => .table location rows :: rows.flatMap Row.nodes
  | docString location contentType content fence =>
    [.docString location contentType content fence]

def Step.nodes (s : Step) : List Node := .step s :: s.argument.toList.flatMap Argument.nodes

def Background.nodes (b : Background) : List Node :=
  .header .background b.toHeading :: b.steps.flatMap Step.nodes

def Examples.nodes (e : Examples) : List Node :=
  e.tags.map .tag ++ .header .examples e.toHeading ::
    (e.header.toList ++ e.body).flatMap Row.nodes

def Child.nodes : Child → List Node
  | background b => b.nodes
  | scenario s => s.tags.map .tag ++ .header .scenario s.toHeading :: s.steps.flatMap Step.nodes
  | outline o => o.tags.map .tag ++ .header .outline o.toHeading ::
      (o.steps.flatMap Step.nodes ++ o.examples.flatMap Examples.nodes)

def Feature.nodes (f : Feature) : List Node :=
  f.tags.map .tag ++ .header .feature f.toHeading :: f.children.flatMap Child.nodes

end Document

/-- All nodes of a document. -/
def Document.nodes (d : Document) : List Document.Node :=
  d.feature.toList.flatMap Document.Feature.nodes ++ d.comments.map .comment

namespace Document

/-! ### Lines of nodes -/

/-- The lines that show a node: the one it starts at, and those of its description or content. -/
inductive Node.Stands : List Line → Node → Prop
  | header {l body block keyword name} (hl : l.kind = .header block keyword name)
    (hb : ∀ x ∈ body, endsDescription block x.kind = false) :
    Stands (l :: body) (.header block
      ⟨l.location, keyword, name, descriptionText (body.dropWhile (·.kind = .blank))⟩)
  | step {l keyword text argument} (hl : l.kind = .step keyword text) :
    Stands [l] (.step ⟨l.location, keyword, text, argument⟩)
  | table {l rows} (hl : l.kind = .row) (hrows : rows.head?.map Row.location = some l.location) :
    Stands [l] (.table l.location rows)
  | docString {l body fence contentType} (hl : l.kind = .fence fence contentType)
    (hb : ∀ x ∈ body, isFence fence x.kind = false) :
    Stands (l :: body) (.docString l.location (if contentType = [] then none else some contentType)
      (Text.unlines (body.map (contentLine l.indent fence))) fence)
  | row {l} (hl : l.kind = .row) : Stands [l] (.row ⟨l.location, Cell.split l.text l.location⟩)
  | cell {l c} (hl : l.kind = .row) (hc : c ∈ Cell.split l.text l.location) : Stands [l] (.cell c)
  | tag {l found t} (hl : l.kind = .tags) (hf : LocatedTag.split l.text l.location = .ok found)
    (ht : t ∈ found) : Stands [l] (.tag t)
  | comment {l} (hl : l.kind = .comment) : Stands [l] (.comment (commentOf l))

theorem Node.Stands.exists_cons {ls : List Line} {node : Node} (h : node.Stands ls) :
    ∃ l body, ls = l :: body ∧ node.location.line = l.number := by
  cases h with
  | tag hl hf ht => exact ⟨_, _, rfl, LocatedTag.line_of_splitFrom hf _ ht⟩
  | cell hl hc => exact ⟨_, _, rfl, Cell.line_of_split hc⟩
  | _ => exact ⟨_, _, rfl, rfl⟩

/-- Lines that follow one another start at some index. -/
theorem exists_drop_of_isInfix {ls body : List Line} {l : Line} (h : l :: body <:+: ls) :
    ∃ i, ls[i]? = some l ∧ l :: body <+: ls.drop i := by
  obtain ⟨before, after, rfl⟩ := h
  exact ⟨before.length, by simp, after, by rw [List.append_assoc, List.drop_left]⟩

/-- Nodes that stand on some lines, each of them on lines that follow one another. -/
def Standing (ls : List Line) (nodes : List Node) : Prop :=
  ∀ node ∈ nodes, ∃ block, block <:+: ls ∧ node.Stands block

namespace Standing

variable {ls as bs : List Line} {nodes more : List Node} {node : Node}

theorem nil : Standing ls [] := fun _ h => nomatch h

theorem cons {block : List Line} (hblock : block <:+: ls) (h : node.Stands block)
    (hs : Standing ls nodes) : Standing ls (node :: nodes) :=
  List.forall_mem_cons.2 ⟨⟨block, hblock, h⟩, hs⟩

theorem append (h : Standing ls nodes) (h' : Standing ls more) : Standing ls (nodes ++ more) :=
  List.forall_mem_append.2 ⟨h, h'⟩

theorem of_cons (h : Standing ls (node :: nodes)) : Standing ls nodes :=
  (List.forall_mem_cons.1 h).2

theorem of_mem (h : Standing ls nodes) (hmem : node ∈ nodes) : Standing ls [node] :=
  List.forall_mem_singleton.2 (h node hmem)

theorem of_append (h : Standing ls (nodes ++ more)) : Standing ls nodes ∧ Standing ls more :=
  List.forall_mem_append.1 h

theorem of_flatMap {α : Type} {f : α → List Node} {items : List α}
    (h : Standing ls (items.flatMap f)) : ∀ a ∈ items, Standing ls (f a) :=
  fun _ ha _ hnode => h _ (List.mem_flatMap_of_mem ha hnode)

theorem mono (h : Standing as nodes) (hsub : as <:+: bs) : Standing bs nodes := by
  intro node hnode
  obtain ⟨block, hblock, hstands⟩ := h node hnode
  exact ⟨block, hblock.trans hsub, hstands⟩

theorem left (h : Standing as nodes) (bs : List Line) : Standing (as ++ bs) nodes :=
  h.mono (List.prefix_append as bs).isInfix

theorem right (h : Standing bs nodes) (as : List Line) : Standing (as ++ bs) nodes :=
  h.mono (List.suffix_append as bs).isInfix

theorem many {α : Type} {R : List Line → α → List Comment → Prop} {f : α → List Node}
    {ls : List Line} {items : List α} {cs : List Comment} (h : Reading.Many R ls items cs)
    (hR : ∀ {ls a cs}, R ls a cs → Standing ls (f a)) : Standing ls (items.flatMap f) := by
  induction h with
  | nil => exact nil
  | cons h _ ih =>
    rw [List.flatMap_cons]
    exact ((hR h).left _).append (ih.right _)

end Standing

variable {ls : List Line} {cs : List Comment}

theorem isInfix_singleton {l : Line} (as bs : List Line) : [l] <:+: as ++ l :: bs := by
  refine ⟨as, bs, ?_⟩
  rw [List.append_assoc, List.singleton_append]

theorem standing_tags {found : List LocatedTag} (h : Reading.Tags ls found cs) :
    Standing ls (found.map .tag) := by
  induction h with
  | nil => exact .nil
  | @cons ts l ls found more cs ht hl hf _ ih =>
    rw [List.map_append]
    refine .append ?_ ((ih.right [l]).right ts)
    intro node hnode
    obtain ⟨t, htag, rfl⟩ := List.mem_map.1 hnode
    exact ⟨[l], isInfix_singleton ts ls, .tag hl hf htag⟩

theorem standing_rows {width : ℕ} {rows : List Row} (h : Reading.Rows width ls rows cs) :
    Standing ls (rows.flatMap Row.nodes) := by
  induction h with
  | nil => exact .nil
  | @cons ts l ls more cs ht hl _ _ ih =>
    have hline : [l] <:+: ts ++ l :: ls := isInfix_singleton ts ls
    rw [List.flatMap_cons]
    refine .append (.cons hline (.row hl) ?_) ((ih.right [l]).right ts)
    intro node hnode
    obtain ⟨c, hc, rfl⟩ := List.mem_map.1 hnode
    exact ⟨[l], hline, .cell hl hc⟩

theorem standing_argument {argument : Option Argument} (h : Reading.Argument ls argument cs) :
    Standing ls (argument.toList.flatMap Argument.nodes) := by
  cases h with
  | none => exact .nil
  | @table width ls row rows cs h =>
    have hrows := standing_rows h
    obtain ⟨block, hblock, hrow⟩ := hrows (.row row) (by simp [Row.nodes])
    cases hrow with
    | row hl => simpa [Argument.nodes] using hrows.cons hblock (.table hl rfl)
  | @docString ts first body last fence contentType ht ho hb hc =>
    have hblock : first :: body <:+: ts ++ first :: body ++ [last] := ⟨ts, [last], rfl⟩
    simpa [Argument.nodes] using Standing.nil.cons hblock (.docString ho hb)

theorem standing_step {step : Step} (h : Reading.Step ls step cs) : Standing ls step.nodes := by
  cases h with
  | @mk ts l ls keyword text argument cs ht hl h =>
    exact .cons (isInfix_singleton ts ls) (.step hl) (((standing_argument h).right [l]).right ts)

theorem standing_steps {steps : List Step} (h : Reading.Many Reading.Step ls steps cs) :
    Standing ls (steps.flatMap Step.nodes) := .many h standing_step

theorem standing_headed {block : Block} {head : Heading} (h : Reading.Headed block ls head cs) :
    Standing ls [.header block head] := by
  cases h with
  | @mk ts l body keyword name ht hl hb =>
    exact .cons (List.suffix_append ts (l :: body)).isInfix (.header hl hb) .nil

theorem standing_background {b : Background} (h : Reading.Background ls b cs) :
    Standing ls b.nodes := by
  cases h with
  | mk hh h => exact ((standing_headed hh).left _).append ((standing_steps h).right _)

theorem standing_examples {e : Examples} (h : Reading.Examples ls e cs) : Standing ls e.nodes := by
  cases h with
  | @mk ts hs rs found head width rows bs cs ds ht hh hr =>
    have hrows : rows.head?.toList ++ rows.tail = rows := by cases rows <;> rfl
    rw [Examples.nodes, hrows]
    exact ((standing_tags ht).left _).append
      ((((standing_headed hh).left _).append ((standing_rows hr).right _)).right _)

theorem standing_test {t : Child} (h : Reading.Test ls t cs) : Standing ls t.nodes := by
  cases h with
  | scenario ht hh h =>
    exact ((standing_tags ht).left _).append
      ((((standing_headed hh).left _).append ((standing_steps h).right _)).right _)
  | outline ht hh h he =>
    have hparts := ((standing_steps h).left _).append
      ((Standing.many he standing_examples).right _)
    exact ((standing_tags ht).left _).append
      ((((standing_headed hh).left _).append (hparts.right _)).right _)

theorem standing_children {children : List Child} (h : Reading.Children ls children cs) :
    Standing ls (children.flatMap Child.nodes) := by
  cases h with
  | tests h => exact .many h standing_test
  | background hb h =>
    exact ((standing_background hb).left _).append ((Standing.many h standing_test).right _)

theorem standing_feature {language : Text} {f : Feature} (h : Reading.Feature language ls f cs) :
    Standing ls f.nodes := by
  cases h with
  | mk ht hh h =>
    exact ((standing_tags ht).left _).append
      ((((standing_headed hh).left _).append ((standing_children h).right _)).right _)

theorem Kept.subset {out : List Line} {os : List (ℕ × Fence)} (h : Kept ls out os) :
    ∀ l ∈ out, l ∈ ls := by
  induction h with
  | nil => simp
  | line _ ih =>
    exact List.forall_mem_cons.2 ⟨List.mem_cons_self, fun l hl => List.mem_cons_of_mem _ (ih l hl)⟩
  | docString _ _ _ _ ih =>
    refine List.forall_mem_cons.2 ⟨by simp, List.forall_mem_cons.2 ⟨by simp, fun l hl => ?_⟩⟩
    exact List.mem_append_right _ (ih l hl)

theorem standing_document {language : Text} {d : Document} (h : Reading language ls d) :
    Standing ls d.nodes := by
  refine .append ?_ fun node hnode => ?_
  · cases h with
    | empty => exact .nil
    | feature h => simpa using standing_feature h
  · obtain ⟨c, hc, rfl⟩ := List.mem_map.1 hnode
    obtain ⟨out, hledger⟩ := accounts_document h
    rw [hledger.comments] at hc
    obtain ⟨l, hl, rfl⟩ := List.mem_map.1 hc
    obtain ⟨hout, hkind⟩ := List.mem_filter.1 hl
    obtain ⟨as, bs, rfl⟩ := List.append_of_mem (hledger.kept.subset l hout)
    exact ⟨[l], isInfix_singleton as bs, .comment (of_decide_eq_true hkind)⟩

end Document

end Gherkin
