import Gherkin.Proofs.Document.Lines
import Gherkin.Proofs.Document.Node
import Gherkin.Proofs.Line.Column

/-! Where the nodes of a document are in its text. Each node has the number of a line that shows it
and the column of its first significant character there. Comments are the exception: their column is
1, however far they are indented. -/

open Gherkin.Document.Parser

namespace Gherkin

namespace Text

theorem indent_dropReturn {t : Text} (h : t.trim ≠ []) : (dropReturn t).indent = t.indent := by
  obtain ⟨s, hs⟩ := dropReturn_prefix t
  have hfirst := (firstAt_indent (t := dropReturn t) (by rwa [trim_dropReturn])).append s
  rw [hs] at hfirst
  exact Nat.succ.inj hfirst.eq_indent

end Text

namespace Document

/-- The node has the column of its first significant character on a line: a tag that of its at sign,
a cell that of its first character or of the pipe that closes it, and other nodes that of the first
character of the line. A table starts where its first row does. -/
def Node.At (t : Text) : Node → Prop
  | tag x => ∃ found i, LocatedTag.split t.trim ⟨x.location.line, t.indent + 1⟩ = .ok found ∧
      found[i]? = some x ∧ x.StandsAt t i
  | table location rows =>
    t.FirstAt location.column ∧ rows.head?.map Row.location = some location
  | row r => t.FirstAt r.location.column ∧
      ∀ i (c : Cell), r.cells[i]? = some c → c.location.line = r.location.line ∧ c.StandsAt t i
  | cell c => ∃ i, c.StandsAt t i
  | node => t.FirstAt node.location.column

variable {t : Text} {l : Line} {body : List Line} {node : Node}

/-- A node on a line that is not blank has the column of its first significant character, -/
theorem Node.Stands.at_of_ne (h : node.Stands (l :: body)) (hraw : l.raw = Text.dropReturn t)
    (ht : t.trim ≠ []) (hne : ∀ c, node ≠ .comment c) : node.At t := by
  have hindent : l.indent = t.indent := by rw [Line.indent, hraw, Text.indent_dropReturn ht]
  have htext : l.text = t.trim := by rw [Line.text, hraw, Text.trim_dropReturn]
  have hlocation : l.location = ⟨l.number, t.indent + 1⟩ := by rw [Line.location, hindent]
  have hfirst : t.FirstAt l.location.column := hlocation ▸ Text.firstAt_indent ht
  have hblanks := Text.takeWhile_isBlank t
  have hcolumn : l.location.column = (t.takeWhile Text.isBlank).length + 1 :=
    congrArg Location.column hlocation
  obtain ⟨tail, htail⟩ := Text.exists_append_trim t
  rw [← htext] at htail
  have hcell {i : ℕ} {c : Cell} (hc : (Cell.split l.text l.location)[i]? = some c) :
      c.location.line = l.number ∧ c.StandsAt t i := by
    have hstands := Cell.standsAt_split tail hblanks hcolumn hc
    rw [← htail] at hstands
    exact ⟨Cell.line_of_split (List.mem_of_getElem? hc), hstands⟩
  cases h with
  | comment => exact absurd rfl (hne _)
  | header | step | docString => exact hfirst
  | table _ hrows => exact ⟨hfirst, hrows⟩
  | row => exact ⟨hfirst, fun i c hc => hcell hc⟩
  | cell _ hc =>
    obtain ⟨i, hi⟩ := List.getElem?_of_mem hc
    exact ⟨i, (hcell hi).2⟩
  | @tag _ found x _ hf hx =>
    obtain ⟨i, hi⟩ := List.getElem?_of_mem hx
    have hstands := LocatedTag.standsAt_split tail hblanks hcolumn hf hi
    rw [← htail] at hstands
    have hline : x.location.line = l.number := LocatedTag.line_of_splitFrom hf x hx
    refine ⟨found, i, ?_, hi, hstands⟩
    rw [← htext, hline, ← hlocation, hf]

/-- and a comment has it just when it is not indented. -/
theorem Node.Stands.at_iff (h : node.Stands (l :: body)) (hraw : l.raw = Text.dropReturn t)
    (ht : t.trim ≠ []) : node.At t ↔ ∀ c, node = .comment c → t.indent = 0 := by
  by_cases hcomment : ∃ c, node = .comment c
  · obtain ⟨c, rfl⟩ := hcomment
    cases h with
    | comment =>
      constructor
      · intro hat c _
        exact (Nat.succ.inj hat.eq_indent).symm
      · intro hindent
        have hstart := Text.firstAt_indent ht
        rwa [hindent _ rfl] at hstart
  · have hne : ∀ c, node ≠ .comment c := fun c hc => hcomment ⟨c, hc⟩
    exact iff_of_true (h.at_of_ne hraw ht hne) fun c hc => absurd hc (hne c)

theorem Node.Stands.kind_ne_blank (h : node.Stands (l :: body)) : l.kind ≠ .blank := by
  cases h <;> simp_all

/-- A line of a text, as it is written there with its line end. -/
theorem exists_getElem?_lines {d : Dialect} {header : Option ℕ} {source : Text} {i : ℕ}
    (h : (linesIn d header source)[i]? = some l) :
    ∃ t, source.lines[i]? = some t ∧ l.raw = Text.dropReturn t ∧
      (l.kind ≠ .blank → t.trim ≠ []) := by
  rw [linesIn, List.getElem?_map] at h
  obtain ⟨m, hm, rfl⟩ := Option.map_eq_some_iff.1 h
  rw [Vocabulary.classify, List.getElem?_mapIdx] at hm
  obtain ⟨t, ht, rfl⟩ := Option.map_eq_some_iff.1 hm
  refine ⟨t, ht, raw_demote _ _, fun hkind htrim => hkind ?_⟩
  rw [← Text.trim_dropReturn] at htrim
  rw [demote_of_ne] <;> simp [Vocabulary.kindOf_eq_blank_iff.2 htrim]

/-- Every node of a document that is read has the line and the column of its first significant
character in the text, except that an indented comment has another column. -/
theorem at_of_parse {code source : Text} {doc : Document} (h : parse code source = .ok doc) :
    ∃ fallback d header, Dialect.get? code = some fallback ∧ ReadIn fallback source d header ∧
      ∀ node ∈ doc.nodes, ∃ i t l body, source.lines[i]? = some t ∧ node.location.line = i + 1 ∧
        l :: body <+: (linesIn d header source).drop i ∧ node.Stands (l :: body) ∧
        (node.At t ↔ ∀ c, node = .comment c → t.indent = 0) := by
  obtain ⟨fallback, language, d, header, hcode, hread, -, hreading⟩ := reading_of_parse h
  refine ⟨fallback, d, header, hcode, hread, fun node hnode => ?_⟩
  obtain ⟨block, hblock, hstands⟩ := standing_document hreading node hnode
  obtain ⟨l, body, rfl, hline⟩ := hstands.exists_cons
  obtain ⟨i, hget, hdrop⟩ := exists_drop_of_isInfix hblock
  obtain ⟨t, ht, hraw, htrim⟩ := exists_getElem?_lines hget
  refine ⟨i, t, l, body, ht, ?_, hdrop, hstands, hstands.at_iff hraw (htrim hstands.kind_ne_blank)⟩
  rw [hline, number_of_linesIn hget]

theorem exists_parse_of_map {α : Type} {code source : Text} {f : Document → α} {a : α}
    (h : (parse code source).toOption.map f = some a) :
    ∃ doc, parse code source = .ok doc ∧ f doc = a := by
  cases hparse : parse code source with
  | error e =>
    rw [hparse] at h
    cases h
  | ok doc =>
    rw [hparse] at h
    exact ⟨doc, rfl, Option.some.inj h⟩

/-- Tags glued together behind an ideographic space, and cells after an escaped pipe, one of which is
blank. -/
theorem at_of_parse_cells :
    let source : Text := "# a\n\u3000@b@c\nFeature: d\nScenario: e\n* f\n  | \\| g |  |".toList
    ∃ doc, parse Dialect.defaultCode source = .ok doc ∧
      doc.nodes.map Node.location = [⟨2, 2⟩, ⟨2, 4⟩, ⟨3, 1⟩, ⟨4, 1⟩, ⟨5, 1⟩, ⟨6, 3⟩, ⟨6, 3⟩, ⟨6, 5⟩,
        ⟨6, 13⟩, ⟨1, 1⟩] ∧
      ∃ fallback d header, Dialect.get? Dialect.defaultCode = some fallback ∧
        ReadIn fallback source d header ∧
        ∀ node ∈ doc.nodes, ∃ i t l body, source.lines[i]? = some t ∧ node.location.line = i + 1 ∧
          l :: body <+: (linesIn d header source).drop i ∧ node.Stands (l :: body) ∧
          (node.At t ↔ ∀ c, node = .comment c → t.indent = 0) := by
  intro source
  obtain ⟨doc, hparse, hlocations⟩ : ∃ doc, parse Dialect.defaultCode source = .ok doc ∧
      doc.nodes.map Node.location = [⟨2, 2⟩, ⟨2, 4⟩, ⟨3, 1⟩, ⟨4, 1⟩, ⟨5, 1⟩, ⟨6, 3⟩, ⟨6, 3⟩, ⟨6, 5⟩,
        ⟨6, 13⟩, ⟨1, 1⟩] :=
    exists_parse_of_map (by decide +kernel)
  exact ⟨doc, hparse, hlocations, at_of_parse hparse⟩

/-- An indented comment has another column than its first character. -/
theorem not_at_comment :
    let source : Text := "  # a".toList
    source.lines = [source] ∧ ∃ doc, parse Dialect.defaultCode source = .ok doc ∧
      ∃ node ∈ doc.nodes, node.location.line = 1 ∧ ¬node.At source := by
  intro source
  obtain ⟨doc, hparse, hcomments⟩ : ∃ doc, parse Dialect.defaultCode source = .ok doc ∧
      doc.comments = [⟨⟨1, 1⟩, "# a".toList⟩] :=
    exists_parse_of_map (by decide +kernel)
  have hmem : Node.comment ⟨⟨1, 1⟩, "# a".toList⟩ ∈ doc.nodes := by
    simp [Document.nodes, hcomments]
  refine ⟨by decide +kernel, doc, hparse, _, hmem, rfl, fun hat => ?_⟩
  have hindent : source.indent = 2 := by decide +kernel
  have hcolumn : 1 = source.indent + 1 := hat.eq_indent
  omega

end Document

end Gherkin
