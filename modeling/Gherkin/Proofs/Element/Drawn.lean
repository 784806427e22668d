import Gherkin.Proofs.Element.Alone
import Gherkin.Proofs.Element.Inside

/-! The lines that the node of a text is drawn from: the background of a document and its first test
each have lines of their own. -/

open Gherkin.Document

namespace Gherkin

namespace Document

variable {ls : List Line} {cs : List Comment} {language : Text} {doc : Document} {node : Data}

/-- The feature of a document has its blocks after the lines of its header. -/
theorem exists_of_present (h : Reading language ls doc)
    (hnode : (Normal.document doc.toData).present? "feature" = some node) :
    ∃ (f : Feature) (before after : List Line) (cs : List Comment),
      node = f.normal doc.comments ∧ ls = before ++ after ∧
        Reading.Children after f.children cs := by
  rw [present?_feature] at hnode
  cases h with
  | empty => cases hnode
  | feature h =>
    obtain rfl := Option.some.inj hnode
    cases h with
    | mk ht hh h => exact ⟨_, _, _, _, rfl, (List.append_assoc ..).symm, h⟩

theorem exists_of_head? {tests : List Child} (h : Reading.Many Reading.Test ls tests cs)
    (hnode : (tests.map Child.node).head? = some node) :
    ∃ c seg after ccs, node = c.node ∧ ls = seg ++ after ∧ Reading.Test seg c ccs := by
  cases h with
  | nil => cases hnode
  | cons hc h => exact ⟨_, _, _, _, (Option.some.inj hnode).symm, rfl, hc⟩

theorem exists_of_firstTest (h : Reading language ls doc)
    (hnode : Snippet.firstTest? (Normal.document doc.toData) = some node) :
    ∃ c before seg after ccs, node = c.node ∧ ls = before ++ (seg ++ after) ∧
      Reading.Test seg c ccs := by
  obtain ⟨feature, hfeature, hnode⟩ := Option.bind_eq_some_iff.1 hnode
  obtain ⟨f, before, blocks, cs, rfl, rfl, hblocks⟩ := exists_of_present h hfeature
  obtain ⟨-, htests, h⟩ | ⟨as, b, bs, bcs, tests, tcs, rfl, -, -, htests, -, h⟩ :=
    blocks_cases doc.comments hblocks
  · rw [htests] at hnode
    obtain ⟨c, seg, after, ccs, rfl, rfl, hc⟩ := exists_of_head? h hnode
    exact ⟨c, before, seg, after, ccs, rfl, rfl, hc⟩
  · rw [htests] at hnode
    obtain ⟨c, seg, after, ccs, rfl, rfl, hc⟩ := exists_of_head? h hnode
    exact ⟨c, before ++ as, seg, after, ccs, rfl, (List.append_assoc ..).symm, hc⟩

theorem exists_of_scenario (h : Reading language ls doc)
    (hnode : Snippet.scenario.extract? (Normal.document doc.toData) = some node) :
    ∃ s before seg after cs, node = (Child.scenario s).node ∧ ls = before ++ (seg ++ after) ∧
      Reading.Test seg (.scenario s) cs := by
  obtain ⟨hfirst, htype⟩ := Option.filter_eq_some_iff.1 hnode
  obtain ⟨c, before, seg, after, cs, rfl, rfl, hc⟩ := exists_of_firstTest h hfirst
  cases c with
  | background => cases hc
  | scenario s => exact ⟨s, before, seg, after, cs, rfl, rfl, hc⟩
  | outline o =>
    have hother : (Child.outline o).node.hasType "Scenario" = false :=
      (hasType_heading _ _ _ _).trans (by decide)
    exact absurd htype (by simp [hother])

theorem exists_of_outline (h : Reading language ls doc)
    (hnode : Snippet.outline.extract? (Normal.document doc.toData) = some node) :
    ∃ o before seg after cs, node = (Child.outline o).node ∧ ls = before ++ (seg ++ after) ∧
      Reading.Test seg (.outline o) cs := by
  obtain ⟨hfirst, htype⟩ := Option.filter_eq_some_iff.1 hnode
  obtain ⟨c, before, seg, after, cs, rfl, rfl, hc⟩ := exists_of_firstTest h hfirst
  cases c with
  | background => cases hc
  | scenario s => exact absurd htype (by simp [Child.node, hasType_scenario])
  | outline o => exact ⟨o, before, seg, after, cs, rfl, rfl, hc⟩

theorem exists_of_background (h : Reading language ls doc)
    (hnode : Snippet.background.extract? (Normal.document doc.toData) = some node) :
    ∃ b before seg after cs, node = (Child.background b).node ∧ ls = before ++ (seg ++ after) ∧
      Reading.Background seg b cs := by
  obtain ⟨feature, hfeature, hnode⟩ := Option.bind_eq_some_iff.1 hnode
  obtain ⟨f, before, blocks, cs, rfl, rfl, hblocks⟩ := exists_of_present h hfeature
  rw [field?_background] at hnode
  obtain ⟨-, -, h⟩ | ⟨as, b, bs, bcs, tests, tcs, rfl, hchildren, -, -, hb, h⟩ :=
    blocks_cases doc.comments hblocks
  · rw [(image_of_tests h).1] at hnode
    cases hnode
  · rw [hchildren, List.reverse_cons, List.findSome?_append, (image_of_tests h).1] at hnode
    exact ⟨b, before, as, bs, bcs, (Option.some.inj hnode).symm, rfl, hb⟩

end Document

/-- What is read from a text that holds a single node is read from a node of the document around the
text. -/
theorem Snippet.exists_of_readWith {α : Type} {k : Snippet} {ofData : Excerpt → Data → α}
    {absent x : α} {code source : Text} (hk : k ≠ feature)
    (h : k.readWith ofData absent code source = .ok x) :
    ∃ d doc node, Dialect.get? code = some d ∧
      Reading code (linesIn d (some 1) (k.wrap code d source)) doc ∧
      k.extract? (Normal.document doc.toData) = some node ∧
      x = ofData (.whole source) (node.lowerLines (k.opening code d).length) := by
  unfold readWith at h
  cases hcode : Dialect.get? code with
  | none =>
    rw [read, hcode] at h
    cases h
  | some d =>
    cases hread : k.read code source with
    | error failure =>
      rw [hread] at h
      cases h
    | ok r =>
      obtain ⟨doc, node, hparse, hnode, rfl⟩ := read_eq_ok hcode hk hread
      rw [hread] at h
      rw [parse_wrap hcode hk] at hparse
      exact ⟨d, doc, node, rfl, reading_of_document hparse, hnode, (Except.ok.inj h).symm⟩

/-- An element that is read is made of what the reader of its kind gives. -/
theorem exists_ok_of_map {α : Type} {read : Except ParseError α} {make : α → Element} {e : Element}
    (h : some (read.map make) = some (.ok e)) : ∃ x, read = .ok x ∧ e = make x := by
  cases read with
  | error => cases h
  | ok x => exact ⟨x, rfl, (Except.ok.inj (Option.some.inj h)).symm⟩

end Gherkin
