import Gherkin.Proofs.Element.Span
import Gherkin.Proofs.Element.OfDocument
import Gherkin.Proofs.Line.Tags

/-! The first line of a node, which is where its excerpt is cut: that of its earliest tag, or its own.
In the lines of a text this is the first line of the node's core. -/

open Gherkin.Document.Parser

namespace Gherkin.Document

/-! ### Lines in the normal form -/

theorem line?_heading {raw : Data} {l : Location} (h : raw.field "location" = l.toData)
    (type : String) (rest : List (String × Data)) :
    (Data.record (Normal.heading type raw ++ rest)).line? = some l.line := by
  simp [Data.line?, Normal.heading, Normal.copy, List.lookup_cons, h, Location.toData]

theorem line?_tag (t : LocatedTag) : (Normal.tag t.toData).line? = some t.location.line := by
  simp [Data.line?, Normal.tag, Normal.copy, List.lookup_cons, LocatedTag.toData, Data.field,
    Location.toData]

theorem line?_comment (c : Comment) : (Normal.comment c.toData).line? = some c.location.line := by
  simp [Data.line?, Normal.comment, Normal.copy, List.lookup_cons, Comment.toData, Data.field,
    Location.toData]

theorem line?_step (s : Step) : (Normal.step s.toData).line? = some s.location.line := by
  simp [Data.line?, Normal.step, Normal.copy, List.lookup_cons, Step.toData, Data.field,
    Location.toData]

theorem line?_background (b : Background) :
    (Normal.background (Child.background b).toData).line? = some b.location.line :=
  line?_heading (by simp [Child.toData, Heading.fields, Data.field, List.lookup_cons]) _ _

theorem line?_scenario (s : Scenario) :
    (Normal.scenario (Child.scenario s).toData).line? = some s.location.line :=
  line?_heading (by simp [Child.toData, Heading.fields, Data.field, List.lookup_cons]) _ _

theorem line?_outline (o : Outline) :
    (Normal.outline (Child.outline o).toData).line? = some o.location.line :=
  line?_heading (by simp [Child.toData, Heading.fields, Data.field, List.lookup_cons]) _ _

theorem line?_examples (e : Examples) :
    (Normal.examples e.toData).line? = some e.location.line :=
  line?_heading (by simp [Examples.toData, Heading.fields, Data.field]) _ _

/-- The first line of a node with these tags and this header. -/
def firstLine (tags : List LocatedTag) (h : Heading) : ℕ :=
  (tags.map (·.location.line)).foldr min h.location.line

theorem startLine_eq {d : Data} {tags : List LocatedTag} {h : Heading}
    (htags : d.itemsAt "tags" = tags.map fun t => Normal.tag t.toData)
    (hline : d.line? = some h.location.line) : d.startLine = firstLine tags h := by
  have hlines : (tags.map fun t => Normal.tag t.toData).filterMap Data.line? =
      tags.map (·.location.line) := by
    rw [List.filterMap_map, ← List.filterMap_eq_map]
    exact List.filterMap_congr fun t _ => line?_tag t
  rw [Data.startLine, htags, hlines, hline, Option.getD_some, firstLine]

theorem startLine_step (s : Step) : (Normal.step s.toData).startLine = s.location.line := by
  have htags : (Normal.step s.toData).itemsAt "tags" = [] := by
    cases h : s.toData.present? "argument" <;>
      simp [Normal.step, Normal.copy, Data.itemsAt, Data.field, List.lookup_cons, h, optionalField,
        Data.items]
  rw [Data.startLine, htags, line?_step]
  rfl

theorem startLine_background (b : Background) :
    (Normal.background (Child.background b).toData).startLine = firstLine [] b.toHeading := by
  refine startLine_eq ?_ (line?_background b)
  simp [Normal.background, Data.itemsAt, Data.field, lookup_heading, headingKeys, List.lookup_cons,
    Data.items]

theorem startLine_scenario (s : Scenario) :
    (Normal.scenario (Child.scenario s).toData).startLine = firstLine s.tags s.toHeading :=
  startLine_eq (itemsAt_tags_scenario s) (line?_scenario s)

theorem startLine_outline (o : Outline) :
    (Normal.outline (Child.outline o).toData).startLine = firstLine o.tags o.toHeading :=
  startLine_eq (itemsAt_tags_outline o) (line?_outline o)

theorem startLine_examples (e : Examples) :
    (Normal.examples e.toData).startLine = firstLine e.tags e.toHeading :=
  startLine_eq (itemsAt_tags_examples e) (line?_examples e)

/-! ### Lines of a text -/

/-- Lines with growing numbers, of which those that count as tags start with an at sign. -/
structure Ordered (ls : List Line) : Prop where
  sorted : ls.Pairwise (·.number < ·.number)
  sign : ∀ l ∈ ls, l.kind = .tags → ∃ cs, l.text = '@' :: cs

variable {as bs ls hs rest : List Line} {cs ds : List Comment}

theorem Ordered.of_sublist (h : Ordered ls) (hsub : as.Sublist ls) : Ordered as :=
  ⟨h.sorted.sublist hsub, fun l hl => h.sign l (hsub.subset hl)⟩

theorem ordered_linesIn (d : Dialect) (header : Option ℕ) (source : Text) :
    Ordered (linesIn d header source) where
  sorted := pairwise_linesIn d header source
  sign l hl hk := by
    obtain ⟨m, hm, rfl⟩ := List.mem_map.1 hl
    have hkind : m.kind = .tags := by
      unfold demote at hk
      split at hk
      · split at hk <;> simp_all
      · exact hk
    rw [Vocabulary.classify_eq] at hm
    have hfits := d.vocabulary.fits_kindOf m.raw
    rw [← (Vocabulary.mem_linesAt hm d.vocabulary).1, hkind] at hfits
    rw [Line.text, raw_demote]
    exact hfits

theorem le_foldr_min {k m : ℕ} {ns : List ℕ} (hm : k ≤ m) (hns : ∀ n ∈ ns, k ≤ n) :
    k ≤ ns.foldr min m := by
  induction ns with
  | nil => exact hm
  | cons n ns ih =>
    obtain ⟨hn, hns⟩ := List.forall_mem_cons.1 hns
    exact le_min hn (ih hns)

theorem foldr_min_eq {k m : ℕ} {ns : List ℕ} (hm : k ≤ m) (hns : ∀ n ∈ ns, k ≤ n)
    (h : k ∈ ns ∨ k = m) : ns.foldr min m = k := by
  induction ns with
  | nil => simpa [eq_comm] using h
  | cons n ns ih =>
    obtain ⟨hn, hns⟩ := List.forall_mem_cons.1 hns
    have hrest := le_foldr_min hm hns
    rw [List.foldr_cons]
    rcases h with h | h
    · rcases List.mem_cons.1 h with rfl | h
      · exact min_eq_left hrest
      · rw [ih hns (.inl h)]
        exact min_eq_right hn
    · rw [ih hns (.inr h)]
      exact min_eq_right hn

/-- Tags stand on tag lines. -/
theorem exists_line_of_tags {found} (h : Reading.Tags ls found cs) :
    ∀ t ∈ found, ∃ l ∈ ls, t.location.line = l.number := by
  induction h with
  | nil => simp
  | @cons ts l ls found more cs _ _ hf _ ih =>
    refine List.forall_mem_append.2 ⟨fun t ht => ?_, fun t ht => ?_⟩
    · exact ⟨l, by simp, LocatedTag.line_of_splitFrom hf t ht⟩
    · obtain ⟨m, hm, hline⟩ := ih t ht
      exact ⟨m, by simp [hm], hline⟩

/-- Tags and a header begin on the first line of theirs. -/
theorem begins_headed {found} {block : Block} {head} (ht : Reading.Tags ls found cs)
    (hh : Reading.Headed block hs head ds) (hstarts : Starts (ls ++ (hs ++ rest)))
    (hordered : Ordered (ls ++ (hs ++ rest))) :
    Begins (firstLine found head) (ls ++ (hs ++ rest)) := by
  obtain ⟨us, m, body, hbody, hhead, hm⟩ : ∃ us m body, hs = us ++ m :: body ∧
      head.location.line = m.number ∧ Trivia us := by
    cases hh with
    | mk hu hl hb => exact ⟨_, _, _, rfl, rfl, hu⟩
  subst hbody
  cases ht with
  | nil ht =>
    rw [List.append_assoc, ← List.append_assoc] at hstarts
    have hnil := hstarts.eq_nil (ht.append hm)
    rw [List.append_eq_nil_iff] at hnil
    rw [hnil.1, hnil.2]
    exact congrArg some hhead.symm
  | @cons ts l ls found more cs ht hl hf hmore =>
    rw [List.append_assoc, List.cons_append] at hstarts hordered ⊢
    obtain rfl := hstarts.eq_nil ht
    rw [List.nil_append] at hordered ⊢
    obtain ⟨hfirst, -⟩ := List.pairwise_cons.1 hordered.sorted
    obtain ⟨cs, hsign⟩ := hordered.sign l List.mem_cons_self hl
    rw [hsign] at hf
    obtain ⟨t, found, rfl⟩ := List.exists_cons_of_ne_nil (LocatedTag.ne_nil_of_splitFrom hf)
    have hlines := LocatedTag.line_of_splitFrom hf
    refine congrArg some (Eq.symm (foldr_min_eq ?_ ?_ (.inl ?_)))
    · rw [hhead]
      exact (hfirst m (by simp)).le
    · rw [List.map_append]
      refine List.forall_mem_append.2 ⟨?_, ?_⟩
      · intro n hn
        obtain ⟨t, ht, rfl⟩ := List.mem_map.1 hn
        exact (hlines t ht).ge
      · intro n hn
        obtain ⟨t, ht, rfl⟩ := List.mem_map.1 hn
        obtain ⟨x, hx, hline⟩ := exists_line_of_tags hmore t ht
        rw [hline]
        exact (hfirst x (by simp [hx])).le
    · refine List.mem_map.2 ⟨t, by simp, hlines t List.mem_cons_self⟩

/-! ### Nodes -/

/-- The node of a block in normal form. -/
def Child.node : Child → Data
  | background b => Normal.background (Child.background b).toData
  | scenario s => Normal.scenario (Child.scenario s).toData
  | outline o => Normal.outline (Child.outline o).toData

/-- A core of the node begins on the first line of the node. -/
def BeginsAt {α : Type} (R : List Line → α → List Comment → Prop) (node : α → Data) : Prop :=
  ∀ {a core}, HasCore R a core → Ordered core → Begins (node a).startLine core

theorem begins_step : BeginsAt Reading.Step fun s => Normal.step s.toData := by
  rintro s core ⟨⟨-, hstarts, -⟩, cs, h⟩ -
  rw [startLine_step]
  cases h with
  | mk ht hl h =>
    obtain rfl := hstarts.eq_nil ht
    rfl

theorem begins_background {b : Background} {core : List Line}
    (h : HasCore Reading.Background b core) (hordered : Ordered core) :
    Begins (Child.background b).node.startLine core := by
  obtain ⟨⟨-, hstarts, -⟩, cs, h⟩ := h
  rw [Child.node, startLine_background]
  cases h with
  | mk hh h => exact begins_headed (.nil .nil) hh hstarts hordered

theorem begins_examples : BeginsAt Reading.Examples fun e => Normal.examples e.toData := by
  rintro e core ⟨⟨-, hstarts, -⟩, cs, h⟩ hordered
  rw [startLine_examples]
  cases h with
  | mk ht hh hr => exact begins_headed ht hh hstarts hordered

theorem begins_block : BeginsAt Reading.Block Child.node := by
  rintro c core ⟨hcore, cs, h⟩ hordered
  cases h with
  | background h => exact begins_background ⟨hcore, cs, h⟩ hordered
  | test h =>
    cases h with
    | scenario ht hh h =>
      rw [Child.node, startLine_scenario]
      exact begins_headed ht hh hcore.starts hordered
    | outline ht hh h he =>
      rw [Child.node, startLine_outline]
      exact begins_headed ht hh hcore.starts hordered

end Gherkin.Document
