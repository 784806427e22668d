import Gherkin.Proofs.Document.Node
import Gherkin.Proofs.Element.Trace

/-! The parts of a node's data. Every part that has a location shows one node of the document, and
what it shows can be told from the lines that the node stands on, however the lines are counted. -/

open Gherkin.Document Gherkin.Document.Parser

namespace Gherkin

namespace Data

/-! ### Parts -/

/-- The value is inside another one, or is it. Locations are not entered. -/
inductive Part (p : Data) : Data → Prop
  | self : Part p p
  | field {fields : List (String × Data)} {key value} (hmem : (key, value) ∈ fields)
    (hkey : key ≠ "location") (h : Part p value) : Part p (record fields)
  | item {items : List Data} {d} (hmem : d ∈ items) (h : Part p d) : Part p (list items)

/-- Every part that has a location has a property. -/
def Each (P : Data → Prop) (d : Data) : Prop := ∀ p, Part p d → (p.field? "location").isSome → P p

variable {P Q : Data → Prop}

theorem each_text (t : Text) : Each P (text t) := by
  intro p hp hlocation
  cases hp
  cases hlocation

theorem each_list {items : List Data} (h : ∀ d ∈ items, Each P d) : Each P (list items) := by
  intro p hp hlocation
  cases hp with
  | self => cases hlocation
  | item hmem hp => exact h _ hmem p hp hlocation

theorem each_record {fields : List (String × Data)} (h : P (record fields))
    (hs : ∀ f ∈ fields, f.1 ≠ "location" → Each P f.2) : Each P (record fields) := by
  intro p hp hlocation
  cases hp with
  | self => exact h
  | field hmem hkey hp => exact hs _ hmem hkey p hp hlocation

/-! ### Lowered parts -/

variable {n : ℕ}

theorem lowerFields_eq_map (fields : List (String × Data)) :
    lowerFields n fields = fields.map fun f =>
      (f.1, if f.1 = "location" then lowerLine n f.2 else f.2.lowerLines n) := by
  induction fields with
  | nil => rfl
  | cons f fields ih => rw [lowerFields, ih, List.map_cons]

/-- The parts of lowered data are its parts, lowered. -/
theorem Part.exists_of_lowerLines {p d : Data} (h : Part p (d.lowerLines n)) :
    ∃ q, Part q d ∧ p = q.lowerLines n := by
  generalize hd : d.lowerLines n = e at h
  induction h generalizing d with
  | self => exact ⟨d, .self, hd.symm⟩
  | @field fields key value hmem hkey h ih =>
    cases d with
    | record raw =>
      obtain rfl := Data.record.inj hd
      rw [lowerFields_eq_map] at hmem
      obtain ⟨⟨name, v⟩, hv, heq⟩ := List.mem_map.1 hmem
      obtain ⟨rfl, rfl⟩ := Prod.mk.inj heq
      obtain ⟨q, hq, rfl⟩ := ih (if_neg hkey).symm
      exact ⟨q, .field hv hkey hq, rfl⟩
    | _ => cases hd
  | @item items d' hmem h ih =>
    cases d with
    | list raw =>
      obtain rfl := Data.list.inj hd
      rw [lowerItems_eq_map] at hmem
      obtain ⟨v, hv, rfl⟩ := List.mem_map.1 hmem
      obtain ⟨q, hq, rfl⟩ := ih rfl
      exact ⟨q, .item hv hq, rfl⟩
    | _ => cases hd

theorem Each.lowerLines {d : Data} (h : Each P d) (hP : ∀ p, P p → Q (p.lowerLines n)) :
    Each Q (d.lowerLines n) := by
  intro p hp hlocation
  obtain ⟨q, hq, rfl⟩ := hp.exists_of_lowerLines
  rw [field?_location_lowerLines, Option.isSome_map] at hlocation
  exact hP q (h q hq hlocation)

end Data

/-! ### What a part shows -/

/-- The name of a block's type in data. -/
def Block.typeName : Block → String
  | feature => "Feature"
  | background => "Background"
  | scenario => "Scenario"
  | outline => "ScenarioOutline"
  | examples => "Examples"

/-- What lines that a node stands on say about its data. -/
inductive Data.Shows : List Line → Data → Prop
  | header {l body block keyword name p} (hl : l.kind = .header block keyword name)
    (hb : ∀ x ∈ body, endsDescription block x.kind = false)
    (htype : p.hasType block.typeName) (hkeyword : p.textAt "keyword" = keyword)
    (hname : p.textAt "name" = name)
    (hdescription : (p.field? "description").bind Data.text? =
      (descriptionText (body.dropWhile (·.kind = .blank))).filter fun t => t.trim ≠ []) :
    Shows (l :: body) p
  | step {l keyword text p} (hl : l.kind = .step keyword text) (htype : p.hasType "Step")
    (hkeyword : p.textAt "keyword" = keyword.trim) (htext : p.textAt "text" = text) : Shows [l] p
  | table {l p} (hl : l.kind = .row) (htype : p.hasType "DataTable") : Shows [l] p
  | row {l p} (hl : l.kind = .row) (htype : p.type? = none)
    (hcells : (p.itemsAt "cells").map Data.text? =
      (Cell.split l.text l.location).map fun c => some c.value) : Shows [l] p
  | docString {l body fence contentType p} (hl : l.kind = .fence fence contentType)
    (hb : ∀ x ∈ body, isFence fence x.kind = false) (htype : p.hasType "DocString")
    (hcontentType : p.textAt "content_type" = contentType)
    (hcontent : p.textAt "content" = Text.unlines (body.map (contentLine l.indent fence))) :
    Shows (l :: body) p
  | tag {l found t p} (hl : l.kind = .tags) (hf : LocatedTag.split l.text l.location = .ok found)
    (ht : t ∈ found) (htype : p.hasType "Tag") (hname : p.textAt "name" = t.name) : Shows [l] p
  | comment {l p} (hl : l.kind = .comment) (htype : p.hasType "Comment")
    (htext : p.textAt "text" = l.text) : Shows [l] p

theorem Data.Shows.lowerLines {ls : List Line} {p : Data} (h : Shows ls p) (n : ℕ) :
    Shows ls (p.lowerLines n) := by
  have htype {q : Data} {type : String} (h : q.hasType type) : (q.lowerLines n).hasType type := by
    rwa [hasType_lowerLines]
  have htext (key : String) (hkey : key ≠ "location") :
      (p.lowerLines n).textAt key = p.textAt key := textAt_lowerLines n hkey p
  cases h with
  | header hl hb ht hkeyword hname hdescription =>
    exact .header hl hb (htype ht) ((htext _ (by decide)).trans hkeyword)
      ((htext _ (by decide)).trans hname)
      ((bind_text?_lowerLines n (by decide) p).trans hdescription)
  | step hl ht hkeyword hname =>
    exact .step hl (htype ht) ((htext _ (by decide)).trans hkeyword)
      ((htext _ (by decide)).trans hname)
  | table hl ht => exact .table hl (htype ht)
  | row hl ht hcells =>
    refine .row hl ((bind_text?_lowerLines n (by decide) p).trans ht) ?_
    rw [itemsAt_lowerLines n (by decide), List.map_map, ← hcells]
    exact List.map_congr_left fun c _ => text?_lowerLines n c
  | docString hl hb ht hcontentType hcontent =>
    exact .docString hl hb (htype ht) ((htext _ (by decide)).trans hcontentType)
      ((htext _ (by decide)).trans hcontent)
  | tag hl hf hmem ht hname =>
    exact .tag hl hf hmem (htype ht) ((htext _ (by decide)).trans hname)
  | comment hl ht hname => exact .comment hl (htype ht) ((htext _ (by decide)).trans hname)

/-! ### Nodes in normal form -/

namespace Document

variable {ls : List Line}

theorem shows_tag {t : LocatedTag} (h : Node.Stands ls (.tag t)) :
    (Normal.tag t.toData).Shows ls := by
  cases h with
  | tag hl hf ht =>
    refine .tag hl hf ht ?_ ?_ <;>
      simp [Normal.tag, Normal.copy, LocatedTag.toData, Data.hasType, Data.type?, Data.word,
        Data.textAt, Data.field, Data.text?, List.lookup_cons]

theorem shows_comment {c : Comment} (h : Node.Stands ls (.comment c)) :
    (Normal.comment c.toData).Shows ls := by
  cases h with
  | comment hl =>
    refine .comment hl ?_ ?_ <;>
      simp [Normal.comment, Normal.copy, Comment.toData, commentOf, Data.hasType, Data.type?,
        Data.word, Data.textAt, Data.field, Data.text?, List.lookup_cons]

theorem shows_row {r : Row} (h : Node.Stands ls (.row r)) : (Normal.row r.toData).Shows ls := by
  cases h with
  | row hl =>
    refine .row hl ?_ ?_
    · simp [Normal.row, Normal.copy, Data.type?, List.lookup_cons]
    · simp [Normal.row, Normal.each, Normal.copy, Row.toData, Data.itemsAt, Data.field, Data.items,
        Cell.toData, Data.text?, List.lookup_cons]

theorem shows_step {e : Step} (h : Node.Stands ls (.step e)) : (Normal.step e.toData).Shows ls := by
  cases h with
  | step hl =>
    refine .step hl ?_ ?_ ?_ <;>
      simp [Normal.step, Normal.copy, Step.toData, Data.hasType, Data.type?, Data.word, Data.textAt,
        Data.field, Data.text?, List.lookup_cons]

theorem shows_table {location : Location} {rows : List Row}
    (h : Node.Stands ls (.table location rows)) :
    (Normal.block (Argument.table location rows).toData).Shows ls := by
  cases h with
  | table hl =>
    refine .table hl ?_
    simp [Normal.block, Argument.toData, Data.hasType, Data.type?, Data.word, Data.text?]

theorem shows_docString {location : Location} {contentType : Option Text} {content : Text}
    {fence : Fence} (h : Node.Stands ls (.docString location contentType content fence)) :
    (Normal.block (Argument.docString location contentType content fence).toData).Shows ls := by
  cases h with
  | @docString l body fence contentType hl hb =>
    refine .docString hl hb ?_ ?_ ?_ <;> by_cases ht : contentType = [] <;>
      simp [ht, Normal.block, Argument.toData, Data.hasType, Data.type?, Data.word, Data.text?,
        optionalField, Normal.copy, Data.textAt, Data.field, Data.present?, Data.isNull,
        List.lookup_cons, Option.filter]

/-- A block with the fields of its heading shows its header and its description. -/
theorem shows_heading {block : Block} {h : Heading} {raw : Data} (hs : Node.Stands ls (.header block h))
    (hr : Heads h raw) {rest : List (String × Data)} (hrest : rest.lookup "description" = none) :
    (Data.record (Normal.heading block.typeName raw ++ rest)).Shows ls := by
  obtain ⟨hkeyword, hname, hdescription⟩ := hr
  cases hs with
  | header hl hb =>
    refine .header hl hb ?_ ?_ ?_ ?_
    · rw [hasType_heading]
      exact beq_self_eq_true _
    · simp [Data.textAt, Normal.heading, Normal.copy, List.lookup_cons, hkeyword, Data.text?]
    · simp [Data.textAt, Normal.heading, Normal.copy, List.lookup_cons, hname, Data.text?]
    · rw [← show _ = descriptionText _ from hdescription]
      cases ht : (raw.field? "description").bind Data.text? with
      | none => simp [Normal.heading, Normal.copy, Normal.descriptionField, ht, List.lookup_cons, hrest]
      | some t =>
        by_cases hblank : t.trim = [] <;>
          simp [Normal.heading, Normal.copy, Normal.descriptionField, ht, List.lookup_cons, hrest,
            hblank, Option.filter, Data.text?]

/-! ### Parts in normal form -/

/-- The data has a line of its own among some lines, of a certain kind of kinds, and shows what this
line and the ones after it say. -/
def Shown (K : LineKind → Bool) (ls : List Line) (p : Data) : Prop :=
  ∃ l body, l :: body <:+: ls ∧ K l.kind ∧ p.line? = some l.number ∧ p.Shows (l :: body)

variable {K : LineKind → Bool} {P : Data → Prop}

/-- The data of a node is shown where the node stands. -/
theorem Standing.shown {nodes : List Node} (h : Standing ls nodes) {node : Node} (hmem : node ∈ nodes)
    (hK : ∀ l body, node.Stands (l :: body) → K l.kind) {p : Data}
    (hline : p.line? = some node.location.line) (hshows : ∀ block, node.Stands block → p.Shows block) :
    Shown K ls p := by
  obtain ⟨block, hblock, hs⟩ := h node hmem
  obtain ⟨l, body, rfl, hnumber⟩ := hs.exists_cons
  exact ⟨l, body, hblock, hK l body hs, hline.trans (congrArg some hnumber), hshows _ hs⟩

theorem each_tags {tags : List LocatedTag} (h : Standing ls (tags.map .tag)) (hK : K .tags) :
    ∀ t ∈ tags, Data.Each (Shown K ls) (Normal.tag t.toData) := by
  intro t ht
  refine Data.each_record (h.shown (List.mem_map_of_mem ht) (fun l body hs => ?_) (line?_tag t)
    fun _ => shows_tag) ?_
  · cases hs with
    | tag hl => exact hl ▸ hK
  · simp [Normal.copy, LocatedTag.toData, Data.field, Data.word, List.lookup_cons, Data.each_text]

theorem each_comment {c : Comment} (h : Standing ls [.comment c]) (hK : K .comment) :
    Data.Each (Shown K ls) (Normal.comment c.toData) := by
  refine Data.each_record (h.shown (List.mem_singleton_self _) (fun l body hs => ?_) (line?_comment c)
    fun _ => shows_comment) ?_
  · cases hs with
    | comment hl => exact hl ▸ hK
  · simp [Normal.copy, Comment.toData, Data.field, Data.word, List.lookup_cons, Data.each_text]

theorem each_rows {rows : List Row} (h : Standing ls (rows.flatMap Row.nodes)) (hK : K .row) :
    ∀ r ∈ rows, Data.Each (Shown K ls) (Normal.row r.toData) := by
  intro r hr
  have hmem : Node.row r ∈ rows.flatMap Row.nodes := List.mem_flatMap_of_mem hr List.mem_cons_self
  have hline : (Normal.row r.toData).line? = some r.location.line := by
    simp [Data.line?, Normal.row, Normal.copy, Row.toData, Data.field, Location.toData]
  refine Data.each_record (h.shown hmem (fun l body hs => ?_) hline fun _ => shows_row) ?_
  · cases hs with
    | row hl => exact hl ▸ hK
  · have hcells : ∀ c ∈ r.cells, Data.Each (Shown K ls) (c.toData.field "value") := fun c _ => by
      simp [Cell.toData, Data.field, List.lookup_cons, Data.each_text]
    have hlist := Data.each_list (List.forall_mem_map.2 hcells)
    simpa [Normal.copy, Normal.each, Row.toData, Data.field, Data.itemsAt, Data.items,
      List.lookup_cons, Function.comp_def] using hlist

theorem block_table (location : Location) (rows : List Row) :
    Normal.block (Argument.table location rows).toData =
      .record [("type", Data.word "DataTable"), ("location", location.toData),
        ("rows", .list (rows.map fun r => Normal.row r.toData))] := by
  simp [Normal.block, Argument.toData, Data.hasType, Data.type?, Data.word, Data.text?, Normal.copy,
    Normal.each, Data.itemsAt, Data.field, Data.items, List.lookup_cons]

theorem block_docString (location : Location) (contentType : Option Text) (content : Text)
    (fence : Fence) :
    Normal.block (Argument.docString location contentType content fence).toData =
      .record ([("type", Data.word "DocString"), ("location", location.toData),
        ("content", .text content)] ++ optionalField "content_type" .text contentType) := by
  cases contentType <;>
    simp [Normal.block, Argument.toData, Data.hasType, Data.type?, Data.word, Data.text?, Normal.copy,
      optionalField, Data.field, Data.present?, Data.isNull, List.lookup_cons, Option.filter]

section Steps

variable (hstep : ∀ keyword text, K (.step keyword text)) (hrow : K .row)
  (hfence : ∀ fence contentType, K (.fence fence contentType))

include hrow hfence

theorem each_block {a : Argument} (h : Standing ls a.nodes) :
    Data.Each (Shown K ls) (Normal.block a.toData) := by
  cases a with
  | table location rows =>
    have hline : (Normal.block (Argument.table location rows).toData).line? =
        some location.line := by
      rw [block_table]
      simp [Data.line?, Location.toData, List.lookup_cons]
    have hshown := h.shown List.mem_cons_self (K := K) (fun l body hs => by
      cases hs with
      | table hl => exact hl ▸ hrow) hline fun _ => shows_table
    have hrows := each_rows h.of_cons hrow
    rw [block_table] at hshown ⊢
    refine Data.each_record hshown ?_
    simp [Data.word, Data.each_text, Data.each_list (List.forall_mem_map.2 hrows)]
  | docString location contentType content fence =>
    have hline : (Normal.block (Argument.docString location contentType content fence).toData).line? =
        some location.line := by
      rw [block_docString]
      simp [Data.line?, Location.toData, List.lookup_cons]
    have hshown := h.shown List.mem_cons_self (K := K) (fun l body hs => by
      cases hs with
      | docString hl => exact hl ▸ hfence _ _) hline fun _ => shows_docString
    rw [block_docString] at hshown ⊢
    refine Data.each_record hshown ?_
    cases contentType <;> simp [Data.word, Data.each_text, optionalField]

include hstep

theorem each_step {e : Step} (h : Standing ls e.nodes) :
    Data.Each (Shown K ls) (Normal.step e.toData) := by
  refine Data.each_record (h.shown List.mem_cons_self (fun l body hs => ?_) (line?_step e)
    fun _ => shows_step) ?_
  · cases hs with
    | step hl => exact hl ▸ hstep _ _
  · obtain ⟨location, keyword, text, argument⟩ := e
    cases argument with
    | none =>
      simp [Normal.copy, Step.toData, Data.field, Data.word, Data.present?, optionalField,
        List.lookup_cons, Data.each_text]
    | some a =>
      have hnodes : Standing ls ([a].flatMap Argument.nodes) := h.of_cons
      rw [List.flatMap_singleton] at hnodes
      have hblock := each_block hrow hfence hnodes
      have hnull : a.toData.isNull = false := by cases a <;> rfl
      simp [Normal.copy, Step.toData, Data.field, Data.word, Data.present?, optionalField,
        List.lookup_cons, Data.each_text, Option.filter, hnull, hblock]

end Steps

/-- The attributes that every block with a header line has are no parts with a location. -/
theorem each_heading {h : Heading} {raw : Data} (hr : Heads h raw) (type : String) :
    ∀ f ∈ Normal.heading type raw, f.1 ≠ "location" → Data.Each P f.2 := by
  obtain ⟨hkeyword, hname, -⟩ := hr
  have hdescription : ∀ f ∈ Normal.descriptionField raw, Data.Each P f.2 := by
    unfold Normal.descriptionField
    split
    · split <;> simp [Data.each_text]
    · simp
  refine List.forall_mem_append.2 ⟨?_, fun f hf _ => hdescription f hf⟩
  simp [Normal.copy, hkeyword, hname, Data.word, Data.each_text]

/-- A block is shown by its header, and its other fields by what they hold. -/
theorem each_headed {nodes : List Node} (hs : Standing ls nodes) {block : Block} {h : Heading}
    (hmem : .header block h ∈ nodes) (hK : ∀ keyword name, K (.header block keyword name)) {raw : Data}
    (hr : Heads h raw) (hlocation : raw.field "location" = h.location.toData)
    {rest : List (String × Data)} (hrest : rest.lookup "description" = none)
    (hfields : ∀ f ∈ rest, Data.Each (Shown K ls) f.2) :
    Data.Each (Shown K ls) (.record (Normal.heading block.typeName raw ++ rest)) := by
  refine Data.each_record (hs.shown hmem (fun l body hl => ?_) (line?_heading hlocation _ _)
    fun _ hl => shows_heading hl hr hrest) ?_
  · cases hl with
    | header hl => exact hl ▸ hK _ _
  · exact List.forall_mem_append.2 ⟨each_heading hr _, fun f hf _ => hfields f hf⟩

/-! ### Blocks -/

theorem each_each {α : Type} {raw : Data} {key : String} {f : α → Data} {normal : Data → Data}
    {items : List α} (hitems : raw.itemsAt key = items.map f)
    (h : ∀ a ∈ items, Data.Each P (normal (f a))) : Data.Each P (Normal.each raw key normal) := by
  rw [Normal.each, hitems]
  exact Data.each_list (List.forall_mem_map.2 (List.forall_mem_map.2 h))

theorem each_examples {x : Examples} (h : Standing ls x.nodes) (htags : K .tags) (hrow : K .row)
    (hheader : ∀ keyword name, K (.header .examples keyword name)) :
    Data.Each (Shown K ls) (Normal.examples x.toData) := by
  have hheads := heads_fields x.toHeading []
    ([tagsField x.tags] ++ optionalField "tableHeader" Row.toData x.header ++
      [("tableBody", Data.list (x.body.map Row.toData))])
    (by simp) (by cases x.header <;> rfl)
  rw [← toData_examples] at hheads
  have htagItems : x.toData.itemsAt "tags" = x.tags.map LocatedTag.toData := by
    simp [Data.itemsAt, Data.field, Data.items, toData_examples, lookup_fields, headingKeys, tagsField]
  have hrowItems : (x.toData.present? "tableHeader").toList ++ x.toData.itemsAt "tableBody" =
      (x.header.toList ++ x.body).map Row.toData := by
    have hnull : ∀ r : Row, r.toData.isNull = false := fun _ => rfl
    cases hx : x.header <;>
      simp [Data.itemsAt, Data.field, Data.items, Data.present?, toData_examples, lookup_fields,
        headingKeys, tagsField, optionalField, List.lookup_cons, Option.filter, hx, hnull]
  have hrows := each_rows h.of_append.2.of_cons hrow
  refine each_headed h (List.mem_append_right _ List.mem_cons_self) hheader hheads
    (by simp [Examples.toData, Heading.fields, Data.field]) rfl
    (List.forall_mem_cons.2 ⟨?_, List.forall_mem_singleton.2 ?_⟩)
  · exact each_each htagItems (each_tags h.of_append.1 htags)
  · rw [hrowItems]
    exact Data.each_list (List.forall_mem_map.2 (List.forall_mem_map.2 hrows))

section

variable (hstep : ∀ keyword text, K (.step keyword text)) (hrow : K .row)
  (hfence : ∀ fence contentType, K (.fence fence contentType))

include hstep hrow hfence

theorem each_background {b : Background} (h : Standing ls b.nodes)
    (hheader : ∀ keyword name, K (.header .background keyword name)) :
    Data.Each (Shown K ls) (Normal.background (Child.background b).toData) := by
  have hheads := heads_fields b.toHeading [("type", Data.word "Background")] [stepsField b.steps]
    (by simp) rfl
  rw [← toData_background] at hheads
  have hsteps : (Child.background b).toData.itemsAt "steps" = b.steps.map Step.toData := by
    simp [Data.itemsAt, Data.field, Data.items, toData_background, lookup_fields, headingKeys,
      stepsField, List.lookup_cons]
  refine each_headed h List.mem_cons_self hheader hheads
    (by simp [Child.toData, Heading.fields, Data.field, List.lookup_cons]) rfl
    (List.forall_mem_singleton.2 ?_)
  exact each_each hsteps fun e he => each_step hstep hrow hfence (h.of_cons.of_flatMap e he)

theorem each_scenario {x : Scenario} (h : Standing ls (Child.scenario x).nodes) (htags : K .tags)
    (hheader : ∀ keyword name, K (.header .scenario keyword name)) :
    Data.Each (Shown K ls) (Normal.scenario (Child.scenario x).toData) := by
  have hheads := heads_fields x.toHeading [("type", Data.word "Scenario")]
    [tagsField x.tags, stepsField x.steps] (by simp) rfl
  rw [← toData_scenario] at hheads
  have htagItems : (Child.scenario x).toData.itemsAt "tags" = x.tags.map LocatedTag.toData := by
    simp [Data.itemsAt, Data.field, Data.items, toData_scenario, lookup_fields, headingKeys,
      tagsField, List.lookup_cons]
  have hsteps : (Child.scenario x).toData.itemsAt "steps" = x.steps.map Step.toData := by
    simp [Data.itemsAt, Data.field, Data.items, toData_scenario, lookup_fields, headingKeys,
      tagsField, stepsField, List.lookup_cons]
  refine each_headed h (List.mem_append_right _ List.mem_cons_self) hheader hheads
    (by simp [Child.toData, Heading.fields, Data.field, List.lookup_cons]) rfl
    (List.forall_mem_cons.2 ⟨?_, List.forall_mem_singleton.2 ?_⟩)
  · exact each_each htagItems (each_tags h.of_append.1 htags)
  · exact each_each hsteps fun e he =>
      each_step hstep hrow hfence (h.of_append.2.of_cons.of_flatMap e he)

theorem each_outline {x : Outline} (h : Standing ls (Child.outline x).nodes) (htags : K .tags)
    (hheader : ∀ keyword name, K (.header .outline keyword name))
    (hexamples : ∀ keyword name, K (.header .examples keyword name)) :
    Data.Each (Shown K ls) (Normal.outline (Child.outline x).toData) := by
  have hheads := heads_fields x.toHeading [("type", Data.word "ScenarioOutline")]
    [tagsField x.tags, stepsField x.steps,
      ("examples", Data.list (x.examples.map Examples.toData))] (by simp) rfl
  rw [← toData_outline] at hheads
  have htagItems : (Child.outline x).toData.itemsAt "tags" = x.tags.map LocatedTag.toData := by
    simp [Data.itemsAt, Data.field, Data.items, toData_outline, lookup_fields, headingKeys, tagsField,
      List.lookup_cons]
  have hsteps : (Child.outline x).toData.itemsAt "steps" = x.steps.map Step.toData := by
    simp [Data.itemsAt, Data.field, Data.items, toData_outline, lookup_fields, headingKeys, tagsField,
      stepsField, List.lookup_cons]
  have hblocks : (Child.outline x).toData.itemsAt "examples" = x.examples.map Examples.toData := by
    simp [Data.itemsAt, Data.field, Data.items, toData_outline, lookup_fields, headingKeys, tagsField,
      stepsField, List.lookup_cons]
  obtain ⟨hstepNodes, hblockNodes⟩ := h.of_append.2.of_cons.of_append
  refine each_headed h (List.mem_append_right _ List.mem_cons_self) hheader hheads
    (by simp [Child.toData, Heading.fields, Data.field, List.lookup_cons]) rfl
    (List.forall_mem_cons.2 ⟨?_, List.forall_mem_cons.2 ⟨?_, List.forall_mem_singleton.2 ?_⟩⟩)
  · exact each_each htagItems (each_tags h.of_append.1 htags)
  · exact each_each hsteps fun e he => each_step hstep hrow hfence (hstepNodes.of_flatMap e he)
  · exact each_each hblocks fun e he =>
      each_examples (hblockNodes.of_flatMap e he) htags hrow hexamples

end

end Document

end Gherkin
