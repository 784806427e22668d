import Gherkin.Proofs.Element.OfData

/-! The elements that the nodes of a document become. A node goes through its data, their normal
form and an excerpt before it is an element; the outcome, but for its origin, can be read off the
node. -/

namespace Gherkin

namespace Document

/-! ### The element of a node -/

def Row.plain (r : Row) : List Text := r.cells.map Cell.value

def Argument.plain : Argument → StepBlock
  | table _ rows => .table (rows.map Row.plain)
  | docString _ contentType content _ => .docString content contentType

def Step.plain (s : Step) : Gherkin.Step :=
  { keyword := s.keyword.trim, text := s.text, block := s.argument.map Argument.plain }

/-- A description counts only when it is not blank. -/
def descriptionOf : Option Text → Text
  | none => []
  | some t => if t.trim = [] then [] else Text.normalizeDescription t

def Heading.plain (h : Heading) : Gherkin.Heading :=
  ⟨h.keyword, h.name, descriptionOf h.description⟩

def tagsOf (tags : List LocatedTag) : List Tag := tags.map fun t => { name := t.name }

def Examples.plain (e : Examples) : Example :=
  { toHeading := e.toHeading.plain
    tags := tagsOf e.tags
    rows := (e.header.toList ++ e.body).map Row.plain }

def Background.plain (b : Background) : Gherkin.Background :=
  { toHeading := b.toHeading.plain, steps := b.steps.map Step.plain }

def Scenario.plain (s : Scenario) : Gherkin.Scenario :=
  { toHeading := s.toHeading.plain, tags := tagsOf s.tags, steps := s.steps.map Step.plain }

def Outline.plain (o : Outline) : Gherkin.Outline :=
  { toHeading := o.toHeading.plain
    tags := tagsOf o.tags
    steps := o.steps.map Step.plain
    examples := o.examples.map Examples.plain }

def Child.background? : Child → Option Background
  | background b => some b
  | _ => none

def Child.test? : Child → Option Test
  | background _ => none
  | scenario s => some (.scenario s.plain)
  | outline o => some (.outline o.plain)

/-- A feature with the comments of its document. -/
def Feature.plain (comments : List Comment) (f : Feature) : Gherkin.Feature :=
  { toHeading := f.toHeading.plain
    language := f.language
    tags := tagsOf f.tags
    background := (f.children.reverse.findSome? Child.background?).map Background.plain
    tests := f.children.filterMap Child.test?
    comments := comments.map fun c => { text := c.text } }

/-! ### Reading the normal form -/

variable (e : Excerpt)

theorem cells_row (r : Row) :
    ((Normal.row r.toData).itemsAt "cells").map (fun cell => cell.text?.getD []) = r.plain := by
  simp [Normal.row, Normal.each, Normal.copy, Row.toData, Data.itemsAt, Data.field, Data.items,
    Row.plain, Cell.toData, Data.text?, List.lookup_cons]

theorem rowsAt_rows {rows : List Row} {d : Data}
    (h : d.itemsAt "rows" = rows.map fun r => Normal.row r.toData) :
    d.rowsAt = rows.map Row.plain := by
  rw [Data.rowsAt, h, List.map_map]
  exact List.map_congr_left fun r _ => cells_row r

theorem argument_plain (a : Argument) :
    StepBlock.ofData? (Normal.block a.toData) = some a.plain := by
  cases a with
  | table location rows =>
    have htype : (Normal.block (Argument.table location rows).toData).hasType "DataTable" := by
      simp [Normal.block, Argument.toData, Data.hasType, Data.type?, Data.word, Data.text?]
    have hrows : (Normal.block (Argument.table location rows).toData).itemsAt "rows" =
        rows.map fun r => Normal.row r.toData := by
      simp [Normal.block, Argument.toData, Data.hasType, Data.type?, Data.word, Data.text?,
        Normal.copy, Normal.each, Data.itemsAt, Data.field, Data.items, List.lookup_cons]
    rw [StepBlock.ofData?, if_pos htype, rowsAt_rows hrows]
    rfl
  | docString location contentType content fence =>
    cases contentType <;>
      simp [StepBlock.ofData?, Normal.block, Argument.toData, Data.hasType, Data.type?, Data.word,
        Data.text?, optionalField, Normal.copy, Data.textAt, Data.field, Data.present?, Data.isNull,
        Argument.plain, List.lookup_cons, Option.filter]

theorem step_plain (s : Step) : (Step.ofData e (Normal.step s.toData)).forget = s.plain := by
  obtain ⟨location, keyword, text, argument⟩ := s
  cases argument with
  | none =>
    simp [Step.ofData, Gherkin.Step.forget, Normal.step, Step.toData, Data.textAt, Normal.copy,
      Data.field, Data.text?, optionalField, Data.present?, Step.plain, List.lookup_cons, Data.word,
      Option.filter]
  | some a =>
    have hnull : a.toData.isNull = false := by cases a <;> rfl
    simp [Step.ofData, Gherkin.Step.forget, Normal.step, Step.toData, Data.textAt, Normal.copy,
      Data.field, Data.text?, optionalField, Data.present?, Step.plain, List.lookup_cons, Data.word,
      Option.filter, hnull, argument_plain]

/-! ### Blocks with a header line -/

theorem toData_background (b : Background) : (Child.background b).toData =
    .record ([("type", Data.word "Background")] ++ (b.toHeading.fields ++ [stepsField b.steps])) :=
  rfl

theorem toData_scenario (s : Scenario) : (Child.scenario s).toData =
    .record ([("type", Data.word "Scenario")] ++
      (s.toHeading.fields ++ [tagsField s.tags, stepsField s.steps])) :=
  rfl

theorem toData_outline (o : Outline) : (Child.outline o).toData =
    .record ([("type", Data.word "ScenarioOutline")] ++ (o.toHeading.fields ++
      [tagsField o.tags, stepsField o.steps,
        ("examples", Data.list (o.examples.map Examples.toData))])) :=
  rfl

theorem toData_examples (x : Examples) : x.toData =
    .record ([] ++ (x.toHeading.fields ++ ([tagsField x.tags] ++
      optionalField "tableHeader" Row.toData x.header ++
        [("tableBody", Data.list (x.body.map Row.toData))]))) := by
  simp [Examples.toData]

theorem toData_feature (f : Feature) : f.toData =
    .record ([] ++ (f.toHeading.fields ++ [tagsField f.tags, ("language", .text f.language),
      ("children", Data.list (f.children.map Child.toData))])) := by
  simp [Feature.toData]

/-- The keys that a header line has in data. -/
def headingKeys : List String := ["type", "location", "keyword", "name", "description"]

theorem lookup_fields (h : Heading) {key : String} (hkey : key ∉ headingKeys)
    (rest : List (String × Data)) : (h.fields ++ rest).lookup key = rest.lookup key := by
  simp only [headingKeys, List.mem_cons, List.not_mem_nil, or_false, not_or] at hkey
  obtain ⟨-, hlocation, hkeyword, hname, hdescription⟩ := hkey
  cases hd : h.description <;>
    simp [Heading.fields, optionalField, hd, List.lookup_cons, beq_false_of_ne hlocation,
      beq_false_of_ne hkeyword, beq_false_of_ne hname, beq_false_of_ne hdescription]

theorem lookup_heading (type : String) (raw : Data) {key : String} (hkey : key ∉ headingKeys)
    (rest : List (String × Data)) :
    (Normal.heading type raw ++ rest).lookup key = rest.lookup key := by
  have hdescription : (Normal.descriptionField raw).lookup key = none := by
    simp only [headingKeys, List.mem_cons, List.not_mem_nil, or_false, not_or] at hkey
    unfold Normal.descriptionField
    split
    · split
      · rfl
      · simp [List.lookup_cons, beq_false_of_ne hkey.2.2.2.2]
    · rfl
  simp only [headingKeys, List.mem_cons, List.not_mem_nil, or_false, not_or] at hkey
  obtain ⟨htype, hlocation, hkeyword, hname, -⟩ := hkey
  simp [Normal.heading, Normal.copy, List.lookup_cons, List.lookup_append, hdescription,
    beq_false_of_ne htype, beq_false_of_ne hlocation, beq_false_of_ne hkeyword,
    beq_false_of_ne hname]

/-- A block in normal form has the type of its heading. -/
theorem hasType_heading (type : String) (raw : Data) (rest : List (String × Data)) (name : String) :
    (Data.record (Normal.heading type raw ++ rest)).hasType name = (type.toList == name.toList) := by
  simp [Normal.heading, Data.hasType, Data.type?, Data.word, Data.text?]

/-- Data that has the fields of a heading. -/
structure Heads (h : Heading) (raw : Data) : Prop where
  keyword : raw.field "keyword" = .text h.keyword
  name : raw.field "name" = .text h.name
  description : (raw.field? "description").bind Data.text? = h.description

theorem heads_fields (h : Heading) (type : List (String × Data)) (rest : List (String × Data))
    (htype : ∀ f ∈ type, f.1 = "type") (hrest : rest.lookup "description" = none) :
    Heads h (.record (type ++ (h.fields ++ rest))) := by
  have hskip : ∀ key : String, key ≠ "type" → type.lookup key = none := by
    intro key hkey
    rw [List.lookup_eq_none_iff]
    intro f hf
    rw [htype f hf]
    exact bne_iff_ne.2 hkey
  constructor
  · simp [Data.field, List.lookup_append, hskip, Heading.fields, List.lookup_cons]
  · simp [Data.field, List.lookup_append, hskip, Heading.fields, List.lookup_cons]
  · cases hd : h.description <;>
      simp [List.lookup_append, hskip, Heading.fields, List.lookup_cons, optionalField, hd, hrest,
        Data.text?]

theorem Heads.plain {h : Heading} {raw : Data} (hr : Heads h raw) (type : String)
    {rest : List (String × Data)} (hrest : rest.lookup "description" = none) :
    Gherkin.Heading.ofData (.record (Normal.heading type raw ++ rest)) = h.plain := by
  obtain ⟨hkeyword, hname, hdescription⟩ := hr
  have hd : (Data.record (Normal.heading type raw ++ rest)).descriptionAt =
      descriptionOf h.description := by
    unfold Data.descriptionAt descriptionOf
    rw [← hdescription]
    cases ht : (raw.field? "description").bind Data.text? with
    | none => simp [Normal.heading, Normal.copy, Normal.descriptionField, ht, List.lookup_cons, hrest]
    | some t =>
      by_cases hblank : t.trim = []
      · simp [Normal.heading, Normal.copy, Normal.descriptionField, ht, List.lookup_cons, hrest, hblank]
      · simp [Normal.heading, Normal.copy, Normal.descriptionField, ht, List.lookup_cons, hblank,
          Data.text?]
  rw [Gherkin.Heading.ofData, hd, Heading.plain]
  simp [Data.textAt, Normal.heading, Normal.copy, List.lookup_cons, hkeyword, hname, Data.text?]

theorem tags_plain {tags : List LocatedTag} {d : Data}
    (h : d.itemsAt "tags" = tags.map fun t => Normal.tag t.toData) :
    (Tag.listOfData e d).map Tag.forget = tagsOf tags := by
  rw [Tag.listOfData, h, List.map_map, List.map_map]
  refine List.map_congr_left fun t _ => ?_
  simp [Tag.ofData, Tag.forget, Normal.tag, Normal.copy, LocatedTag.toData, Data.textAt, Data.field,
    Data.text?, List.lookup_cons]

theorem steps_plain {steps : List Step} {d : Data} (later : List Data)
    (h : d.itemsAt "steps" = steps.map fun s => Normal.step s.toData) :
    (Step.listOfData e d later).map Gherkin.Step.forget = steps.map Step.plain := by
  rw [Step.listOfData, h, List.zipWith_map_left]
  exact map_zipWith (fun s part => step_plain part s) steps (by simp [length_splitAt])

/-- The steps in the normal form of a background. -/
theorem itemsAt_steps_background (b : Background) :
    (Normal.background (Child.background b).toData).itemsAt "steps" =
      b.steps.map fun s => Normal.step s.toData := by
  simp [Normal.background, Data.itemsAt, Data.field, lookup_heading, headingKeys, List.lookup_cons,
    Normal.each, Data.items, toData_background, lookup_fields, stepsField]

theorem background_plain (b : Background) :
    (Background.ofData e (Normal.background (Child.background b).toData)).forget = b.plain := by
  have hheads := heads_fields b.toHeading [("type", Data.word "Background")] [stepsField b.steps]
    (by simp) rfl
  rw [← toData_background] at hheads
  simp only [Background.ofData, Gherkin.Background.forget,
    steps_plain e [] (itemsAt_steps_background b)]
  rw [Normal.background, hheads.plain "Background" rfl]
  rfl

/-- The steps in the normal form of a scenario. -/
theorem itemsAt_steps (s : Scenario) : (Normal.scenario (Child.scenario s).toData).itemsAt "steps" =
    s.steps.map fun x => Normal.step x.toData := by
  simp [Normal.scenario, Data.itemsAt, Data.field, lookup_heading, headingKeys, List.lookup_cons,
    Normal.each, Data.items, toData_scenario, lookup_fields, stepsField, tagsField]

/-- The tags in the normal form of a scenario. -/
theorem itemsAt_tags_scenario (s : Scenario) :
    (Normal.scenario (Child.scenario s).toData).itemsAt "tags" =
      s.tags.map fun t => Normal.tag t.toData := by
  simp [Normal.scenario, Data.itemsAt, Data.field, lookup_heading, headingKeys, List.lookup_cons,
    Normal.each, Data.items, toData_scenario, lookup_fields, tagsField]

theorem scenario_plain (s : Scenario) :
    (Scenario.ofData e (Normal.scenario (Child.scenario s).toData)).forget = s.plain := by
  have hheads := heads_fields s.toHeading [("type", Data.word "Scenario")]
    [tagsField s.tags, stepsField s.steps] (by simp) rfl
  rw [← toData_scenario] at hheads
  simp only [Scenario.ofData, Gherkin.Scenario.forget, steps_plain e [] (itemsAt_steps s),
    tags_plain e (itemsAt_tags_scenario s)]
  rw [Normal.scenario, hheads.plain "Scenario" rfl]
  rfl

/-- The tags in the normal form of examples. -/
theorem itemsAt_tags_examples (x : Examples) :
    (Normal.examples x.toData).itemsAt "tags" = x.tags.map fun t => Normal.tag t.toData := by
  simp [Normal.examples, Data.itemsAt, Data.field, lookup_heading, headingKeys, List.lookup_cons,
    Normal.each, Data.items, toData_examples, lookup_fields, tagsField]

/-- The rows in the normal form of examples. -/
theorem itemsAt_rows (x : Examples) : (Normal.examples x.toData).itemsAt "rows" =
    (x.header.toList ++ x.body).map fun r => Normal.row r.toData := by
  have hnull : ∀ r : Row, r.toData.isNull = false := fun _ => rfl
  cases hx : x.header <;>
    simp [Normal.examples, Data.itemsAt, Data.field, lookup_heading, headingKeys, List.lookup_cons,
      Data.items, toData_examples, lookup_fields, tagsField, optionalField, Data.present?,
      Option.filter, hx, hnull]

theorem examples_plain (x : Examples) :
    (Example.ofData e (Normal.examples x.toData)).forget = x.plain := by
  have hheads := heads_fields x.toHeading []
    ([tagsField x.tags] ++ optionalField "tableHeader" Row.toData x.header ++
      [("tableBody", Data.list (x.body.map Row.toData))])
    (by simp) (by cases x.header <;> rfl)
  rw [← toData_examples] at hheads
  simp only [Example.ofData, Example.forget, tags_plain e (itemsAt_tags_examples x),
    rowsAt_rows (itemsAt_rows x)]
  rw [Normal.examples, hheads.plain "Examples" rfl]
  rfl

/-- The steps in the normal form of an outline. -/
theorem itemsAt_steps_outline (o : Outline) :
    (Normal.outline (Child.outline o).toData).itemsAt "steps" =
      o.steps.map fun s => Normal.step s.toData := by
  simp [Normal.outline, Data.itemsAt, Data.field, lookup_heading, headingKeys, List.lookup_cons,
    Normal.each, Data.items, toData_outline, lookup_fields, stepsField, tagsField]

/-- The examples in the normal form of an outline. -/
theorem itemsAt_examples (o : Outline) :
    (Normal.outline (Child.outline o).toData).itemsAt "examples" =
      o.examples.map fun x => Normal.examples x.toData := by
  simp [Normal.outline, Data.itemsAt, Data.field, lookup_heading, headingKeys, List.lookup_cons,
    Normal.each, Data.items, toData_outline, lookup_fields, stepsField, tagsField]

/-- The tags in the normal form of an outline. -/
theorem itemsAt_tags_outline (o : Outline) :
    (Normal.outline (Child.outline o).toData).itemsAt "tags" =
      o.tags.map fun t => Normal.tag t.toData := by
  simp [Normal.outline, Data.itemsAt, Data.field, lookup_heading, headingKeys, List.lookup_cons,
    Normal.each, Data.items, toData_outline, lookup_fields, tagsField]

theorem outline_plain (o : Outline) :
    (Outline.ofData e (Normal.outline (Child.outline o).toData)).forget = o.plain := by
  have hheads := heads_fields o.toHeading [("type", Data.word "ScenarioOutline")] [tagsField o.tags,
    stepsField o.steps, ("examples", Data.list (o.examples.map Examples.toData))] (by simp) rfl
  rw [← toData_outline] at hheads
  simp only [Outline.ofData, Gherkin.Outline.forget, steps_plain e _ (itemsAt_steps_outline o),
    tags_plain e (itemsAt_tags_outline o)]
  rw [itemsAt_examples, List.zipWith_map_left,
    map_zipWith (fun x part => examples_plain part x) o.examples (by simp [length_splitAt]),
    Normal.outline, hheads.plain "ScenarioOutline" rfl]
  rfl

/-! ### The feature -/

theorem hasType_toData (c : Child) : c.toData.hasType "Background" = c.background?.isSome := by
  cases c <;>
    simp [Child.toData, Data.hasType, Data.type?, Data.word, Data.text?, Child.background?]

theorem background?_toData {raw : Data} {children : List Child}
    (h : raw.itemsAt "children" = children.map Child.toData) :
    Normal.background? raw = (children.reverse.findSome? Child.background?).map
      fun b => (Child.background b).toData := by
  rw [Normal.background?, h, ← List.map_reverse]
  induction children.reverse with
  | nil => rfl
  | cons c cs ih =>
    rw [List.map_cons, List.find?_cons, hasType_toData, List.findSome?_cons, ih]
    cases c <;> rfl

theorem test?_toData (c : Child) : Normal.test? c.toData = match c with
    | .background _ => none
    | .scenario s => some (Normal.scenario (Child.scenario s).toData)
    | .outline o => some (Normal.outline (Child.outline o).toData) := by
  cases c <;>
    simp [Normal.test?, Child.toData, Data.hasType, Data.type?, Data.word, Data.text?]

theorem hasType_scenario (raw : Data) : (Normal.scenario raw).hasType "ScenarioOutline" = false :=
  (hasType_heading _ raw _ _).trans (by decide)

theorem hasType_outline (raw : Data) : (Normal.outline raw).hasType "ScenarioOutline" = true :=
  (hasType_heading _ raw _ _).trans (by decide)

theorem test_plain (c : Child) : c.test? = (Normal.test? c.toData).map fun d =>
    (Test.ofData e d).forget := by
  rw [test?_toData]
  cases c with
  | background => rfl
  | scenario s =>
    simp only [Option.map_some, Test.ofData, hasType_scenario, Bool.false_eq_true, if_false,
      Test.forget, scenario_plain]
    rfl
  | outline o =>
    simp only [Option.map_some, Test.ofData, hasType_outline, if_true, Test.forget, outline_plain]
    rfl

theorem tests_plain (children : List Child) {es : List Excerpt}
    (hlen : (children.filterMap fun c => Normal.test? c.toData).length ≤ es.length) :
    ((children.filterMap fun c => Normal.test? c.toData).zipWith
      (fun node part => Test.ofData part node) es).map Test.forget =
      children.filterMap Child.test? := by
  induction children generalizing es with
  | nil => rfl
  | cons c children ih =>
    rw [List.filterMap_cons] at hlen ⊢
    rw [List.filterMap_cons]
    cases hc : Normal.test? c.toData with
    | none =>
      rw [hc] at hlen
      rw [test_plain (.whole []) c, hc]
      exact ih hlen
    | some d =>
      rw [hc] at hlen
      cases es with
      | nil => simp at hlen
      | cons part es =>
        rw [test_plain part c, hc]
        simp only [Option.map_some, List.zipWith_cons_cons, List.map_cons]
        rw [@ih es (by simpa using hlen)]

theorem first_background_plain (b : Option Background) {es : List Excerpt}
    (hlen : b.toList.length ≤ es.length) :
    (((b.map fun b => Normal.background (Child.background b).toData).toList.zipWith
      (fun node part => Background.ofData part node) es).head?).map Gherkin.Background.forget =
      b.map Background.plain := by
  cases b with
  | none => rfl
  | some b => cases es with
    | nil => simp at hlen
    | cons part es => exact congrArg some (background_plain part b)

/-- The normal form of a feature, with the comments of its document. -/
def Feature.normal (comments : List Comment) (f : Feature) : Data :=
  Normal.feature (Data.list (comments.map fun c => Normal.comment c.toData)) f.toData

theorem itemsAt_children (f : Feature) :
    f.toData.itemsAt "children" = f.children.map Child.toData := by
  simp [toData_feature, Data.itemsAt, Data.field, lookup_fields, headingKeys, List.lookup_cons, tagsField,
    Data.items]

theorem field?_background (comments : List Comment) (f : Feature) :
    (f.normal comments).field? "background" = (f.children.reverse.findSome? Child.background?).map
      fun b => Normal.background (Child.background b).toData := by
  rw [Feature.normal, Normal.feature, background?_toData (itemsAt_children f), Data.field?_record,
    List.append_assoc, List.append_assoc, lookup_heading _ _ (by simp [headingKeys])]
  cases f.children.reverse.findSome? Child.background? with
  | none => rfl
  | some b => rfl

theorem present?_background (comments : List Comment) (f : Feature) :
    (f.normal comments).present? "background" = (f.children.reverse.findSome? Child.background?).map
      fun b => Normal.background (Child.background b).toData := by
  rw [Data.present?, field?_background]
  cases f.children.reverse.findSome? Child.background? with
  | none => rfl
  | some b => rfl

theorem itemsAt_elements (comments : List Comment) (f : Feature) :
    (f.normal comments).itemsAt "elements" =
      f.children.filterMap fun c => Normal.test? c.toData := by
  rw [Feature.normal, Data.itemsAt, Data.field, Normal.feature,
    background?_toData (itemsAt_children f), itemsAt_children, Data.field?_record,
    List.append_assoc, List.append_assoc, lookup_heading _ _ (by simp [headingKeys]),
    List.filterMap_map]
  cases f.children.reverse.findSome? Child.background? with
  | none => rfl
  | some b => rfl

theorem comment_plain (c : Comment) :
    (Comment.ofData e (Normal.comment c.toData)).forget = { text := c.text } := by
  simp [Comment.ofData, Gherkin.Comment.forget, Normal.comment, Normal.copy, Comment.toData,
    Data.textAt, Data.field, Data.text?, List.lookup_cons]

theorem itemsAt_comments (comments : List Comment) (f : Feature) :
    (f.normal comments).itemsAt "comments" = comments.map fun c => Normal.comment c.toData := by
  simp [Feature.normal, Normal.feature, Data.itemsAt, Data.field, lookup_heading, headingKeys,
    List.lookup_cons, Data.items, Normal.copy]

/-- The tags in the normal form of a feature. -/
theorem itemsAt_tags_feature (comments : List Comment) (f : Feature) :
    (f.normal comments).itemsAt "tags" = f.tags.map fun t => Normal.tag t.toData := by
  simp [Feature.normal, Normal.feature, Data.itemsAt, Data.field, lookup_heading, headingKeys,
    List.lookup_cons, Normal.each, Data.items, toData_feature, lookup_fields, tagsField]

theorem textAt_language (comments : List Comment) (f : Feature) :
    (f.normal comments).textAt "language" = f.language := by
  simp [Feature.normal, Normal.feature, Data.textAt, Data.field, lookup_heading, headingKeys,
    List.lookup_cons, toData_feature, lookup_fields, tagsField, Normal.copy, Data.text?]

theorem heading_feature (comments : List Comment) (f : Feature) :
    Gherkin.Heading.ofData (f.normal comments) = f.toHeading.plain := by
  have hheads := heads_fields f.toHeading [] [tagsField f.tags, ("language", .text f.language),
    ("children", Data.list (f.children.map Child.toData))] (by simp) rfl
  rw [← toData_feature] at hheads
  rw [Feature.normal, Normal.feature, List.append_assoc, List.append_assoc]
  refine hheads.plain "Feature" ?_
  cases Normal.background? f.toData <;> rfl

theorem feature_plain (comments : List Comment) (f : Feature) :
    (Feature.ofData e (f.normal comments)).forget = f.plain comments := by
  simp only [Feature.ofData, Gherkin.Feature.forget, present?_background, itemsAt_elements,
    textAt_language, itemsAt_comments, heading_feature,
    tags_plain e (itemsAt_tags_feature comments f)]
  rw [tests_plain f.children (by simp [length_splitAt]), List.map_map, List.map_map,
    first_background_plain _ (by
      cases f.children.reverse.findSome? Child.background? <;> simp [length_splitAt])]
  simp only [Function.comp_def, comment_plain]
  rfl

/-- The feature in the normal form of a document. -/
theorem present?_feature (d : Document) :
    (Normal.document d.toData).present? "feature" =
      d.feature.map (Feature.normal d.comments) := by
  obtain ⟨feature, comments⟩ := d
  have hcomments : Normal.each (Document.toData ⟨feature, comments⟩) "comments" Normal.comment =
      Data.list (comments.map fun c => Normal.comment c.toData) := by
    simp [Normal.each, Document.toData, Data.itemsAt, Data.field, List.lookup_cons, Data.items]
  have hfeature : (Document.toData ⟨feature, comments⟩).present? "feature" =
      feature.map Feature.toData := by
    cases feature <;> rfl
  rw [Normal.document, hcomments, hfeature, Data.present?]
  cases feature <;> rfl

end Document

end Gherkin
