import Mathlib.Data.List.Forall2
import Mathlib.Data.List.Nodup
import Gherkin.Document.Normal
import Gherkin.Proofs.Text.Trim

/-! The schema of normal forms. Each kind of map has a list of entries: the keys it may have, when
it has them, and what they hold. A map of the kind has just the keys of the entries that are
present. The lists are those of a document, its feature, and so on down to the rows of a table, and
every value whatever has a normal form that keeps to them, whether or not it is a document. -/

namespace Gherkin.Document.Normal

open Data (word text list record)

/-- A key of a map: when the map has it, and which values it may hold. -/
structure Entry where
  key : String
  present : Prop
  holds : Data → Prop

/-- A map with the keys of the entries that are present, and no other keys. -/
structure IsMap (entries : List Entry) (d : Data) : Prop where
  once : ∃ fields, d = record fields ∧ (fields.map Prod.fst).Nodup
  keys : ∀ key, (d.field? key).isSome ↔ ∃ e ∈ entries, e.key = key ∧ e.present
  values : ∀ e ∈ entries, ∀ v, d.field? e.key = some v → e.holds v

/-! ### Entries -/

/-- The value lists one item for each of the given values, in their order. -/
def Lists (item : Data → Data → Prop) (raws : List Data) (v : Data) : Prop :=
  ∃ items, v = list items ∧ List.Forall₂ item raws items

namespace Entry

def always (key : String) (holds : Data → Prop) : Entry := ⟨key, True, holds⟩

def typed (type : String) : Entry := always "type" (· = word type)

def copied (raw : Data) (key : String) : Entry := always key (· = raw.field key)

def listed (raw : Data) (key : String) (item : Data → Data → Prop) : Entry :=
  always key (Lists item (raw.itemsAt key))

/-- What becomes of the value under `rawKey`, where there is one that is not null. -/
def given (raw : Data) (rawKey key : String) (holds : Data → Data → Prop) : Entry where
  key := key
  present := ∃ a, raw.field? rawKey = some a ∧ a ≠ .null
  holds v := ∃ a, raw.field? rawKey = some a ∧ a ≠ .null ∧ holds a v

/-- The description as it is, where it is a text that is not blank. -/
def described (raw : Data) : Entry where
  key := "description"
  present := ∃ t, raw.field? "description" = some (text t) ∧ ∃ c ∈ t, Text.isBlank c = false
  holds v := raw.field? "description" = some v

end Entry

open Entry

/-- The entries of every block with a header line. -/
def headed (type : String) (raw : Data) : List Entry :=
  [typed type, copied raw "location", copied raw "keyword", copied raw "name", described raw]

/-! ### Maps -/

def IsTag (raw : Data) : Data → Prop :=
  IsMap [typed "Tag", copied raw "location", copied raw "name"]

def IsComment (raw : Data) : Data → Prop :=
  IsMap [typed "Comment", copied raw "location", copied raw "text"]

/-- A cell is its value alone. -/
def IsCell (raw v : Data) : Prop := v = raw.field "value"

def IsRow (raw : Data) : Data → Prop :=
  IsMap [copied raw "location", listed raw "cells" IsCell]

def IsTable (raw : Data) : Data → Prop :=
  IsMap [typed "DataTable", copied raw "location", listed raw "rows" IsRow]

def IsDocString (raw : Data) : Data → Prop :=
  IsMap [typed "DocString", copied raw "location", copied raw "content",
    given raw "contentType" "content_type" fun a v => v = a]

def IsBlock (raw d : Data) : Prop :=
  raw.hasType "DocString" ∧ IsDocString raw d ∨ ¬raw.hasType "DocString" ∧ IsTable raw d

def IsStep (raw : Data) : Data → Prop :=
  IsMap [typed "Step", copied raw "location",
    always "keyword" (· = text (raw.textAt "keyword").trim), copied raw "text",
    given raw "argument" "block" IsBlock]

def IsBackground (raw : Data) : Data → Prop :=
  IsMap (headed "Background" raw ++ [listed raw "steps" IsStep])

/-- The row of parameters and the rows of arguments. -/
def rawRows (raw : Data) : List Data :=
  match raw.field? "tableHeader" with
  | none | some .null => raw.itemsAt "tableBody"
  | some header => header :: raw.itemsAt "tableBody"

def IsExamples (raw : Data) : Data → Prop :=
  IsMap (headed "Examples" raw ++
    [listed raw "tags" IsTag, always "rows" (Lists IsRow (rawRows raw))])

def IsScenario (raw : Data) : Data → Prop :=
  IsMap (headed "Scenario" raw ++ [listed raw "tags" IsTag, listed raw "steps" IsStep])

def IsOutline (raw : Data) : Data → Prop :=
  IsMap (headed "ScenarioOutline" raw ++ [listed raw "tags" IsTag, listed raw "steps" IsStep,
    listed raw "examples" IsExamples])

def IsElement (raw d : Data) : Prop :=
  raw.hasType "Scenario" ∧ IsScenario raw d ∨ raw.hasType "ScenarioOutline" ∧ IsOutline raw d

/-- The last background among values. -/
def lastBackground (raws : List Data) : Entry where
  key := "background"
  present := ∃ raw ∈ raws, raw.hasType "Background"
  holds v := ∃ before raw after, raws = before ++ raw :: after ∧ raw.hasType "Background" ∧
    (∀ later ∈ after, ¬later.hasType "Background") ∧ IsBackground raw v

/-- A feature with the comments of its document. -/
def IsFeature (comments raw : Data) : Data → Prop :=
  IsMap (headed "Feature" raw ++ [listed raw "tags" IsTag, copied raw "language",
    always "comments" (· = comments), lastBackground (raw.itemsAt "children"),
    always "elements" (Lists IsElement ((raw.itemsAt "children").filter fun child =>
      child.hasType "Scenario" || child.hasType "ScenarioOutline"))])

def IsDocument (raw d : Data) : Prop :=
  IsMap [typed "GherkinDocument",
    always "feature" fun v =>
      v = .null ∧ (raw.field? "feature" = none ∨ raw.field? "feature" = some .null) ∨
      ∃ f, raw.field? "feature" = some f ∧ f ≠ .null ∧ IsFeature (d.field "comments") f v,
    listed raw "comments" IsComment] d

/-! ### Values of keys -/

theorem present?_eq_some_iff {raw a : Data} {key : String} :
    raw.present? key = some a ↔ raw.field? key = some a ∧ a ≠ .null := by
  rw [Data.present?, Option.filter_eq_some_iff]
  cases a <;> simp [Data.isNull]

theorem present?_eq_none_iff {raw : Data} {key : String} :
    raw.present? key = none ↔ raw.field? key = none ∨ raw.field? key = some .null := by
  rw [Data.present?]
  rcases raw.field? key with _ | a
  · simp
  · cases a <;> simp [Data.isNull]

theorem eq_text_of_text? {d : Data} {t : Text} (h : d.text? = some t) : d = text t := by
  cases d with
  | text t' => exact congrArg text (Option.some.inj h)
  | _ => cases h

/-! ### Fields that fill entries -/

/-- Fields for the entries that are present, in the order of the entries. -/
inductive Fills : List Entry → List (String × Data) → Prop
  | nil : Fills [] []
  | keep {e : Entry} {v : Data} {entries fields} (present : e.present) (holds : e.holds v)
      (rest : Fills entries fields) : Fills (e :: entries) ((e.key, v) :: fields)
  | skip {e : Entry} {entries fields} (absent : ¬e.present) (rest : Fills entries fields) :
      Fills (e :: entries) fields

namespace Fills

variable {entries more : List Entry} {fields moreFields : List (String × Data)}

theorem append (h : Fills entries fields) (hmore : Fills more moreFields) :
    Fills (entries ++ more) (fields ++ moreFields) := by
  induction h with
  | nil => exact hmore
  | keep present holds _ ih => exact .keep present holds ih
  | skip absent _ ih => exact .skip absent ih

theorem keys_sublist (h : Fills entries fields) :
    (fields.map Prod.fst).Sublist (entries.map Entry.key) := by
  induction h with
  | nil => exact .slnil
  | keep _ _ _ ih => exact ih.cons_cons _
  | skip _ _ ih => exact ih.cons _

theorem mem_keys_iff (h : Fills entries fields) (key : String) :
    key ∈ fields.map Prod.fst ↔ ∃ e ∈ entries, e.key = key ∧ e.present := by
  induction h with
  | nil => simp
  | keep present _ _ ih => simp [ih, present, eq_comm]
  | skip absent _ ih => simp [ih, absent]

theorem exists_of_mem (h : Fills entries fields) {key : String} {v : Data}
    (hmem : (key, v) ∈ fields) : ∃ e ∈ entries, e.key = key ∧ e.holds v := by
  induction h with
  | nil => cases hmem
  | @keep e _ _ _ present holds _ ih =>
    rcases List.mem_cons.1 hmem with heq | hmem
    · obtain ⟨rfl, rfl⟩ := Prod.mk.inj heq
      exact ⟨e, List.mem_cons_self, rfl, holds⟩
    · obtain ⟨e', he', hkey, hholds⟩ := ih hmem
      exact ⟨e', List.mem_cons_of_mem _ he', hkey, hholds⟩
  | skip _ _ ih =>
    obtain ⟨e', he', hkey, hholds⟩ := ih hmem
    exact ⟨e', List.mem_cons_of_mem _ he', hkey, hholds⟩

/-- Fields for entries with different keys are a map with just these entries. -/
theorem isMap (h : Fills entries fields) (hnodup : (entries.map Entry.key).Nodup) :
    IsMap entries (record fields) where
  once := ⟨fields, rfl, h.keys_sublist.nodup hnodup⟩
  keys key := by
    rw [← h.mem_keys_iff, Data.field?_record, Option.isSome_iff_ne_none, Ne,
      List.lookup_eq_none_iff]
    simp
  values e he v hv := by
    obtain ⟨before, after, hfields, -⟩ := List.lookup_eq_some_iff.1 hv
    have hmem : (e.key, v) ∈ fields := by simp [hfields]
    obtain ⟨e', he', hkey, hholds⟩ := h.exists_of_mem hmem
    rwa [List.inj_on_of_nodup_map hnodup he' he hkey] at hholds

section Always

variable {key : String} {holds : Data → Prop} {v : Data}

theorem cons (h : holds v) (hrest : Fills entries fields) :
    Fills (always key holds :: entries) ((key, v) :: fields) :=
  .keep trivial h hrest

theorem single (h : holds v) : Fills [always key holds] [(key, v)] := .cons h .nil

end Always

theorem given {raw : Data} {rawKey key : String} {holds : Data → Data → Prop} {f : Data → Data}
    (h : ∀ a, holds a (f a)) :
    Fills [Entry.given raw rawKey key holds] (optionalField key f (raw.present? rawKey)) := by
  cases hraw : raw.present? rawKey with
  | none =>
    refine .skip (fun ⟨a, ha⟩ => ?_) .nil
    rw [present?_eq_some_iff.2 ha] at hraw
    cases hraw
  | some a =>
    obtain ⟨ha, hne⟩ := present?_eq_some_iff.1 hraw
    exact .keep ⟨a, ha, hne⟩ ⟨a, ha, hne, h a⟩ .nil

theorem described (raw : Data) : Fills [Entry.described raw] (descriptionField raw) := by
  by_cases hpresent : (Entry.described raw).present
  · obtain ⟨t, ht, c, hc, hblank⟩ := hpresent
    have htrim : t.trim ≠ [] := fun h => by
      rw [Text.trim_eq_nil_iff.1 h c hc] at hblank
      cases hblank
    have hfield : descriptionField raw = [("description", text t)] := by
      simp [descriptionField, ht, Data.text?, htrim]
    rw [hfield]
    exact .keep ⟨t, ht, c, hc, hblank⟩ ht .nil
  · have hfield : descriptionField raw = [] := by
      unfold descriptionField
      split
      · next t ht =>
        obtain ⟨d, hd, htext⟩ := Option.bind_eq_some_iff.1 ht
        obtain rfl := eq_text_of_text? htext
        refine if_pos (Text.trim_eq_nil_iff.2 fun c hc => ?_)
        by_contra hblank
        exact hpresent ⟨t, hd, c, hc, Bool.eq_false_iff.2 hblank⟩
      · rfl
    rw [hfield]
    exact .skip hpresent .nil

theorem headed (type : String) (raw : Data) :
    Fills (Normal.headed type raw) (heading type raw) := by
  unfold Normal.headed heading
  exact .cons rfl (.cons rfl (.cons rfl (.cons rfl
    (.described raw))))

theorem lastBackground {raws : List Data} (h : ∀ raw, IsBackground raw (background raw)) :
    Fills [Normal.lastBackground raws] (optionalField "background" background
      (raws.reverse.find? (·.hasType "Background"))) := by
  cases hfind : raws.reverse.find? (·.hasType "Background") with
  | none =>
    refine .skip (fun ⟨raw, hraw, htype⟩ => ?_) .nil
    exact List.find?_eq_none.1 hfind raw (List.mem_reverse.2 hraw) htype
  | some raw =>
    obtain ⟨htype, after, before, hraws, hafter⟩ := List.find?_eq_some_iff_append.1 hfind
    have hsplit : raws = before.reverse ++ raw :: after.reverse := by
      rw [← List.reverse_reverse raws, hraws]
      simp
    refine .keep ⟨raw, by simp [hsplit], htype⟩
      ⟨before.reverse, raw, after.reverse, hsplit, htype, fun later hlater => ?_, h raw⟩ .nil
    simpa using hafter later (List.mem_reverse.1 hlater)

end Fills

/-! ### Normal forms -/

theorem lists_map {item : Data → Data → Prop} {normal : Data → Data}
    (h : ∀ raw, item raw (normal raw)) (raws : List Data) :
    Lists item raws (list (raws.map normal)) := by
  refine ⟨_, rfl, ?_⟩
  rw [List.forall₂_map_right_iff, List.forall₂_same]
  exact fun raw _ => h raw

theorem isTag_tag (raw : Data) : IsTag raw (tag raw) := by
  unfold IsTag
  refine Fills.isMap (.cons rfl (.cons rfl (.single rfl))) ?_
  exact (by decide : ["type", "location", "name"].Nodup)

theorem isComment_comment (raw : Data) : IsComment raw (comment raw) := by
  unfold IsComment
  refine Fills.isMap (.cons rfl (.cons rfl (.single rfl))) ?_
  exact (by decide : ["type", "location", "text"].Nodup)

theorem isCell_field (raw : Data) : IsCell raw (raw.field "value") := rfl

theorem isRow_row (raw : Data) : IsRow raw (row raw) := by
  unfold IsRow
  refine Fills.isMap (.cons rfl (.single (lists_map isCell_field _))) ?_
  exact (by decide : ["location", "cells"].Nodup)

theorem isBlock_block (raw : Data) : IsBlock raw (block raw) := by
  unfold block
  split
  · next htype =>
    refine .inl ⟨htype, ?_⟩
    unfold IsDocString
    refine Fills.isMap (.cons rfl (.cons rfl (.cons rfl
      (.given fun _ => rfl)))) ?_
    exact (by decide : ["type", "location", "content", "content_type"].Nodup)
  · next htype =>
    refine .inr ⟨htype, ?_⟩
    unfold IsTable
    refine Fills.isMap (.cons rfl (.cons rfl (.single (lists_map isRow_row _)))) ?_
    exact (by decide : ["type", "location", "rows"].Nodup)

theorem isStep_step (raw : Data) : IsStep raw (step raw) := by
  unfold IsStep
  refine Fills.isMap (.cons rfl (.cons rfl (.cons rfl (.cons rfl
    (.given isBlock_block))))) ?_
  exact (by decide : ["type", "location", "keyword", "text", "block"].Nodup)

theorem isBackground_background (raw : Data) : IsBackground raw (background raw) := by
  unfold IsBackground
  refine Fills.isMap (.append (.headed _ raw) (.single (lists_map isStep_step _))) ?_
  exact (by decide : ["type", "location", "keyword", "name", "description", "steps"].Nodup)

theorem rawRows_eq (raw : Data) :
    rawRows raw = (raw.present? "tableHeader").toList ++ raw.itemsAt "tableBody" := by
  unfold rawRows
  cases hheader : raw.present? "tableHeader" with
  | none => rcases present?_eq_none_iff.1 hheader with h | h <;> rw [h] <;> rfl
  | some header =>
    obtain ⟨hfield, hne⟩ := present?_eq_some_iff.1 hheader
    rw [hfield]
    cases header with
    | null => exact absurd rfl hne
    | _ => rfl

theorem isExamples_examples (raw : Data) : IsExamples raw (examples raw) := by
  unfold IsExamples
  refine Fills.isMap (.append (.headed _ raw)
    (.cons (lists_map isTag_tag _) (.single ?_))) ?_
  · rw [rawRows_eq]
    exact lists_map isRow_row _
  · exact (by decide :
      ["type", "location", "keyword", "name", "description", "tags", "rows"].Nodup)

theorem isScenario_scenario (raw : Data) : IsScenario raw (scenario raw) := by
  unfold IsScenario
  refine Fills.isMap (.append (.headed _ raw)
    (.cons (lists_map isTag_tag _) (.single (lists_map isStep_step _)))) ?_
  exact (by decide : ["type", "location", "keyword", "name", "description", "tags", "steps"].Nodup)

theorem isOutline_outline (raw : Data) : IsOutline raw (outline raw) := by
  unfold IsOutline
  refine Fills.isMap (.append (.headed _ raw) (.cons (lists_map isTag_tag _)
    (.cons (lists_map isStep_step _) (.single (lists_map isExamples_examples _))))) ?_
  exact (by decide : ["type", "location", "keyword", "name", "description", "tags", "steps",
    "examples"].Nodup)

theorem lists_elements (raws : List Data) :
    Lists IsElement
      (raws.filter fun child => child.hasType "Scenario" || child.hasType "ScenarioOutline")
      (list (raws.filterMap test?)) := by
  refine ⟨_, rfl, ?_⟩
  induction raws with
  | nil => exact .nil
  | cons raw raws ih =>
    by_cases hscenario : raw.hasType "Scenario"
    · rw [List.filter_cons_of_pos (by simp [hscenario]), List.filterMap_cons, test?,
        if_pos hscenario]
      exact .cons (.inl ⟨hscenario, isScenario_scenario raw⟩) ih
    · by_cases houtline : raw.hasType "ScenarioOutline"
      · rw [List.filter_cons_of_pos (by simp [houtline]), List.filterMap_cons, test?,
          if_neg hscenario, if_pos houtline]
        exact .cons (.inr ⟨houtline, isOutline_outline raw⟩) ih
      · rw [List.filter_cons_of_neg (by simp [hscenario, houtline]), List.filterMap_cons, test?,
          if_neg hscenario, if_neg houtline]
        exact ih

theorem isFeature_feature (comments raw : Data) :
    IsFeature comments raw (feature comments raw) := by
  unfold IsFeature feature
  rw [List.append_assoc, List.append_assoc]
  refine Fills.isMap (.append (.headed _ raw) (.cons (lists_map isTag_tag _) (.cons rfl (.cons rfl
    (.append (.lastBackground isBackground_background) (.single (lists_elements _))))))) ?_
  exact (by decide : ["type", "location", "keyword", "name", "description", "tags", "language",
    "comments", "background", "elements"].Nodup)

/-- The normal form of any value keeps to the schema. -/
theorem isDocument_document (raw : Data) : IsDocument raw (document raw) := by
  have hcomments : (document raw).field "comments" = each raw "comments" comment := by
    simp [document, Data.field, List.lookup_cons]
  unfold IsDocument
  rw [hcomments]
  refine Fills.isMap (.cons rfl (.cons ?_ (.single (lists_map isComment_comment _)))) ?_
  · cases hfeature : raw.present? "feature" with
    | none => exact .inl ⟨rfl, present?_eq_none_iff.1 hfeature⟩
    | some f =>
      obtain ⟨hfield, hne⟩ := present?_eq_some_iff.1 hfeature
      exact .inr ⟨f, hfield, hne, isFeature_feature _ f⟩
  · exact (by decide : ["type", "feature", "comments"].Nodup)

end Gherkin.Document.Normal
