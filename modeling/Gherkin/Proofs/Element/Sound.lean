import Gherkin.Proofs.Element.Drawn
import Gherkin.Proofs.Element.Nested

/-! Sound excerpts of what is read from a text. The lines that hold a node hold its blocks in the
order in which they stand, so every document is cut into sound excerpts. So is every text that holds
a single node: the lines put around it are of other kinds than the node and its parts stand on. -/

open Gherkin.Document Gherkin.Document.Parser

namespace Gherkin

namespace Document

variable {K : LineKind → Bool} {ls ts hs : List Line} {cs bs : List Document.Comment}

/-- The numbers of the lines of some kinds. -/
def numbers (K : LineKind → Bool) (ls : List Line) : List ℕ :=
  (ls.filter fun l => K l.kind).map Line.number

theorem numbers_append (K : LineKind → Bool) (as bs : List Line) :
    numbers K (as ++ bs) = numbers K as ++ numbers K bs := by
  simp [numbers]

theorem mem_numbers_iff {n : ℕ} : n ∈ numbers K ls ↔ ∃ l ∈ ls, K l.kind ∧ l.number = n := by
  simp [numbers, and_assoc]

theorem numbers_sublist (h : ts.Sublist ls) : (numbers K ts).Sublist (numbers K ls) :=
  (h.filter _).map _

theorem Standing.mem_numbers {nodes : List Node} (h : Standing ls nodes) (node : Node)
    (hmem : node ∈ nodes) (hK : ∀ l body, node.Stands (l :: body) → K l.kind) :
    node.location.line ∈ numbers K ls := by
  obtain ⟨block, hblock, hs⟩ := h node hmem
  obtain ⟨l, body, rfl, hnumber⟩ := hs.exists_cons
  exact mem_numbers_iff.2
    ⟨l, hblock.subset List.mem_cons_self, hK l body hs, hnumber.symm⟩

/-! ### Lines of nodes -/

theorem itemsAt_tags_step (s : Step) : (Normal.step s.toData).itemsAt "tags" = [] := by
  cases h : s.toData.present? "argument" <;>
    simp [Normal.step, Normal.copy, Data.itemsAt, Data.field, List.lookup_cons, h, optionalField,
      Data.items]

theorem itemsAt_tags_background (b : Background) :
    (Normal.background (Child.background b).toData).itemsAt "tags" = [] := by
  simp [Normal.background, Data.itemsAt, Data.field, lookup_heading, headingKeys, List.lookup_cons,
    Data.items]

theorem tags_mem_numbers {found} (h : Reading.Tags ls found cs) (hK : K .tags) :
    ∀ t ∈ found, t.location.line ∈ numbers K ls := by
  intro t ht
  refine (standing_tags h).mem_numbers _ (List.mem_map_of_mem ht) fun l body hs => ?_
  cases hs with
  | tag hl => exact hl ▸ hK

theorem header_mem_numbers {block : Block} {head} (h : Reading.Headed block ls head cs)
    (hK : ∀ keyword name, K (.header block keyword name)) :
    head.location.line ∈ numbers K ls := by
  refine (standing_headed h).mem_numbers _ (List.mem_singleton_self _) fun l body hs => ?_
  cases hs with
  | header hl => exact hl ▸ hK _ _

theorem rooted_headed {block : Block} {found : List LocatedTag} {head : Heading} {d : Data}
    {marks : List Data}
    (htags : ∀ t ∈ found, t.location.line ∈ numbers K ts) (hh : Reading.Headed block hs head cs)
    (hK : ∀ keyword name, K (.header block keyword name))
    (hline : d.line? = some head.location.line)
    (hitems : d.itemsAt "tags" = found.map fun t => Normal.tag t.toData)
    (hmarks : marks ⊆ d.itemsAt "tags") : Plan.Rooted d marks (numbers K (ts ++ hs)) := by
  rw [numbers_append]
  refine ⟨⟨_, List.mem_append_right _ (header_mem_numbers hh hK), hline⟩, ?_, hmarks⟩
  rw [hitems]
  exact List.forall_mem_map.2 fun t ht =>
    ⟨_, List.mem_append_left _ (htags t ht), line?_tag t⟩

theorem onAll_many {α : Type} {R : List Line → α → List Document.Comment → Prop}
    {plan : α → Plan Data} {items : List α} (h : Reading.Many R ls items cs)
    (hR : ∀ {ls a cs}, R ls a cs → (plan a).On (numbers K ls)) :
    Plan.OnAll (items.map plan) (numbers K ls) := by
  induction h with
  | nil => exact trivial
  | cons ha _ ih =>
    rw [List.map_cons, Plan.OnAll]
    exact ⟨_, _, numbers_append K _ _, hR ha, ih⟩

section Steps

variable (hstep : ∀ keyword text, K (.step keyword text))

include hstep

theorem on_step {s : Step} (h : Reading.Step ls s cs) :
    (Plan.ofStep (Normal.step s.toData)).On (numbers K ls) := by
  have hmem : s.location.line ∈ numbers K ls := by
    refine (standing_step h).mem_numbers (.step s) List.mem_cons_self fun l body hs => ?_
    cases hs with
    | step hl => exact hl ▸ hstep _ _
  rw [Plan.ofStep, Plan.On]
  refine ⟨_, [], (List.append_nil _).symm,
    ⟨⟨_, hmem, line?_step s⟩, ?_, List.nil_subset _⟩, trivial⟩
  rw [itemsAt_tags_step]
  exact List.forall_mem_nil _

theorem onAll_steps {steps : List Step} (h : Reading.Many Reading.Step ls steps cs) {d : Data}
    (hitems : d.itemsAt "steps" = steps.map fun s => Normal.step s.toData) :
    Plan.OnAll ((d.itemsAt "steps").map Plan.ofStep) (numbers K ls) := by
  rw [hitems, List.map_map]
  exact onAll_many h (on_step hstep)

theorem on_background {b : Background} (hK : ∀ keyword name, K (.header .background keyword name))
    (h : Reading.Background ls b cs) :
    (Plan.ofBackground (Child.background b).node).On (numbers K ls) := by
  cases h with
  | mk hh h =>
    have htags : ∀ t ∈ ([] : List LocatedTag), t.location.line ∈ numbers K [] := by simp
    rw [Plan.ofBackground, Plan.On]
    exact ⟨_, _, numbers_append K _ _, rooted_headed htags hh hK (line?_background _)
      (itemsAt_tags_background _) (List.nil_subset _),
      onAll_steps hstep h (itemsAt_steps_background _)⟩

end Steps

section Tags

variable (htags : K .tags)

include htags

theorem on_examples {x : Examples} (hK : ∀ keyword name, K (.header .examples keyword name))
    (h : Reading.Examples ls x cs) :
    (Plan.ofExample (Normal.examples x.toData)).On (numbers K ls) := by
  cases h with
  | mk ht hh hr =>
    rw [Plan.ofExample, Plan.On, ← List.append_assoc]
    exact ⟨_, _, numbers_append K _ _, rooted_headed (tags_mem_numbers ht htags) hh hK
      (line?_examples _) (itemsAt_tags_examples _) (List.Subset.refl _), trivial⟩

variable (hstep : ∀ keyword text, K (.step keyword text))

include hstep

theorem on_scenario {s : Scenario} (hK : ∀ keyword name, K (.header .scenario keyword name))
    (h : Reading.Test ls (.scenario s) cs) :
    (Plan.ofScenario (Child.scenario s).node).On (numbers K ls) := by
  cases h with
  | scenario ht hh h =>
    rw [Plan.ofScenario, Plan.On, ← List.append_assoc]
    exact ⟨_, _, numbers_append K _ _, rooted_headed (tags_mem_numbers ht htags) hh hK
      (line?_scenario _) (itemsAt_tags_scenario _) (List.Subset.refl _),
      onAll_steps hstep h (itemsAt_steps _)⟩

theorem on_outline {o : Outline} (hK : ∀ keyword name, K (.header .outline keyword name))
    (hexamples : ∀ keyword name, K (.header .examples keyword name))
    (h : Reading.Test ls (.outline o) cs) :
    (Plan.ofOutline (Child.outline o).node).On (numbers K ls) := by
  cases h with
  | outline ht hh h he =>
    rw [Plan.ofOutline, Plan.On, ← List.append_assoc]
    refine ⟨_, _, numbers_append K _ _, rooted_headed (tags_mem_numbers ht htags) hh hK
      (line?_outline _) (itemsAt_tags_outline _) (List.Subset.refl _), ?_⟩
    rw [numbers_append]
    refine (onAll_steps hstep h (itemsAt_steps_outline _)).append ?_
    rw [Child.node, itemsAt_examples, List.map_map]
    exact onAll_many he (on_examples htags hexamples)

theorem on_test (hscenario : ∀ keyword name, K (.header .scenario keyword name))
    (houtline : ∀ keyword name, K (.header .outline keyword name))
    (hexamples : ∀ keyword name, K (.header .examples keyword name)) {c : Child}
    (h : Reading.Test ls c cs) : (Plan.ofTest c.node).On (numbers K ls) := by
  cases c with
  | background => cases h
  | scenario s =>
    rw [Plan.ofTest, if_neg (by simp [Child.node, hasType_scenario])]
    exact on_scenario htags hstep hscenario h
  | outline o =>
    rw [Plan.ofTest, if_pos (by simp [Child.node, hasType_outline])]
    exact on_outline htags hstep houtline hexamples h

end Tags

/-! ### Documents -/

/-- The kinds of lines that have some meaning. -/
def means (k : LineKind) : Bool := !k.isTrivia

/-- The lines of a feature's blocks hold them one after another. -/
theorem onAll_blocks {f : Feature} (comments : List Document.Comment)
    (h : Reading.Children ls f.children cs) :
    Plan.OnAll (((f.normal comments).present? "background").toList.map Plan.ofBackground ++
      ((f.normal comments).itemsAt "elements").map Plan.ofTest) (numbers means ls) := by
  have htests {ls tests cs} (h : Reading.Many Reading.Test ls tests cs) :
      Plan.OnAll ((tests.map Child.node).map Plan.ofTest) (numbers means ls) := by
    rw [List.map_map]
    exact onAll_many h
      (on_test rfl (fun _ _ => rfl) (fun _ _ => rfl) (fun _ _ => rfl) fun _ _ => rfl)
  obtain ⟨hback, hitems, h⟩ | ⟨as, b, bs, bcs, tests, tcs, rfl, -, hback, hitems, hb, h⟩ :=
    blocks_cases comments h
  · rw [hback, hitems]
    exact htests h
  · rw [hback, hitems, numbers_append, Option.toList_some, List.map_singleton, List.singleton_append,
      Plan.OnAll]
    exact ⟨_, _, rfl, on_background (fun _ _ => rfl) (fun _ _ => rfl) hb, htests h⟩

variable {d : Dialect} {header : Option ℕ} {source : Text}

theorem bounds_of_mem {l : Line} (h : l ∈ linesIn d header source) :
    1 ≤ l.number ∧ l.number ≤ source.lines.length := by
  obtain ⟨i, hi, hget⟩ := List.getElem_of_mem h
  have hnumber := number_of_linesIn (List.getElem?_eq_some_iff.2 ⟨hi, hget⟩)
  rw [length_linesIn] at hi
  omega

theorem solid_of_mem {l : Line} (h : l ∈ linesIn d header source) (hl : l.kind.isTrivia = false) :
    Excerpt.Solid source.lines l.number := by
  obtain ⟨i, hi, hget⟩ := List.getElem_of_mem h
  have hsome := List.getElem?_eq_some_iff.2 ⟨hi, hget⟩
  rw [number_of_linesIn hsome]
  exact ⟨Nat.le_add_left 1 i, (isIdle_of_linesIn hsome).trans hl⟩

/-- The whole of a text keeps the lines that have some meaning. -/
theorem keeps_means (h : ls.Sublist (linesIn d header source)) :
    Plan.Keeps source (.whole source) (numbers means ls) where
  sorted := List.Pairwise.sublist (numbers_sublist h)
    (List.pairwise_map.2 ((pairwise_linesIn d header source).filter _))
  le_last n hn := by
    obtain ⟨l, hl, -, rfl⟩ := mem_numbers_iff.1 hn
    exact (bounds_of_mem (h.subset hl)).2
  solid n hn := by
    obtain ⟨l, hl, hk, rfl⟩ := mem_numbers_iff.1 hn
    exact solid_of_mem (h.subset hl) (by simpa [means] using hk)

end Document

namespace Plan

variable {source : Text} {d : Data} {marks : List Data} {ps : List (Plan Data)} {ns : List ℕ}

/-- The whole of a text is cut into sound excerpts, if the blocks come one after another. -/
theorem sound_whole (hown : ∃ n, d.line? = some n ∧ 1 ≤ n ∧ n ≤ source.lines.length)
    (hmarks : ∀ m ∈ marks, ∃ n, m.line? = some n ∧ 1 ≤ n ∧ n ≤ source.lines.length)
    (hblocks : OnAll ps ns) (hns : Keeps source (.whole source) ns) :
    ((mk d marks ps).cut (.whole source)).Sound source := by
  have hfirst : ∀ n ∈ ns, (Excerpt.whole source).first ≤ n := fun n hn => (hns.solid n hn).1
  exact sound_mk (Excerpt.isRun_whole source) hown hmarks (hns.starts hblocks hfirst)
    (sound_cutAll ps hblocks hns (Excerpt.isRun_whole source) hfirst)

end Plan

/-- A feature is cut into sound excerpts; its comments may stand anywhere in the text. -/
theorem Document.sound_feature {code source : Text} {doc : Document} {f : Document.Feature}
    (hparse : Document.parse code source = .ok doc) (hf : doc.feature = some f) :
    ((Plan.ofFeature (f.normal doc.comments)).cut (.whole source)).Sound source := by
  obtain ⟨-, language, d, header, -, -, -, hreading⟩ := Document.reading_of_parse hparse
  have hstanding := standing_document hreading
  have hbounds (node : Node) (hmem : node ∈ doc.nodes) :
      1 ≤ node.location.line ∧ node.location.line ≤ source.lines.length := by
    obtain ⟨l, hl, -, hnumber⟩ := mem_numbers_iff.1
      (hstanding.mem_numbers (K := fun _ => true) node hmem fun _ _ _ => rfl)
    rw [← hnumber]
    exact bounds_of_mem hl
  have hmem : ∀ node ∈ f.nodes, node ∈ doc.nodes := fun node hnode =>
    List.mem_append_left _ (List.mem_flatMap.2 ⟨f, by simp [hf], hnode⟩)
  have hpresent :
      (Normal.document doc.toData).present? "feature" = some (f.normal doc.comments) := by
    rw [present?_feature, hf, Option.map_some]
  obtain ⟨tree, before, after, cs, htree, hall, hblocks⟩ := exists_of_present hreading hpresent
  rw [present?_feature, hf] at hpresent
  have hsub : after.Sublist (linesIn d header source) :=
    hall ▸ List.sublist_append_right before after
  have hroot := onAll_blocks doc.comments hblocks
  rw [← htree] at hroot
  refine Plan.sound_whole ⟨_, line?_feature _ _, ?_⟩ ?_ hroot (keeps_means hsub)
  · exact hbounds _ (hmem (.header .feature f.toHeading) (by simp [Feature.nodes]))
  · rw [itemsAt_tags_feature, itemsAt_comments]
    refine List.forall_mem_append.2 ⟨List.forall_mem_map.2 fun t ht => ?_,
      List.forall_mem_map.2 fun c hc => ?_⟩
    · exact ⟨_, line?_tag t, hbounds _ (hmem (.tag t) (by simp [Feature.nodes, ht]))⟩
    · exact ⟨_, line?_comment c, hbounds (.comment c) (by simp [Document.nodes, hc])⟩

/-! ### Nodes on their own -/

namespace Plan

variable (n : ℕ)

theorem mapAll_lowerLines {of : Data → Plan Data}
    (h : ∀ d, (of d).map (Data.lowerLines n) = of (d.lowerLines n)) (ds : List Data) :
    mapAll (Data.lowerLines n) (ds.map of) = (ds.map (Data.lowerLines n)).map of := by
  rw [mapAll_eq_map, List.map_map, List.map_map]
  exact List.map_congr_left fun d _ => h d

theorem map_ofStep (d : Data) : (ofStep d).map (Data.lowerLines n) = ofStep (d.lowerLines n) := rfl

theorem map_ofExample (d : Data) :
    (ofExample d).map (Data.lowerLines n) = ofExample (d.lowerLines n) := by
  rw [ofExample, ofExample, Data.itemsAt_lowerLines n (by decide)]
  rfl

theorem map_ofBackground (d : Data) :
    (ofBackground d).map (Data.lowerLines n) = ofBackground (d.lowerLines n) := by
  rw [ofBackground, ofBackground, Data.itemsAt_lowerLines n (by decide), map,
    mapAll_lowerLines n (map_ofStep n)]
  rfl

theorem map_ofScenario (d : Data) :
    (ofScenario d).map (Data.lowerLines n) = ofScenario (d.lowerLines n) := by
  rw [ofScenario, ofScenario, Data.itemsAt_lowerLines n (by decide),
    Data.itemsAt_lowerLines n (by decide), map, mapAll_lowerLines n (map_ofStep n)]

theorem map_ofOutline (d : Data) :
    (ofOutline d).map (Data.lowerLines n) = ofOutline (d.lowerLines n) := by
  rw [ofOutline, ofOutline, Data.itemsAt_lowerLines n (by decide),
    Data.itemsAt_lowerLines n (by decide), Data.itemsAt_lowerLines n (by decide), map,
    mapAll_eq_map, List.map_append, ← mapAll_eq_map, ← mapAll_eq_map,
    mapAll_lowerLines n (map_ofStep n), mapAll_lowerLines n (map_ofExample n)]

end Plan

namespace Snippet

variable {k : Snippet} {code source : Text} {d : Dialect}

/-- The plan of the node that a text holds on its own. -/
def plan (k : Snippet) (d : Data) : Plan Data :=
  match k with
  | feature => .ofFeature d
  | background => .ofBackground d
  | scenario => .ofScenario d
  | outline => .ofOutline d
  | .example => .ofExample d
  | step => .ofStep d
  | tag | comment => .leaf d

theorem map_plan (hk : k ≠ feature) (n : ℕ) (d : Data) :
    (k.plan d).map (Data.lowerLines n) = k.plan (d.lowerLines n) := by
  cases k with
  | feature => exact absurd rfl hk
  | background => exact Plan.map_ofBackground n d
  | scenario => exact Plan.map_ofScenario n d
  | outline => exact Plan.map_ofOutline n d
  | «example» => exact Plan.map_ofExample n d
  | step | tag | comment => rfl

theorem on_leaf {K : LineKind → Bool} {ls : List Line} {d : Data} {n : ℕ} (hline : d.line? = some n)
    (hn : n ∈ numbers K ls) (htags : d.itemsAt "tags" = []) :
    (Plan.mk d [] []).On (numbers K ls) := by
  rw [Plan.On]
  exact ⟨_, [], (List.append_nil _).symm,
    ⟨⟨n, hn, hline⟩, by simp [htags], List.nil_subset _⟩, trivial⟩

/-- The node of a text stands on lines of the kinds that it takes. -/
theorem on_of_extract {language : Text} {ls : List Line} {doc : Document} {node : Data}
    (hk : k ≠ feature) (h : Reading language ls doc)
    (hnode : k.extract? (Normal.document doc.toData) = some node) :
    ∃ seg, seg.Sublist ls ∧ (k.plan node).On (numbers k.takes seg) := by
  have hseg (before seg after : List Line) : seg.Sublist (before ++ (seg ++ after)) :=
    (List.sublist_append_left seg after).trans (List.sublist_append_right before _)
  cases k with
  | feature => exact absurd rfl hk
  | background =>
    obtain ⟨b, before, seg, after, cs, rfl, rfl, hb⟩ := exists_of_background h hnode
    exact ⟨seg, hseg _ _ _, on_background (by simp [takes]) (by simp [takes]) hb⟩
  | scenario =>
    obtain ⟨s, before, seg, after, cs, rfl, rfl, hs⟩ := exists_of_scenario h hnode
    exact ⟨seg, hseg _ _ _, on_scenario (by simp [takes]) (by simp [takes]) (by simp [takes]) hs⟩
  | outline =>
    obtain ⟨o, before, seg, after, cs, rfl, rfl, ho⟩ := exists_of_outline h hnode
    exact ⟨seg, hseg _ _ _, on_outline (by simp [takes]) (by simp [takes]) (by simp [takes])
      (by simp [takes]) ho⟩
  | «example» =>
    obtain ⟨t, hfirst, hblock⟩ := Option.bind_eq_some_iff.1 hnode
    obtain ⟨c, before, seg, after, cs, rfl, rfl, hc⟩ := exists_of_firstTest h hfirst
    cases hc with
    | scenario =>
      simp [Child.node, Normal.scenario, Data.itemsAt, Data.field, lookup_heading, headingKeys,
        List.lookup_cons, Data.items] at hblock
    | @outline ts hs ss es _ _ _ _ _ _ _ _ ht hh hsteps he =>
      rw [Child.node, itemsAt_examples] at hblock
      cases he with
      | nil => cases hblock
      | @cons as x _ more _ _ hx _ =>
        obtain rfl := Option.some.inj hblock
        refine ⟨as, ?_, on_examples (by simp [takes]) (by simp [takes]) hx⟩
        exact (hseg (ts ++ (hs ++ ss)) as more).trans (by simp)
  | step =>
    obtain ⟨s, rfl, hs⟩ := taken_of_extract hk (standing_document h) hnode
    refine ⟨ls, List.Sublist.refl ls, on_leaf (line?_step s) ?_ (itemsAt_tags_step s)⟩
    refine hs.mem_numbers (.step s) List.mem_cons_self fun l body hl => ?_
    cases hl with
    | step hkind => simp [hkind, takes]
  | tag =>
    obtain ⟨t, rfl, ht⟩ := taken_of_extract hk (standing_document h) hnode
    refine ⟨ls, List.Sublist.refl ls, on_leaf (line?_tag t) ?_ ?_⟩
    · refine ht.mem_numbers _ (List.mem_singleton_self _) fun l body hl => ?_
      cases hl with
      | tag hkind => simp [hkind, takes]
    · simp [Normal.tag, Normal.copy, Data.itemsAt, Data.field, List.lookup_cons, Data.items]
  | comment =>
    obtain ⟨c, rfl, hc⟩ := taken_of_extract hk (standing_document h) hnode
    refine ⟨ls, List.Sublist.refl ls, on_leaf (line?_comment c) ?_ ?_⟩
    · refine hc.mem_numbers _ (List.mem_singleton_self _) fun l body hl => ?_
      cases hl with
      | comment hkind => simp [hkind, takes]
    · simp [Normal.comment, Normal.copy, Data.itemsAt, Data.field, List.lookup_cons, Data.items]

/-- A line of a kind that the node takes is one of the text, counted on by the lines before it. -/
theorem mem_of_wrap {l : Line} (hcode : Dialect.get? code = some d) (hk : k ≠ feature)
    (hl : l ∈ linesIn d (some 1) (k.wrap code d source)) (htakes : k.takes l.kind) :
    l.lowered (k.opening code d).length ∈ linesIn d none source ∧
      (k.opening code d).length < l.number := by
  have hd := Dialect.sound_of_get? hcode
  have hopening : 1 ≤ (k.opening code d).length := by
    obtain ⟨before, hopening, -⟩ := exists_opening hd code hk
    simp [hopening]
  rw [linesIn_wrap hcode hk, List.mem_append, List.mem_append] at hl
  rcases hl with hl | hl | hl
  · simp [takes_opening hcode hk l hl] at htakes
  · refine ⟨?_, ?_⟩
    · rw [← map_lowered d hopening source]
      exact List.mem_map_of_mem hl
    · obtain ⟨m, hm, rfl⟩ := List.mem_map.1 hl
      obtain ⟨i, hi, hget⟩ := List.getElem_of_mem hm
      rw [number_demote, Vocabulary.number_of_linesAt (List.getElem?_eq_some_iff.2 ⟨hi, hget⟩)]
      omega
  · simp [takes_closing hd k (by omega) l hl] at htakes

/-- Among the lines of a text, those of the node keep their order. -/
theorem sorted_of_wrap {seg : List Line} (hcode : Dialect.get? code = some d) (hk : k ≠ feature)
    (hsub : seg.Sublist (linesIn d (some 1) (k.wrap code d source))) :
    ((numbers k.takes seg).map (· - (k.opening code d).length)).Pairwise (· < ·) := by
  have hsorted : (numbers k.takes seg).Pairwise (· < ·) := List.Pairwise.sublist
    (numbers_sublist hsub) (List.pairwise_map.2 ((pairwise_linesIn d (some 1) _).filter _))
  refine List.pairwise_map.2 (hsorted.imp_of_mem fun {n m} hn hm hlt => ?_)
  obtain ⟨l, hl, htakes, rfl⟩ := mem_numbers_iff.1 hn
  have hlow := (mem_of_wrap hcode hk (hsub.subset hl) htakes).2
  omega

/-- The excerpts of what is read from a text that holds a single node are sound. -/
theorem sound_of_readWith {α : Type} {ofData : Excerpt → Data → α} {absent x : α}
    {plan : α → Plan (Option Origin)} (hplanned : Planned ofData plan k.plan) (hk : k ≠ feature)
    (h : k.readWith ofData absent code source = .ok x) :
    ∃ t : Plan Data, plan x = (t.cut (.whole source)).origins ∧
      (t.cut (.whole source)).Sound source := by
  obtain ⟨d, doc, node, hcode, hreading, hnode, rfl⟩ := exists_of_readWith hk h
  obtain ⟨seg, hsub, hon⟩ := on_of_extract hk hreading hnode
  have hsorted := sorted_of_wrap hcode hk hsub
  have hmem : ∀ n ∈ (numbers k.takes seg).map (· - (k.opening code d).length),
      ∃ l ∈ linesIn d none source, k.takes l.kind ∧ l.number = n := by
    intro n hn
    obtain ⟨m, hm, rfl⟩ := List.mem_map.1 hn
    obtain ⟨l, hl, htakes, rfl⟩ := mem_numbers_iff.1 hm
    refine ⟨_, (mem_of_wrap hcode hk (hsub.subset hl) htakes).1, ?_, rfl⟩
    rwa [Line.lowered, demoted_of_takes htakes]
  have hlow := hon.lower (k.opening code d).length
  rw [map_plan hk] at hlow
  refine ⟨_, hplanned _ _, ?_⟩
  generalize (numbers k.takes seg).map (· - (k.opening code d).length) = ns at hsorted hmem hlow
  generalize node.lowerLines (k.opening code d).length = own at hlow
  cases hplan : k.plan own with
  | mk e marks ps =>
    rw [hplan, Plan.On] at hlow
    obtain ⟨as, bs, rfl, hroot, hblocks⟩ := hlow
    have hbounds : ∀ {t : Data}, (∃ n ∈ as, t.line? = some n) →
        ∃ n, t.line? = some n ∧ 1 ≤ n ∧ n ≤ source.lines.length := by
      rintro t ⟨n, hn, hline⟩
      obtain ⟨l, hl, -, rfl⟩ := hmem n (List.mem_append_left bs hn)
      exact ⟨_, hline, bounds_of_mem hl⟩
    have hmarks := fun m hm => hbounds (hroot.tags m (hroot.marks hm))
    by_cases hcomment : k = comment
    · -- a comment is no line of some meaning, but has no blocks either
      obtain rfl : ps = [] := by
        subst hcomment
        exact (Plan.mk.inj hplan).2.2.symm
      have hnone : Plan.Keeps source (.whole source) [] := ⟨.nil, by simp, by simp⟩
      exact Plan.sound_whole (hbounds hroot.own) hmarks trivial hnone
    · refine Plan.sound_whole (hbounds hroot.own) hmarks hblocks
        ⟨(List.pairwise_append.1 hsorted).2.1, fun n hn => ?_, fun n hn => ?_⟩ <;>
        obtain ⟨l, hl, htakes, rfl⟩ := hmem n (List.mem_append_right as hn)
      · exact (bounds_of_mem hl).2
      · refine solid_of_mem hl ?_
        cases hkind : l.kind <;> simp_all [takes, LineKind.isTrivia]

end Snippet

theorem Feature.sound_of_parse {code source : Text} {f : Feature}
    (h : Feature.parse code source = .ok f) :
    f = {} ∨ ∃ t : Plan Data, f.plan = (t.cut (.whole source)).origins ∧
      (t.cut (.whole source)).Sound source := by
  obtain rfl | ⟨doc, node, hparse, hfeature, rfl⟩ := Feature.exists_of_parse h
  · exact .inl rfl
  · exact .inr ⟨_, Feature.planned _ _, sound_feature hparse hfeature⟩

theorem FeatureFile.sound_of_parse {code path source : Text} {file : FeatureFile}
    (h : FeatureFile.parse code path source = .ok file) :
    ∀ f ∈ file.feature, ∃ t : Plan Data, f.plan = (t.cut (.whole source)).origins ∧
      (t.cut (.whole source)).Sound source := by
  intro f hf
  obtain ⟨doc, node, hparse, hfeature, rfl⟩ := FeatureFile.exists_of_parse h f hf
  exact ⟨_, Feature.planned _ _, sound_feature hparse hfeature⟩

/-- Whatever a text is read as, the origins in the element are those that cutting the whole text
along the plan of some data gives, and all the excerpts of this cut are sound: each is a run of the
text's lines around its node's line and inside the run of the node above it, apart from those of its
siblings and after the ones before them; no line of a tag or a comment is moved and no bound is out
of range. A text without a feature gives an element without origins. -/
theorem Element.cut_of_parse {k : Kind} {code path source : Text} {e : Element}
    (h : Element.parse? k code path source = some (.ok e)) :
    e = .feature {} ∨ ∀ p ∈ e.plans, ∃ t : Plan Data, p = (t.cut (.whole source)).origins ∧
      (t.cut (.whole source)).Sound source := by
  cases k with
  | directory => cases h
  | featureFile =>
    obtain ⟨file, hread, rfl⟩ := exists_ok_of_map h
    exact .inr (List.forall_mem_map.2 fun f hf =>
      FeatureFile.sound_of_parse hread f (Option.mem_toList.1 hf))
  | feature =>
    obtain ⟨f, hread, rfl⟩ := exists_ok_of_map h
    exact (Feature.sound_of_parse hread).imp (congrArg Element.feature) List.forall_mem_singleton.2
  | background =>
    obtain ⟨b, hread, rfl⟩ := exists_ok_of_map h
    exact .inr (List.forall_mem_singleton.2
      (Snippet.sound_of_readWith Background.planned (by decide) hread))
  | scenario =>
    obtain ⟨s, hread, rfl⟩ := exists_ok_of_map h
    exact .inr (List.forall_mem_singleton.2
      (Snippet.sound_of_readWith Scenario.planned (by decide) hread))
  | outline =>
    obtain ⟨o, hread, rfl⟩ := exists_ok_of_map h
    exact .inr (List.forall_mem_singleton.2
      (Snippet.sound_of_readWith Outline.planned (by decide) hread))
  | «example» =>
    obtain ⟨x, hread, rfl⟩ := exists_ok_of_map h
    exact .inr (List.forall_mem_singleton.2
      (Snippet.sound_of_readWith Example.planned (by decide) hread))
  | step =>
    obtain ⟨s, hread, rfl⟩ := exists_ok_of_map h
    exact .inr (List.forall_mem_singleton.2
      (Snippet.sound_of_readWith Step.planned (by decide) hread))
  | tag =>
    obtain ⟨t, hread, rfl⟩ := exists_ok_of_map h
    exact .inr (List.forall_mem_singleton.2
      (Snippet.sound_of_readWith Tag.planned (by decide) hread))
  | comment =>
    obtain ⟨c, hread, rfl⟩ := exists_ok_of_map h
    exact .inr (List.forall_mem_singleton.2
      (Snippet.sound_of_readWith Comment.planned (by decide) hread))

/-- An outline with a comment before its tag and two blocks of examples, of which the first one has a
comment under it. -/
theorem Element.cut_of_parse_outline :
    let source : Text := "# a
@b
Scenario Outline: c
  Given d
    | e |

Examples:
| p |
# f
@g
Examples:
| q |".toList
    ∃ o, ∃ t : Plan Data,
      Element.parse? .outline Dialect.defaultCode [] source = some (.ok (.outline o)) ∧
      o.examples.map (fun x => x.origin.map (·.text)) =
        [some "Examples:\n| p |".toList, some "@g\nExamples:\n| q |".toList] ∧
      o.plan = (t.cut (.whole source)).origins ∧ (t.cut (.whole source)).Sound source := by
  intro source
  have hexamples : (Outline.parse Dialect.defaultCode source).toOption.map (fun o =>
      o.examples.map fun x => x.origin.map (·.text)) =
        some [some "Examples:\n| p |".toList, some "@g\nExamples:\n| q |".toList] := by
    decide +kernel
  cases hread : Outline.parse Dialect.defaultCode source with
  | error failure => simp [hread, Except.toOption] at hexamples
  | ok o =>
    rw [hread] at hexamples
    have hparse :
        Element.parse? .outline Dialect.defaultCode [] source = some (.ok (.outline o)) := by
      rw [Element.parse?, hread]
      rfl
    obtain hnone | hplans := Element.cut_of_parse hparse
    · cases hnone
    · obtain ⟨t, hplan, hsound⟩ := hplans o.plan (List.mem_singleton_self _)
      exact ⟨o, t, hparse, Option.some.inj hexamples, hplan, hsound⟩

end Gherkin
