import Gherkin.Proofs.Element.Shift
import Gherkin.Proofs.Element.Sound

/-! The texts of the steps that are read from a text. A step has the text of its own lines, because
its excerpt ends where the next block begins. Nothing bounds the last step of a background, a
scenario or an outline without examples that is read on its own: such a step takes the rest of the
text, with the blocks that come after the one that is read. -/

open Gherkin.Document Gherkin.Document.Parser

namespace Gherkin

/-! ### The end of a text -/

/-- The last line that is neither blank nor a comment. -/
structure Excerpt.EndsAt (lines : List Text) (n : ℕ) : Prop where
  solid : Solid lines n
  idle : ∀ m, n < m → m ≤ lines.length → isIdle (lines[m - 1]?.getD [])

/-- The text of the step begins with its own line and goes on to the end of the text. -/
def Step.RunsOn (lines : List Text) (s : Step) : Prop :=
  ∃ first last final, s.Reaches lines first last ∧ last ≤ final ∧ Excerpt.EndsAt lines final ∧
    s.origin.map (·.text) = some (Text.run lines first final)

variable {lines : List Text} {source : Text} {s : Step} {first last n m : ℕ}

theorem Excerpt.Solid.le_length (h : Solid lines n) : n ≤ lines.length := by
  by_contra hlong
  have hnone : lines[n - 1]? = none := List.getElem?_eq_none (by omega)
  have hsolid := h.2
  rw [hnone] at hsolid
  cases hsolid

theorem Excerpt.EndsAt.unique (h : EndsAt lines n) (h' : EndsAt lines m) : n = m := by
  have hle {n m : ℕ} (h : EndsAt lines n) (h' : EndsAt lines m) : m ≤ n := by
    by_contra hlt
    have hidle := h.idle m (by omega) h'.solid.le_length
    rw [h'.solid.2] at hidle
    cases hidle
  exact le_antisymm (hle h' h) (hle h h')

/-- From a line that has a meaning on, the lines that are kept go on to the end of the text. -/
theorem Excerpt.Solid.endsAt (h : Solid lines n) (hfirst : first ≤ n) :
    EndsAt lines (lastKept lines first lines.length) where
  solid := by
    have hkept : n ≤ lastKept lines first lines.length := h.le_lastKept h.le_length
    rcases Nat.eq_or_lt_of_le (hfirst.trans hkept) with hsame | hlt
    · rwa [← le_antisymm hkept (hsame ▸ hfirst)]
    · exact solid_lastKept hlt
  idle _ hm hml := isIdle_of_lastKept_lt hm hml

/-- The text of some lines tells how many they are. -/
theorem Text.run_inj (hpos : 1 ≤ first) (hn : first ≤ n) (hm : first ≤ m)
    (hnl : n ≤ source.lines.length) (hml : m ≤ source.lines.length)
    (h : Text.run source.lines first n = Text.run source.lines first m) : n = m := by
  have hlength {k : ℕ} (hk : first ≤ k) (hkl : k ≤ source.lines.length) :
      (Text.run source.lines first k).lines.length = k + 1 - first := by
    have hrun : Excerpt.IsRun source ⟨source.lines, first, k⟩ := ⟨rfl, hpos, hk, hkl⟩
    have hslice : ((source.lines.take k).drop (first - 1)).length = k + 1 - first :=
      hrun.length_slice
    rw [Text.run, Page.lines_unlines (List.ne_nil_of_length_pos (by omega))
      fun t ht => Text.not_mem_lines (List.mem_of_mem_take (List.mem_of_mem_drop ht))]
    exact hslice
  have hsame := hlength hn hnl
  rw [h, hlength hm hml] at hsame
  omega

/-- A step that runs on has the text of its own lines just when the text ends with them. -/
theorem Step.RunsOn.covers_iff (h : s.RunsOn source.lines) :
    s.Covers source.lines ↔
      ∃ first last, s.Reaches source.lines first last ∧ Excerpt.EndsAt source.lines last := by
  obtain ⟨first, last, final, hreaches, hle, hends, htext⟩ := h
  constructor
  · rintro ⟨first', last', hreaches', hlast, htext'⟩
    obtain ⟨rfl, rfl⟩ := hreaches.unique hreaches'
    have hsame := Option.some.inj (htext.symm.trans htext')
    obtain rfl := Text.run_inj hreaches.pos (hreaches.le.trans hle) hreaches.le
      hends.solid.le_length hlast hsame
    exact ⟨_, _, hreaches, hends⟩
  · rintro ⟨first', last', hreaches', hends'⟩
    obtain ⟨rfl, rfl⟩ := hreaches.unique hreaches'
    obtain rfl := hends.unique hends'
    exact ⟨_, _, hreaches, hends.solid.le_length, htext⟩

/-! ### The steps of an element -/

/-- All steps of a feature. -/
def Feature.steps (f : Feature) : List Step :=
  f.background.toList.flatMap (·.steps) ++ f.tests.flatMap Test.steps

/-- All steps in an element. -/
def Element.allSteps : Element → List Step
  | .featureFile f => f.feature.toList.flatMap Feature.steps
  | .feature f => f.steps
  | .background b => b.steps
  | .scenario s => s.steps
  | .outline o => o.steps
  | .directory _ | .example _ | .step _ | .tag _ | .comment _ => []

/-- The last step of a block of its own, unless examples come after it. -/
def Element.openStep? : Element → Option Step
  | .background b => b.steps.getLast?
  | .scenario s => s.steps.getLast?
  | .outline o => if o.examples.isEmpty then o.steps.getLast? else none
  | _ => none

/-! ### Features -/

variable {code : Text} {d : Dialect} {header : Option ℕ}

theorem covers_of_isPlaced (hcode : Dialect.get? code = some d)
    (h : (Element.step s).IsPlaced d header source) : s.Covers source.lines := by
  cases h with
  | step h => exact h.covers hcode

theorem Feature.step_mem_elements {f : Feature} (h : s ∈ f.steps) :
    Element.step s ∈ f.background.toList.flatMap Background.elements ++
      f.tests.flatMap Test.elements := by
  rcases List.mem_append.1 h with h | h
  · obtain ⟨b, hb, hs⟩ := List.mem_flatMap.1 h
    exact List.mem_append_left _ (List.mem_flatMap.2
      ⟨b, hb, List.mem_cons_of_mem _ (List.mem_map_of_mem hs)⟩)
  · obtain ⟨t, ht, hs⟩ := List.mem_flatMap.1 h
    refine List.mem_append_right _ (List.mem_flatMap.2 ⟨t, ht, ?_⟩)
    cases t with
    | scenario => exact List.mem_cons_of_mem _ (List.mem_map_of_mem hs)
    | outline =>
      exact List.mem_cons_of_mem _ (List.mem_append_left _ (List.mem_map_of_mem hs))

/-- Every step of the feature of a document has the text of its own lines. -/
theorem covers_of_document {doc : Document} {f : Document.Feature}
    (hparse : Document.parse code source = .ok doc) (hf : doc.feature = some f) :
    ∀ s ∈ (Feature.ofData (.whole source) (f.normal doc.comments)).steps,
      s.Covers source.lines := by
  intro s hs
  obtain ⟨-, language, d, header, -, -, hlanguage, hreading⟩ := Document.reading_of_parse hparse
  cases hreading with
  | empty => cases hf
  | @feature tree cs hread =>
    obtain rfl : tree = f := Option.some.inj hf
    exact covers_of_isPlaced hlanguage
      (isPlaced_feature hread spans_whole _ (Feature.step_mem_elements hs))

/-! ### Steps below other lines -/

section Below

variable {W : Text} {pre : List Text} {x e : Excerpt} {node : Document.Step}

theorem Placed.first_eq {α : Type} {R : List Line → α → List Document.Comment → Prop}
    {nodeOf : α → Data} {a : α} (h : Placed d header source R a e) (hnode : BeginsAt R nodeOf) :
    e.first = (nodeOf a).startLine := by
  obtain ⟨core, hcore, hspans⟩ := h
  have hbegins := hnode hcore hspans.ordered
  obtain ⟨-, before, after, hall, hfirst, -⟩ := hspans
  rw [hfirst, begins_eq hall hbegins]

/-- A core ends with a line that has a meaning. -/
theorem Placed.solid_last {α : Type} {R : List Line → α → List Document.Comment → Prop} {a : α}
    (h : Placed d header source R a e) : Excerpt.Solid source.lines e.last := by
  obtain ⟨core, ⟨hcore, -⟩, -, before, after, hall, -, hlast⟩ := h
  obtain ⟨front, l, rfl⟩ : ∃ front l, core = front ++ [l] :=
    ⟨_, _, (List.dropLast_concat_getLast hcore.ne_nil).symm⟩
  have hl : l.kind.isTrivia = false := hcore.ends l (by simp)
  have hget : (linesIn d header source)[before.length + front.length]? = some l := by
    rw [hall]
    simp
  have hlength : e.last = before.length + front.length + 1 := by
    rw [hlast, List.length_append, List.length_singleton, Nat.add_assoc]
  rw [hlength]
  exact ⟨Nat.le_add_left 1 _, (isIdle_of_linesIn hget).trans hl⟩

variable (hcode : Dialect.get? code = some d) (hlines : W.lines = pre ++ source.lines)

include hcode hlines

/-- The lines of a step that is placed below other lines are those of the step that is read. -/
theorem Placed.reaches_lower (h : Placed d header W Reading.Step node e)
    (hpre : pre.length < e.first) :
    (Step.ofData x ((Normal.step node.toData).lowerLines pre.length)).Reaches source.lines
      (e.first - pre.length) (e.last - pre.length) := by
  have hreaches := h.reaches hcode e
  rw [hlines] at hreaches
  exact hreaches.lower hpre

theorem Placed.covers_lower (h : Placed d header W Reading.Step node (x.below pre))
    (hpre : pre.length < (Normal.step node.toData).startLine) :
    (Step.ofData x ((Normal.step node.toData).lowerLines pre.length)).Covers source.lines := by
  rw [← h.first_eq begins_step] at hpre
  have hreaches := h.reaches_lower hcode hlines hpre (x := x)
  have hrun := h.isRun
  have hlength := congrArg List.length hlines
  rw [List.length_append] at hlength
  have hfirst : (x.below pre).first - pre.length = x.first := Nat.add_sub_cancel_left _ _
  have hlast : (x.below pre).last - pre.length = x.last := Nat.add_sub_cancel_left _ _
  rw [hfirst, hlast] at hreaches
  have hle : pre.length + x.last ≤ W.lines.length := hrun.last_le
  have hsame : pre ++ x.lines = pre ++ source.lines := hrun.lines.trans hlines
  have hown : x.IsRun source :=
    ⟨List.append_cancel_left hsame, hreaches.pos, hreaches.le, by omega⟩
  exact ⟨x.first, x.last, hreaches, hown.last_le, congrArg some hown.text_eq⟩

/-- A step whose excerpt is cut only where the text ends takes all of the text from its line on. -/
theorem Placed.runsOn (h : Placed d header W Reading.Step node e) (hpre : pre.length < e.first) :
    (Step.ofData ((Excerpt.whole source).trimmed (e.first - pre.length) source.lines.length)
      ((Normal.step node.toData).lowerLines pre.length)).RunsOn source.lines := by
  have hrun := h.isRun
  have hlength := congrArg List.length hlines
  rw [List.length_append] at hlength
  have hle := hrun.le
  have hlast := hrun.last_le
  have hsolid : Excerpt.Solid source.lines (e.last - pre.length) := by
    have hsolid := h.solid_last
    rw [hlines] at hsolid
    exact (Excerpt.solid_below (by omega)).1 hsolid
  have hkept : e.last - pre.length ≤
      Excerpt.lastKept source.lines (e.first - pre.length) source.lines.length :=
    hsolid.le_lastKept hsolid.le_length
  refine ⟨_, _, Excerpt.lastKept source.lines (e.first - pre.length) source.lines.length,
    h.reaches_lower hcode hlines hpre, hkept, hsolid.endsAt (Nat.sub_le_sub_right hle _), ?_⟩
  have hcut : ((Excerpt.whole source).trimmed (e.first - pre.length) source.lines.length).IsRun
      source :=
    (Excerpt.isRun_whole source).trimmed (by simp only [Excerpt.whole]; omega) (by omega) le_rfl
  have hend : ((Excerpt.whole source).trimmed (e.first - pre.length) source.lines.length).last =
      Excerpt.lastKept source.lines (e.first - pre.length) source.lines.length :=
    max_eq_right ((Nat.sub_le_sub_right hle _).trans hkept)
  rw [← hend]
  exact congrArg some hcut.text_eq

/-! ### The steps of a block below other lines -/

variable {steps : List Document.Step} {later : List Data} {data : Data}
  (hitems : data.itemsAt "steps" = steps.map fun s => Normal.step s.toData)
  (hsteps : List.Forall₂ (Placed d header W Reading.Step) steps
    ((e.splitAt ((steps.map fun s => Normal.step s.toData) ++ later)).take steps.length))
  (hsame : e.lines = pre ++ source.lines)
  (hnodes : ∀ node ∈ (steps.map fun s => Normal.step s.toData) ++ later,
    node.line?.isSome ∧ pre.length < node.startLine ∧ node.startLine ≤ e.last ∧
      node.startLine ≤ pre.length + source.lines.length)

/-- Steps that are cut where the next one begins have the texts of their lines. -/
theorem covers_front {es : List Excerpt}
    (hplaced : List.Forall₂ (Placed d header W Reading.Step) steps
      ((es.map (Excerpt.below pre)).take steps.length))
    (hstart : ∀ s ∈ steps, pre.length < (Normal.step s.toData).startLine) :
    ∀ s ∈ (steps.map fun s => (Normal.step s.toData).lowerLines pre.length).zipWith
      (fun node part => Step.ofData part node) es, s.Covers source.lines := by
  intro s hs
  rw [List.zipWith_map_left] at hs
  rw [← List.map_take, List.forall₂_map_right_iff] at hplaced
  obtain ⟨node, part, ⟨hpre, hpart⟩, rfl⟩ :=
    exists_of_mem_zipWith ((List.forall₂_and_left _ _).2 ⟨hstart, hplaced⟩) hs
  exact hpart.covers_lower hcode hlines hpre

include hitems hsteps hsame hnodes

/-- All steps have the texts of their lines, if something of the block comes after them. -/
theorem covers_of_later (hlater : later ≠ []) :
    ∀ s ∈ Step.listOfData (.whole source) (data.lowerLines pre.length)
      (later.map (Data.lowerLines pre.length)), s.Covers source.lines := by
  obtain ⟨more, node, rfl⟩ := (List.eq_nil_or_concat' later).resolve_left hlater
  rw [← List.append_assoc] at hsteps hnodes
  obtain ⟨es, hlength, hx, he⟩ := Excerpt.exists_splitAt_below (x := .whole source) hsame hnodes
  rw [List.length_append, List.length_map] at hlength
  have hes : steps.length ≤ es.length := by omega
  rw [he, List.take_append_of_le_length (by simpa using hes)] at hsteps
  have hplaced : List.Forall₂ (Placed d header W Reading.Step) steps
      (((es ++ [(Excerpt.whole source).trimmed (node.startLine - pre.length)
        source.lines.length]).map (Excerpt.below pre)).take steps.length) := by
    rwa [List.map_append, List.take_append_of_le_length (by simpa using hes)]
  rw [Step.listOfData, Data.itemsAt_lowerLines _ (by decide), hitems, ← List.map_append,
    ← List.append_assoc, hx, List.map_map]
  exact covers_front hcode hlines hplaced fun s hs =>
    (hnodes _ (by simp [List.mem_map_of_mem hs])).2.1

/-- If the steps are all that there is of the block, the last one runs on. -/
theorem runsOn_of_last (hlater : later = []) {read : List Gherkin.Step}
    (hread : read = Step.listOfData (.whole source) (data.lowerLines pre.length) []) :
    (∀ s ∈ read, read.getLast? ≠ some s → s.Covers source.lines) ∧
      ∀ s, read.getLast? = some s → s.RunsOn source.lines := by
  subst hlater
  rw [Step.listOfData, Data.itemsAt_lowerLines _ (by decide), hitems, List.append_nil] at hread
  rw [List.append_nil] at hsteps hnodes
  obtain rfl | ⟨front, last, rfl⟩ := List.eq_nil_or_concat' steps
  · subst hread
    exact ⟨by simp, by simp⟩
  · rw [List.map_append, List.map_singleton] at hsteps hnodes hread
    obtain ⟨es, hlength, hx, he⟩ := Excerpt.exists_splitAt_below (x := .whole source) hsame hnodes
    rw [List.length_map] at hlength
    rw [he, List.take_of_length_le (by simp [hlength])] at hsteps
    have hfront := List.forall₂_take_append _ _ _ hsteps
    have hlast := List.forall₂_drop_append _ _ _ hsteps
    rw [List.length_map, hlength, List.take_left] at hfront
    rw [List.length_map, hlength, List.drop_left, List.forall₂_cons] at hlast
    have hfirst : (e.trimmed (Normal.step last.toData).startLine e.last).first =
      (Normal.step last.toData).startLine := rfl
    have hruns := hlast.1.runsOn hcode hlines (by rw [hfirst]; exact (hnodes _ (by simp)).2.1)
    rw [hx, List.map_append, List.zipWith_append (by simp [hlength])] at hread
    subst hread
    rw [← List.take_of_length_le (i := front.length) (l := es.map (Excerpt.below pre))
      (by simp [hlength])] at hfront
    have hcovers := covers_front hcode hlines hfront
      fun s hs => (hnodes _ (by simp [List.mem_map_of_mem hs])).2.1
    rw [List.map_map, List.map_singleton, List.zipWith_cons_cons, List.zipWith_nil_left,
      List.getLast?_concat]
    refine ⟨fun s hs hne => ?_, fun s hs => ?_⟩
    · rcases List.mem_append.1 hs with hs | hs
      · exact hcovers s hs
      · exact absurd (congrArg some (List.mem_singleton.1 hs).symm) hne
    · obtain rfl := Option.some.inj hs
      exact hruns

end Below

/-! ### Blocks on their own -/

variable {before seg after : List Line}

theorem Excerpt.spans_of_eq (hall : linesIn d header source = before ++ (seg ++ after)) :
    Excerpt.Spans d header source
      ⟨source.lines, before.length + 1, before.length + seg.length⟩ seg :=
  ⟨rfl, before, after, hall, rfl, rfl⟩

namespace Snippet

variable {k : Snippet}

theorem lines_wrap_of_closing (hcode : Dialect.get? code = some d) (hk : k ≠ feature)
    (hclosing : k.closing d = []) (source : Text) :
    (k.wrap code d source).lines = k.opening code d ++ source.lines := by
  rw [lines_wrap hcode hk, hclosing, List.append_nil]

/-- The parts of a node begin inside its lines, below those put before the text. -/
theorem starts_of_on (hcode : Dialect.get? code = some d) (hk : k ≠ feature)
    (hall : linesIn d (some 1) (k.wrap code d source) = before ++ (seg ++ after)) {own : Data}
    {marks : List Data} {ps : List (Plan Data)}
    (hon : (Plan.mk own marks ps).On (numbers k.takes seg)) :
    ∀ node ∈ ps.map Plan.own, node.line?.isSome ∧ (k.opening code d).length < node.startLine ∧
      node.startLine ≤ before.length + seg.length ∧
      node.startLine ≤ (k.opening code d).length + source.lines.length := by
  rw [Plan.On] at hon
  obtain ⟨as, bs, hns, -, hblocks⟩ := hon
  refine List.forall_mem_map.2 fun p hp => ?_
  obtain ⟨cs, hcs, hp⟩ := hblocks.exists_on p hp
  obtain ⟨l, hl, htakes, hnumber⟩ := mem_numbers_iff.1
    (hns ▸ List.mem_append_right as (hcs hp.startLine_mem))
  obtain ⟨i, hi, hget⟩ := List.getElem_of_mem hl
  have hline : (linesIn d (some 1) (k.wrap code d source))[before.length + i]? = some l := by
    rw [hall, List.getElem?_append_right (Nat.le_add_right _ _), Nat.add_sub_cancel_left,
      List.getElem?_append_left hi]
    exact List.getElem?_eq_some_iff.2 ⟨hi, hget⟩
  obtain ⟨hlow, hpre⟩ := mem_of_wrap hcode hk (List.mem_of_getElem? hline) htakes
  have hbound : l.number - (k.opening code d).length ≤ source.lines.length := (bounds_of_mem hlow).2
  have hplace := number_of_linesIn hline
  refine ⟨hp.isSome_line?, ?_⟩
  omega

end Snippet

/-- The steps have the texts of their lines, but for an open one, which runs on. -/
def Element.StepLines (source : Text) (e : Element) : Prop :=
  (∀ s ∈ e.allSteps, e.openStep? ≠ some s → s.Covers source.lines) ∧
    ∀ s, e.openStep? = some s → s.RunsOn source.lines

theorem Background.stepLines_of_parse {b : Background} (h : Background.parse code source = .ok b) :
    (Element.background b).StepLines source := by
  obtain ⟨d, doc, node, hcode, hreading, hnode, rfl⟩ := Snippet.exists_of_readWith (by decide) h
  obtain ⟨tree, before, seg, after, cs, rfl, hall, hb⟩ := exists_of_background hreading hnode
  have hlines := Snippet.lines_wrap_of_closing (k := .background) hcode (by decide) rfl source
  have hspans := Excerpt.spans_of_eq hall
  have hstarts := Snippet.starts_of_on hcode (by decide) hall
    (on_background (by simp [Snippet.takes]) (by simp [Snippet.takes]) hb)
  rw [map_own_map fun _ => rfl, Child.node, itemsAt_steps_background] at hstarts
  exact runsOn_of_last hcode hlines (itemsAt_steps_background _) (placed_steps_background hb hspans)
    hlines (by simpa using hstarts) rfl rfl

theorem Scenario.stepLines_of_parse {s : Scenario} (h : Scenario.parse code source = .ok s) :
    (Element.scenario s).StepLines source := by
  obtain ⟨d, doc, node, hcode, hreading, hnode, rfl⟩ := Snippet.exists_of_readWith (by decide) h
  obtain ⟨tree, before, seg, after, cs, rfl, hall, hs⟩ := exists_of_scenario hreading hnode
  have hlines := Snippet.lines_wrap_of_closing (k := .scenario) hcode (by decide) rfl source
  have hspans := Excerpt.spans_of_eq hall
  have hstarts := Snippet.starts_of_on hcode (by decide) hall
    (on_scenario (by simp [Snippet.takes]) (by simp [Snippet.takes]) (by simp [Snippet.takes]) hs)
  rw [map_own_map fun _ => rfl, Child.node, itemsAt_steps] at hstarts
  exact runsOn_of_last hcode hlines (itemsAt_steps _) (placed_steps_scenario hs hspans)
    hlines (by simpa using hstarts) rfl rfl

theorem Outline.stepLines_of_parse {o : Outline} (h : Outline.parse code source = .ok o) :
    (Element.outline o).StepLines source := by
  obtain ⟨d, doc, node, hcode, hreading, hnode, rfl⟩ := Snippet.exists_of_readWith (by decide) h
  obtain ⟨tree, before, seg, after, cs, rfl, hall, ho⟩ := exists_of_outline hreading hnode
  have hlines := Snippet.lines_wrap_of_closing (k := .outline) hcode (by decide) rfl source
  have hspans := Excerpt.spans_of_eq hall
  have hstarts := Snippet.starts_of_on hcode (by decide) hall
    (on_outline (by simp [Snippet.takes]) (by simp [Snippet.takes]) (by simp [Snippet.takes])
      (by simp [Snippet.takes]) ho)
  rw [List.map_append, map_own_map fun _ => rfl, map_own_map fun _ => rfl, Child.node,
    itemsAt_steps_outline, itemsAt_examples] at hstarts
  have hsteps := (placed_parts_outline ho hspans).1
  have hitems := itemsAt_steps_outline tree
  have hexamples : ((Child.outline tree).node.lowerLines
      (Snippet.outline.opening code d).length).itemsAt "examples" =
        (tree.examples.map fun x => Normal.examples x.toData).map
          (Data.lowerLines (Snippet.outline.opening code d).length) := by
    rw [Data.itemsAt_lowerLines _ (by decide), Child.node, itemsAt_examples]
  generalize tree.examples.map (fun x => Normal.examples x.toData) = later at *
  cases later with
  | nil =>
    have hopen := runsOn_of_last hcode hlines hitems hsteps hlines (by simpa using hstarts) rfl rfl
    rw [Child.node] at hexamples
    simpa only [Element.StepLines, Element.allSteps, Element.openStep?, ofData, Child.node,
      hexamples, List.map_nil, List.zipWith_nil_left, List.isEmpty_nil, if_true] using hopen
  | cons node more =>
    have hcovers := covers_of_later hcode hlines hitems hsteps hlines hstarts (List.cons_ne_nil _ _)
    have hopen : Element.openStep? (.outline (ofData (.whole source)
        ((Child.outline tree).node.lowerLines (Snippet.outline.opening code d).length))) = none := by
      rw [Element.openStep?, if_neg]
      simp [ofData, hexamples, ← List.length_eq_zero_iff, length_splitAt]
    rw [← hexamples] at hcovers
    exact ⟨fun s hs _ => hcovers s hs, fun s hs => by simp [hopen] at hs⟩

theorem Feature.stepLines_of_parse {f : Feature} (h : Feature.parse code source = .ok f) :
    (Element.feature f).StepLines source := by
  refine ⟨fun s hs _ => ?_, fun s hs => by cases hs⟩
  obtain rfl | ⟨doc, node, hparse, hfeature, rfl⟩ := Feature.exists_of_parse h
  · cases hs
  · exact covers_of_document hparse hfeature s hs

theorem FeatureFile.stepLines_of_parse {path : Text} {file : FeatureFile}
    (h : FeatureFile.parse code path source = .ok file) :
    (Element.featureFile file).StepLines source := by
  refine ⟨fun s hs _ => ?_, fun s hs => by cases hs⟩
  obtain ⟨f, hf, hs⟩ := List.mem_flatMap.1 hs
  obtain ⟨doc, node, hparse, hfeature, rfl⟩ :=
    FeatureFile.exists_of_parse h f (Option.mem_toList.1 hf)
  exact covers_of_document hparse hfeature s hs

/-- Whatever is read, the text of every step but an open one is that of the text's lines from the
step's own line to the last line of its argument. An open step takes all lines from its own to the
last one of the text that is neither blank nor a comment, and has the text of its lines only if the
text ends with them. -/
theorem Element.covers_or_runsOn {k : Kind} {code path source : Text} {e : Element}
    (h : Element.parse? k code path source = some (.ok e)) :
    (∀ s ∈ e.allSteps, e.openStep? ≠ some s → s.Covers source.lines) ∧
      ∀ s, e.openStep? = some s → s.RunsOn source.lines ∧
        (s.Covers source.lines ↔
          ∃ first last, s.Reaches source.lines first last ∧ Excerpt.EndsAt source.lines last) := by
  have hlines : e.StepLines source := by
    cases k with
    | directory => cases h
    | featureFile =>
      obtain ⟨file, hread, rfl⟩ := exists_ok_of_map h
      exact file.stepLines_of_parse hread
    | feature =>
      obtain ⟨f, hread, rfl⟩ := exists_ok_of_map h
      exact f.stepLines_of_parse hread
    | background =>
      obtain ⟨b, hread, rfl⟩ := exists_ok_of_map h
      exact b.stepLines_of_parse hread
    | scenario =>
      obtain ⟨s, hread, rfl⟩ := exists_ok_of_map h
      exact s.stepLines_of_parse hread
    | outline =>
      obtain ⟨o, hread, rfl⟩ := exists_ok_of_map h
      exact o.stepLines_of_parse hread
    | «example» | step | tag | comment =>
      -- no step is inside one of these
      obtain ⟨x, -, rfl⟩ := exists_ok_of_map h
      exact ⟨List.forall_mem_nil _, fun s hs => by cases hs⟩
  exact ⟨hlines.1, fun s hs => ⟨hlines.2 s hs, (hlines.2 s hs).covers_iff⟩⟩

/-- A scenario before another one. -/
theorem Element.covers_or_runsOn_scenario :
    let source : Text := "Scenario: a
  Given b
    | c |

  # d
  When e
    \"\"\"
    # f
    \"\"\"

  @g
  Scenario: h
# i".toList
    ∃ e s t, Element.parse? .scenario Dialect.defaultCode [] source = some (.ok e) ∧
      e.allSteps = [s, t] ∧ e.openStep? = some t ∧
      s.origin.map (·.text) = some "  Given b\n    | c |".toList ∧ s.Covers source.lines ∧
      t.origin.map (·.text) =
        some "  When e\n    \"\"\"\n    # f\n    \"\"\"\n\n  @g\n  Scenario: h".toList ∧
      t.RunsOn source.lines := by
  intro source
  have htexts : (Scenario.parse Dialect.defaultCode source).toOption.map (fun s =>
      s.steps.map fun t => t.origin.map (·.text)) = some [some "  Given b\n    | c |".toList,
        some "  When e\n    \"\"\"\n    # f\n    \"\"\"\n\n  @g\n  Scenario: h".toList] := by
    decide +kernel
  cases hread : Scenario.parse Dialect.defaultCode source with
  | error failure => simp [hread, Except.toOption] at htexts
  | ok scenario =>
    rw [hread] at htexts
    have hparse : Element.parse? .scenario Dialect.defaultCode [] source =
        some (.ok (.scenario scenario)) := by
      rw [Element.parse?, hread]
      rfl
    obtain ⟨hcovers, hruns⟩ := Element.covers_or_runsOn hparse
    obtain ⟨s, t, hsteps⟩ := List.length_eq_two.1 (by
      simpa using congrArg List.length (Option.some.inj htexts))
    rw [Except.toOption, Option.map_some, hsteps] at htexts
    simp only [Option.some.injEq, List.map_cons, List.map_nil, List.cons.injEq, and_true] at htexts
    have hopen : Element.openStep? (.scenario scenario) = some t := by
      rw [Element.openStep?, hsteps]
      rfl
    have hne : s ≠ t := by
      rintro rfl
      exact absurd (htexts.1.symm.trans htexts.2) (by decide +kernel)
    refine ⟨_, s, t, hparse, hsteps, hopen, htexts.1, hcovers s ?_ ?_, htexts.2, (hruns t hopen).1⟩
    · rw [Element.allSteps, hsteps]
      exact List.mem_cons_self
    · rw [hopen]
      exact fun h => hne (Option.some.inj h).symm

/-- The step takes the heading of a scenario that is left out. -/
theorem Element.not_covers_scenario :
    let source : Text := "Scenario: a\nGiven x\nScenario: b".toList
    ∃ e, ∃ s ∈ e.allSteps, Element.parse? .scenario Dialect.defaultCode [] source = some (.ok e) ∧
      ¬s.Covers source.lines := by
  intro source
  have hstep : (Scenario.parse Dialect.defaultCode source).toOption.map (fun s =>
      s.steps.map fun t => (t.block, t.origin.map fun o => (o.text, o.line))) =
        some [(none, some ("Given x\nScenario: b".toList, some 2))] := by
    decide +kernel
  cases hread : Scenario.parse Dialect.defaultCode source with
  | error failure => simp [hread, Except.toOption] at hstep
  | ok scenario =>
    rw [hread, Except.toOption, Option.map_some] at hstep
    obtain ⟨s, hsteps⟩ := List.length_eq_one_iff.1 (by
      simpa using congrArg List.length (Option.some.inj hstep))
    rw [hsteps] at hstep
    simp only [Option.some.injEq, List.map_cons, List.map_nil, List.cons.injEq, and_true,
      Prod.mk.injEq] at hstep
    obtain ⟨hblock, horigin⟩ := hstep
    obtain ⟨o, ho, hplace⟩ := Option.map_eq_some_iff.1 horigin
    obtain ⟨htext, hline⟩ := Prod.mk.inj hplace
    refine ⟨.scenario scenario, s, ?_, ?_, ?_⟩
    · rw [Element.allSteps, hsteps]
      exact List.mem_cons_self
    · rw [Element.parse?, hread]
      rfl
    · rintro ⟨first, last, hreaches, -, hown⟩
      obtain ⟨rfl, rfl⟩ := hreaches.unique (.bare ho hline (by decide) hblock)
      rw [ho, Option.map_some, htext] at hown
      exact absurd hown (by decide +kernel)

end Gherkin
