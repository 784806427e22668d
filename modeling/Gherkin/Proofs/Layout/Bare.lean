import Gherkin.Proofs.Dialect.Wildcard
import Gherkin.Proofs.Layout.RoundTrip

/-! Blocks with nothing but steps, and steps with nothing but a text. What is missing is filled in
from two places: the keyword of the header from the dialect, that of a step with the wildcard. Where
the dialect lists the wildcard the steps are read back; where it does not, they end up in the
description of their block. -/

open Gherkin.Document

namespace Gherkin

/-! ### Bare elements -/

/-- A step with nothing but a text that fits on a line. -/
structure Step.IsBare (e : Step) : Prop where
  keyword : e.keyword = []
  block : e.block = none
  trimmed : e.text.trim = e.text
  line : '\n' ∉ e.text

namespace Element

/-- The steps of a block that has some of its own. -/
def steps : Element → List Step
  | background b => b.steps
  | scenario e => e.steps
  | outline o => o.steps
  | _ => []

/-- A block that may have steps, with nothing in it but bare ones. -/
def IsBare : Element → Prop
  | background b => b.toHeading = {} ∧ ∀ e ∈ b.steps, e.IsBare
  | scenario x => x.toHeading = {} ∧ x.tags = [] ∧ ∀ e ∈ x.steps, e.IsBare
  | outline o => o.toHeading = {} ∧ o.tags = [] ∧ o.examples = [] ∧ ∀ e ∈ o.steps, e.IsBare
  | _ => False

end Element

/-! ### Their pages -/

/-- The line of a step that has the wildcard for its keyword. -/
def starLine (text : Text) : Text := '*' :: ' ' :: text

/-- The page of a block without a name, whose steps have these texts. -/
def barePage (s : Style) (block : Block) (texts : List Text) : List Text :=
  Style.nameLine (s.dialect.defaultKeyword block) [] ::
    texts.map fun text => Text.shift s.indent (starLine text)

section Pages

variable {s : Style}

/-- A step of which only the text shows. -/
def Step.ShowsText (e : Step) : Prop :=
  Style.keywordOr e.keyword Dialect.wildcard = Dialect.wildcard ∧ e.block = none ∧ '\n' ∉ e.text

theorem Step.IsBare.showsText {e : Step} (h : e.IsBare) : e.ShowsText :=
  ⟨by rw [h.keyword]; rfl, h.block, h.line⟩

theorem block_step {e : Step} (h : e.ShowsText) :
    Page.block s.indent 1 (s.step e) = [Text.shift s.indent (starLine e.text)] := by
  obtain ⟨hkeyword, hblock, hline⟩ := h
  have hstep : s.step e = Text.unlines [starLine e.text] := by
    rw [Style.step, hkeyword, hblock]
    rfl
  have hfeed : ∀ t ∈ [starLine e.text], '\n' ∉ t := by
    simp [starLine, hline]
  rw [hstep, Page.block_unlines (List.cons_ne_nil _ _) hfeed, List.map_singleton, Page.line_one]

theorem withSteps_bare (page : List Text) {steps : List Step} (h : ∀ e ∈ steps, e.ShowsText) :
    s.withSteps page [] steps =
      page ++ (steps.map Step.text).map fun text => Text.shift s.indent (starLine text) := by
  have hlines : (steps.flatMap fun e => Page.block s.indent 1 (s.step e)) =
      steps.map fun e => Text.shift s.indent (starLine e.text) := by
    rw [← List.flatMap_singleton' (steps.map _), List.flatMap_map]
    exact List.flatMap_congr fun e he => block_step (h e he)
  rw [Style.withSteps, hlines, List.map_map]
  split
  · next hnil => rw [hnil, List.map_nil, List.append_nil]
  · rfl

theorem background_bare {b : Background} (hhead : b.toHeading = {})
    (h : ∀ e ∈ b.steps, e.ShowsText) :
    s.background b = Text.unlines (barePage s .background (b.steps.map Step.text)) := by
  rw [Style.background, hhead, withSteps_bare _ h]
  rfl

theorem scenario_bare {x : Scenario} (hhead : x.toHeading = {}) (htags : x.tags = [])
    (h : ∀ e ∈ x.steps, e.ShowsText) :
    s.scenario x = Text.unlines (barePage s .scenario (x.steps.map Step.text)) := by
  rw [Style.scenario, hhead, htags, withSteps_bare _ h]
  rfl

theorem outline_bare {o : Outline} (hhead : o.toHeading = {}) (htags : o.tags = [])
    (hexamples : o.examples = []) (h : ∀ e ∈ o.steps, e.ShowsText) :
    s.outline o = Text.unlines (barePage s .outline (o.steps.map Step.text)) := by
  simp only [Style.outline, hhead, htags, hexamples, withSteps_bare _ h,
    List.foldl_nil]
  rfl

end Pages

/-! ### Steps that are read back -/

/-- The step with the wildcard for its keyword. -/
def Step.starred (e : Step) : Step := { e with keyword := Dialect.wildcard }

def Background.starred (b : Background) : Background :=
  { b with steps := b.steps.map Step.starred }

def Scenario.starred (x : Scenario) : Scenario := { x with steps := x.steps.map Step.starred }

def Outline.starred (o : Outline) : Outline := { o with steps := o.steps.map Step.starred }

section Starred

variable {code : Text} {d : Dialect} {steps : List Step}

theorem Step.IsBare.starred_showsText {e : Step} (h : e.IsBare) : e.starred.ShowsText :=
  ⟨rfl, h.block, h.line⟩

theorem Step.IsBare.wellFormed_starred (hcode : Dialect.get? code = some d)
    (hlisted : code ∉ Dialect.unstarred) {e : Step} (h : e.IsBare) : e.starred.WellFormed d where
  keyword := List.cons_ne_nil _ _
  line := h.line
  kind := by
    have hkind := Vocabulary.kindOf_star hcode hlisted e.text
    rw [h.trimmed] at hkind
    exact ⟨_, hkind, rfl⟩
  block := by
    rw [show e.starred.block = none from h.block]
    simp
  restored := by
    rw [show e.starred.block = none from h.block]
    simp

theorem wellFormed_starred (hcode : Dialect.get? code = some d)
    (hlisted : steps = [] ∨ code ∉ Dialect.unstarred) (h : ∀ e ∈ steps, e.IsBare) :
    ∀ e ∈ steps.map Step.starred, e.WellFormed d := by
  refine List.forall_mem_map.2 fun e he => ?_
  have hne : steps ≠ [] := List.ne_nil_of_mem he
  exact (h e he).wellFormed_starred hcode (hlisted.resolve_left hne)

theorem showsText_starred (h : ∀ e ∈ steps, e.IsBare) : ∀ e ∈ steps.map Step.starred, e.ShowsText :=
  List.forall_mem_map.2 fun e he => (h e he).starred_showsText

/-- There is nothing to ask of the members of an empty list. -/
theorem forall_mem_of_eq_nil {α : Type} {P : α → Prop} {items : List α} (h : items = []) :
    ∀ x ∈ items, P x := h ▸ List.forall_mem_nil P

theorem map_text_starred (steps : List Step) :
    (steps.map Step.starred).map Step.text = steps.map Step.text := by
  rw [List.map_map]
  rfl

theorem map_text_forget (steps : List Step) :
    (steps.map Step.forget).map Step.text = steps.map Step.text := by
  rw [List.map_map]
  rfl

theorem Heading.wellFormed_of_eq {h : Heading} (hh : h = {}) (d : Dialect) (block : Block) :
    h.WellFormed d block := by
  subst hh
  refine ⟨.inl rfl, rfl, by simp, rfl, fun l hl => ?_⟩
  obtain rfl := List.mem_singleton.1 hl
  rfl

end Starred

/-- An element is read back, as far as its page and the texts of its steps go, when another one with
the same page is. -/
theorem exists_parse_of_page {α : Type} {page : α → Text} {parse : Text → Except ParseError α}
    {steps : α → List Step} {forget : α → α} {x y settled : α}
    (hread : ∃ r, parse (page y) = .ok r ∧ forget r = settled) (hpage : page y = page x)
    (hsettled : page settled = page y) (hforget : ∀ r, page (forget r) = page r)
    (hsteps : ∀ r, (steps (forget r)).map Step.text = (steps r).map Step.text)
    (htexts : (steps settled).map Step.text = (steps x).map Step.text) :
    ∃ r, parse (page x) = .ok r ∧ (steps r).map Step.text = (steps x).map Step.text ∧
      page r = page x := by
  obtain ⟨r, hparse, rfl⟩ := hread
  rw [hpage] at hparse
  refine ⟨r, hparse, (hsteps r).symm.trans htexts, ?_⟩
  rw [← hforget, hsettled, hpage]

section ReadBack

variable {s : Style} (hcode : Dialect.get? s.code = some s.dialect) (hs : s.indent.IsIndent)

include hcode hs

theorem Background.exists_parse_starred {b : Background} (hhead : b.toHeading = {})
    (h : ∀ e ∈ b.steps, e.IsBare) (hlisted : b.steps = [] ∨ s.code ∉ Dialect.unstarred) :
    ∃ r, Background.parse s.code (s.background b) = .ok r ∧
      r.steps.map Step.text = b.steps.map Step.text ∧ s.background r = s.background b := by
  have hwell : b.starred.WellFormed s.dialect :=
    ⟨Heading.wellFormed_of_eq hhead _ _, wellFormed_starred hcode hlisted h⟩
  have hpage : s.background b.starred = s.background b := by
    rw [background_bare hhead fun e he => (h e he).showsText,
      @background_bare s b.starred hhead (showsText_starred h)]
    exact congrArg (fun texts => Text.unlines (barePage s .background texts)) (map_text_starred _)
  exact exists_parse_of_page (Background.exists_parse hcode hs hwell) hpage (s.background_settle _)
    s.background_forget (fun r => map_text_forget r.steps) ((map_text_forget _).trans (map_text_starred _))

theorem Scenario.exists_parse_starred {x : Scenario} (hhead : x.toHeading = {})
    (htags : x.tags = []) (h : ∀ e ∈ x.steps, e.IsBare)
    (hlisted : x.steps = [] ∨ s.code ∉ Dialect.unstarred) :
    ∃ r, Scenario.parse s.code (s.scenario x) = .ok r ∧
      r.steps.map Step.text = x.steps.map Step.text ∧ s.scenario r = s.scenario x := by
  have hwell : x.starred.WellFormed s.dialect :=
    ⟨Heading.wellFormed_of_eq hhead _ _, forall_mem_of_eq_nil htags,
      wellFormed_starred hcode hlisted h⟩
  have hpage : s.scenario x.starred = s.scenario x := by
    rw [scenario_bare hhead htags fun e he => (h e he).showsText,
      @scenario_bare s x.starred hhead htags (showsText_starred h)]
    exact congrArg (fun texts => Text.unlines (barePage s .scenario texts)) (map_text_starred _)
  exact exists_parse_of_page (Scenario.exists_parse hcode hs hwell) hpage (s.scenario_settle _)
    s.scenario_forget (fun r => map_text_forget r.steps) ((map_text_forget _).trans (map_text_starred _))

theorem Outline.exists_parse_starred {o : Outline} (hhead : o.toHeading = {}) (htags : o.tags = [])
    (hexamples : o.examples = []) (h : ∀ e ∈ o.steps, e.IsBare)
    (hlisted : o.steps = [] ∨ s.code ∉ Dialect.unstarred) :
    ∃ r, Outline.parse s.code (s.outline o) = .ok r ∧
      r.steps.map Step.text = o.steps.map Step.text ∧ s.outline r = s.outline o := by
  have hwell : o.starred.WellFormed s.dialect :=
    ⟨Heading.wellFormed_of_eq hhead _ _, forall_mem_of_eq_nil htags,
      wellFormed_starred hcode hlisted h, forall_mem_of_eq_nil hexamples⟩
  have hpage : s.outline o.starred = s.outline o := by
    rw [outline_bare hhead htags hexamples fun e he => (h e he).showsText,
      @outline_bare s o.starred hhead htags hexamples (showsText_starred h)]
    exact congrArg (fun texts => Text.unlines (barePage s .outline texts)) (map_text_starred _)
  exact exists_parse_of_page (Outline.exists_parse hcode hs hwell) hpage (s.outline_settle _)
    s.outline_forget (fun r => map_text_forget r.steps) ((map_text_forget _).trans (map_text_starred _))

end ReadBack

/-! ### Steps that are lost -/

/-- A page whose lines are read, whatever they are, as a node with a property. -/
theorem exists_readWith_of_written {α β : Type} {code : Text} {d : Dialect} {k : Snippet}
    {before page : List Text} {R : List Line → α → List Document.Comment → Prop} {plain : α → β}
    {ofData : Excerpt → Data → β} {forget : β → β} {P : β → Prop}
    (hframe : Frames d code k before R plain ofData forget) (hunplaced : Unplaced forget ofData)
    (absent : β) (hcode : Dialect.get? code = some d)
    (hopening : k.opening code d = Snippet.languageLine code :: before) (hclosing : k.closing d = [])
    (hne : page ≠ []) (hline : ∀ t ∈ page, t.IsLine)
    (h : ∀ ls, Written d.vocabulary [] page ls → ∃ a, R ls a [] ∧ P (plain a)) :
    ∃ r, k.readWith ofData absent code (Text.unlines page) = .ok r ∧ P (forget r) := by
  have hlines : ∀ t ∈ before ++ page, t.IsLine := List.forall_mem_append.2 ⟨hframe.line, hline⟩
  have hw : Written d.vocabulary [] (before ++ page)
      ((d.vocabulary.linesAt 1 (before ++ page)).map (demote (some 1))) :=
    written_linesAt d.vocabulary (by simp) hlines
  obtain ⟨hs, ls, hsplit, hhs, hls⟩ := Written.append_iff.1 hw
  obtain ⟨a, ha, hP⟩ := h ls hls
  obtain ⟨f, hf, hplain⟩ := hframe.reading Text.IsIndent.nil hhs ha
  rw [← hsplit] at hf
  obtain ⟨r, hr, hforget⟩ := readWith_of_parse hunplaced absent hcode (by
    rw [wrap_eq hopening hclosing hne]
    exact parse_languageLine hcode hcode (fun t ht => (hlines t ht).1) hf) hplain
  exact ⟨r, hr, hforget ▸ hP⟩

section Lost

variable {s : Style} (hcode : Dialect.get? s.code = some s.dialect) (hs : s.indent.IsIndent)

theorem isLine_starLine {text : Text} (htrim : text.trim = text) (hline : '\n' ∉ text) :
    (starLine text).IsLine := by
  refine ⟨by simp [starLine, hline], ?_⟩
  cases text with
  | nil => decide
  | cons c cs =>
    have hlast := (Text.isLine_of_trimEnd hline (Text.trim_eq_self_iff.1 htrim).2).2
    rw [starLine, List.getLast?_cons_of_ne_nil (List.cons_ne_nil _ _),
      List.getLast?_cons_of_ne_nil (List.cons_ne_nil _ _)]
    exact hlast

include hcode hs

theorem isLine_barePage (block : Block) {steps : List Step} (h : ∀ e ∈ steps, e.IsBare) :
    ∀ t ∈ barePage s block (steps.map Step.text), t.IsLine := by
  have hd := Dialect.sound_of_get? hcode
  refine List.forall_mem_cons.2 ⟨isLine_nameLine hd (hd.defaultKeyword_mem block)
    (Heading.wellFormed_of_eq rfl _ block), List.forall_mem_map.2 ?_⟩
  refine List.forall_mem_map.2 fun e he => ?_
  exact (isLine_starLine (h e he).trimmed (h e he).line).shift hs.line

/-- Without the wildcard, the whole page is a header with a description. -/
theorem exists_headed_bare (hlisted : s.code ∈ Dialect.unstarred) {block : Block}
    {texts : List Text} {ls : List Line}
    (hw : Written s.dialect.vocabulary [] (barePage s block texts) ls) :
    ∃ head, Reading.Headed block ls head [] := by
  have hd := Dialect.sound_of_get? hcode
  obtain ⟨l, body, rfl, -, hkind, hbody⟩ := Written.cons_iff.1 hw
  rw [Vocabulary.plainKind_nameLine hd block Text.trim_nil] at hkind
  refine ⟨_, .mk .nil hkind fun x hx => ?_⟩
  obtain ⟨t, ht, -, hx⟩ := hbody.exists_of_mem hx
  obtain ⟨text, -, rfl⟩ := List.mem_map.1 ht
  have hother : s.dialect.vocabulary.plainKind (starLine text) = .other :=
    Vocabulary.plainKind_of_ne (Vocabulary.kindOf_star_other hcode hlisted _) (by simp)
  rw [hx, Vocabulary.plainKind_shift hs.blank, hother]
  rfl

variable (hlisted : s.code ∈ Dialect.unstarred)

include hlisted

theorem Background.exists_parse_lost {b : Background} (hhead : b.toHeading = {})
    (h : ∀ e ∈ b.steps, e.IsBare) :
    ∃ r, Background.parse s.code (s.background b) = .ok r ∧ r.steps = [] := by
  have hd := Dialect.sound_of_get? hcode
  rw [background_bare hhead fun e he => (h e he).showsText]
  obtain ⟨r, hparse, hr⟩ := exists_readWith_of_written (P := fun b : Background => b.steps = [])
    (frames_background hd s.code) Background.unplaced {} hcode rfl rfl (List.cons_ne_nil _ _)
    (isLine_barePage hcode hs .background h) fun ls hw => by
      obtain ⟨head, hh⟩ := exists_headed_bare hcode hs hlisted hw
      have hread := Reading.Background.mk hh (.nil .nil)
      rw [List.append_nil] at hread
      exact ⟨⟨head, []⟩, hread, rfl⟩
  exact ⟨r, hparse, List.map_eq_nil_iff.1 hr⟩

theorem Scenario.exists_parse_lost {x : Scenario} (hhead : x.toHeading = {}) (htags : x.tags = [])
    (h : ∀ e ∈ x.steps, e.IsBare) :
    ∃ r, Scenario.parse s.code (s.scenario x) = .ok r ∧ r.steps = [] := by
  have hd := Dialect.sound_of_get? hcode
  rw [scenario_bare hhead htags fun e he => (h e he).showsText]
  obtain ⟨r, hparse, hr⟩ := exists_readWith_of_written (P := fun x : Scenario => x.steps = [])
    (frames_scenario hd s.code) Scenario.unplaced {} hcode rfl rfl (List.cons_ne_nil _ _)
    (isLine_barePage hcode hs .scenario h) fun ls hw => by
      obtain ⟨head, hh⟩ := exists_headed_bare hcode hs hlisted hw
      have hread := Reading.Test.scenario (.nil .nil) hh (.nil .nil)
      rw [List.append_nil] at hread
      exact ⟨⟨head, [], []⟩, hread, rfl⟩
  exact ⟨r, hparse, List.map_eq_nil_iff.1 hr⟩

theorem Outline.exists_parse_lost {o : Outline} (hhead : o.toHeading = {}) (htags : o.tags = [])
    (hexamples : o.examples = []) (h : ∀ e ∈ o.steps, e.IsBare) :
    ∃ r, Outline.parse s.code (s.outline o) = .ok r ∧ r.steps = [] := by
  have hd := Dialect.sound_of_get? hcode
  rw [outline_bare hhead htags hexamples fun e he => (h e he).showsText]
  obtain ⟨r, hparse, hr⟩ := exists_readWith_of_written (P := fun o : Outline => o.steps = [])
    (frames_outline hd s.code) Outline.unplaced {} hcode rfl rfl (List.cons_ne_nil _ _)
    (isLine_barePage hcode hs .outline h) fun ls hw => by
      obtain ⟨head, hh⟩ := exists_headed_bare hcode hs hlisted hw
      have hread := Reading.Test.outline (.nil .nil) hh (.nil .nil) (.nil .nil)
      rw [List.append_nil, List.append_nil] at hread
      exact ⟨⟨head, [], [], []⟩, hread, rfl⟩
  exact ⟨r, hparse, List.map_eq_nil_iff.1 hr⟩

end Lost

/-! ### Any bare element -/

section Elements

variable {s : Style} (hcode : Dialect.get? s.code = some s.dialect) (hs : s.indent.IsIndent)

include hcode hs

theorem Element.exists_parse_starred {n : Element} (h : n.IsBare) (path : Text)
    (hlisted : n.steps = [] ∨ s.code ∉ Dialect.unstarred) :
    ∃ r, Element.parse? n.kind s.code path (s.render n) = some (.ok r) ∧
      r.steps.map Step.text = n.steps.map Step.text ∧ s.render r = s.render n := by
  cases n with
  | background b =>
    obtain ⟨hhead, hsteps⟩ := h
    obtain ⟨r, hparse, hr⟩ := Background.exists_parse_starred hcode hs hhead hsteps hlisted
    refine ⟨.background r, ?_, hr⟩
    exact congrArg (fun x => some (x.map Element.background)) hparse
  | scenario x =>
    obtain ⟨hhead, htags, hsteps⟩ := h
    obtain ⟨r, hparse, hr⟩ := Scenario.exists_parse_starred hcode hs hhead htags hsteps hlisted
    refine ⟨.scenario r, ?_, hr⟩
    exact congrArg (fun x => some (x.map Element.scenario)) hparse
  | outline o =>
    obtain ⟨hhead, htags, hexamples, hsteps⟩ := h
    obtain ⟨r, hparse, hr⟩ :=
      Outline.exists_parse_starred hcode hs hhead htags hexamples hsteps hlisted
    refine ⟨.outline r, ?_, hr⟩
    exact congrArg (fun x => some (x.map Element.outline)) hparse
  | directory _ | featureFile _ | feature _ | «example» _ | step _ | tag _ | comment _ =>
    exact absurd h id

theorem Element.exists_parse_lost {n : Element} (h : n.IsBare) (path : Text)
    (hlisted : s.code ∈ Dialect.unstarred) :
    ∃ r, Element.parse? n.kind s.code path (s.render n) = some (.ok r) ∧ r.steps = [] := by
  cases n with
  | background b =>
    obtain ⟨hhead, hsteps⟩ := h
    obtain ⟨r, hparse, hr⟩ := Background.exists_parse_lost hcode hs hlisted hhead hsteps
    refine ⟨.background r, ?_, hr⟩
    exact congrArg (fun x => some (x.map Element.background)) hparse
  | scenario x =>
    obtain ⟨hhead, htags, hsteps⟩ := h
    obtain ⟨r, hparse, hr⟩ := Scenario.exists_parse_lost hcode hs hlisted hhead htags hsteps
    refine ⟨.scenario r, ?_, hr⟩
    exact congrArg (fun x => some (x.map Element.scenario)) hparse
  | outline o =>
    obtain ⟨hhead, htags, hexamples, hsteps⟩ := h
    obtain ⟨r, hparse, hr⟩ := Outline.exists_parse_lost hcode hs hlisted hhead htags hexamples hsteps
    refine ⟨.outline r, ?_, hr⟩
    exact congrArg (fun x => some (x.map Element.outline)) hparse
  | directory _ | featureFile _ | feature _ | «example» _ | step _ | tag _ | comment _ =>
    exact absurd h id

end Elements

/-- A bare element can always be read again. Its steps come back with their texts, and it renders to
the same text, exactly when the dialect lists the wildcard or there are no steps. -/
theorem Element.exists_parse_bare {code indent : Text} {d : Dialect}
    (hcode : Dialect.get? code = some d) (hindent : ∀ c ∈ indent, c = ' ' ∨ c = '\t')
    {n : Element} (h : n.IsBare) (path : Text) :
    ∃ r, Element.parse? n.kind code path (Style.render ⟨indent, code⟩ n) = some (.ok r) ∧
      (r.steps.map Step.text = n.steps.map Step.text ∧
          Style.render ⟨indent, code⟩ r = Style.render ⟨indent, code⟩ n ↔
        n.steps = [] ∨ code ∉ Dialect.unstarred) := by
  have hs := Text.IsSpacing.isIndent hindent
  obtain ⟨s, rfl, rfl⟩ : ∃ s : Style, s.indent = indent ∧ s.code = code := ⟨⟨indent, code⟩, rfl, rfl⟩
  have hd : s.dialect = d := by rw [Style.dialect, hcode, Option.getD_some]
  subst hd
  by_cases hlisted : n.steps = [] ∨ s.code ∉ Dialect.unstarred
  · obtain ⟨r, hparse, hr⟩ := Element.exists_parse_starred hcode hs h path hlisted
    exact ⟨r, hparse, fun _ => hlisted, fun _ => hr⟩
  · obtain ⟨hne, hcodes⟩ := not_or.1 hlisted
    obtain ⟨r, hparse, hr⟩ := Element.exists_parse_lost hcode hs h path (not_not.1 hcodes)
    refine ⟨r, hparse, fun hsame => absurd ?_ hne, fun hor => absurd hor hlisted⟩
    have htexts := hsame.1
    rw [hr] at htexts
    exact List.map_eq_nil_iff.1 htexts.symm

/-- A scenario with two steps, one of them without even a text. -/
def twoSteps : Element := .scenario { steps := [{ text := ['x'] }, {}] }

theorem isBare_twoSteps : twoSteps.IsBare := by
  refine ⟨rfl, rfl, List.forall_mem_cons.2 ⟨?_, List.forall_mem_singleton.2 ?_⟩⟩
  · exact ⟨rfl, rfl, rfl, by decide⟩
  · exact ⟨rfl, rfl, rfl, by decide⟩

theorem Element.exists_parse_bare_french :
    ∃ d, Dialect.get? "fr".toList = some d ∧ twoSteps.IsBare ∧
      ∃ r, Element.parse? .scenario "fr".toList [] (Style.render ⟨['\t'], "fr".toList⟩ twoSteps) =
          some (.ok r) ∧
        (r.steps.map Step.text = [['x'], []] ∧
            Style.render ⟨['\t'], "fr".toList⟩ r = Style.render ⟨['\t'], "fr".toList⟩ twoSteps ↔
          twoSteps.steps = [] ∨ "fr".toList ∉ Dialect.unstarred) := by
  obtain ⟨d, hcode⟩ : ∃ d, Dialect.get? "fr".toList = some d := ⟨_, rfl⟩
  have htab : ∀ c ∈ ['\t'], c = ' ' ∨ c = '\t' := by simp
  exact ⟨d, hcode, isBare_twoSteps, Element.exists_parse_bare hcode htab isBare_twoSteps []⟩

/-- Slovenian has no wildcard, so the steps are lost. -/
theorem Element.not_parse_bare_slovenian :
    twoSteps.IsBare ∧ ¬∃ r, Element.parse? .scenario "sl".toList []
      (Style.render ⟨['\t'], "sl".toList⟩ twoSteps) = some (.ok r) ∧
        r.steps.map Step.text = twoSteps.steps.map Step.text := by
  refine ⟨isBare_twoSteps, ?_⟩
  rintro ⟨r, hparse, htexts⟩
  have hs : Text.IsIndent ['\t'] :=
    Text.IsSpacing.isIndent fun c hc => .inr (List.mem_singleton.1 hc)
  obtain ⟨lost, hlost, hnil⟩ := Element.exists_parse_lost (s := ⟨['\t'], "sl".toList⟩) rfl hs
    isBare_twoSteps [] (by decide)
  obtain rfl : r = lost := Except.ok.inj (Option.some.inj (hparse.symm.trans hlost))
  rw [hnil] at htexts
  cases htexts

end Gherkin
