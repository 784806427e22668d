import Gherkin.Proofs.Layout.Step

/-! Pages that hold a node: wherever such a page stands, its lines are read as a node of one and the
same element. Pages that follow one another, with empty lines between them, hold the nodes one after
another. -/

open Gherkin.Document

namespace Gherkin

variable {α β γ : Type} {d : Dialect} {R : List Line → α → List Document.Comment → Prop}
  {plain : α → β} {page more : List Text} {b : β} {p : Text}

/-- The page is made of lines that are read, behind any indentation, as a node of the element `b`,
with no comments among them. -/
structure Holds (d : Dialect) (R : List Line → α → List Document.Comment → Prop) (plain : α → β)
    (page : List Text) (b : β) : Prop where
  line : ∀ t ∈ page, t.IsLine
  reading : ∀ {p ls}, Text.IsIndent p → Written d.vocabulary p page ls →
    ∃ a, R ls a [] ∧ plain a = b

/-- Blank lines and comments may stand before the lines of a node. -/
def Leads (R : List Line → α → List Document.Comment → Prop) : Prop :=
  ∀ {ts ls a cs}, Trivia ts → R ls a cs → R (ts ++ ls) a (commentsOf ts ++ cs)

namespace Written

variable {ls : List Line}

/-- Empty lines are trivia without comments. -/
theorem trivia (h : Written d.vocabulary p page ls) (hblank : ∀ t ∈ page, t = []) :
    Trivia ls ∧ commentsOf ls = [] := by
  have hkind := h.blank hblank
  refine ⟨fun l hl => by simp [hkind l hl, LineKind.isTrivia], ?_⟩
  have hfilter : ls.filter (·.kind = .comment) = [] := by
    rw [List.filter_eq_nil_iff]
    intro l hl
    simp [hkind l hl]
  rw [commentsOf, hfilter, List.map_nil]

end Written

namespace Holds

/-- An indented page holds what it holds at the margin. -/
theorem shift (h : Holds d R plain page b) (hp : p.IsIndent) :
    Holds d R plain (page.map (Text.shift p)) b where
  line t ht := by
    obtain ⟨u, hu, rfl⟩ := List.mem_map.1 ht
    exact (h.line u hu).shift hp.line
  reading hq hw := h.reading (hq.append hp) ((Written.map_shift_iff hp.blank).1 hw)

/-- A page that was rendered, at its owner's depth. -/
theorem block_zero (h : Holds d R plain page b) (hne : page ≠ []) (indent : Text) :
    Holds d R plain (Page.block indent 0 (Text.unlines page)) b := by
  have hline : Page.line indent 0 = id := funext (Page.line_zero indent)
  rw [Page.block_unlines hne fun t ht => (h.line t ht).1, hline, List.map_id]
  exact h

/-- A page that was rendered, one level deeper than its owner. -/
theorem block_one (h : Holds d R plain page b) (hne : page ≠ []) (hp : p.IsIndent) :
    Holds d R plain (Page.block p 1 (Text.unlines page)) b := by
  have hline : Page.line p 1 = Text.shift p := funext (Page.line_one p)
  rw [Page.block_unlines hne fun t ht => (h.line t ht).1, hline]
  exact h.shift hp

/-- Empty lines may stand in front. -/
theorem lead (h : Holds d R plain page b) (hR : Leads R) {blanks : List Text}
    (hblank : ∀ t ∈ blanks, t = []) : Holds d R plain (blanks ++ page) b where
  line t ht := by
    rcases List.mem_append.1 ht with ht | ht
    · rw [hblank t ht]
      exact Text.IsLine.nil
    · exact h.line t ht
  reading hp hw := by
    obtain ⟨as, bs, rfl, has, hbs⟩ := Written.append_iff.1 hw
    obtain ⟨a, ha, hplain⟩ := h.reading hp hbs
    obtain ⟨htrivia, hcomments⟩ := has.trivia hblank
    have hread := hR htrivia ha
    rw [hcomments] at hread
    exact ⟨a, hread, hplain⟩

/-! ### Sequences -/

theorem nil : Holds d (Reading.Many R) (List.map plain) [] [] where
  line t ht := nomatch ht
  reading _ hw := ⟨[], by rw [Written.nil_iff.1 hw]; exact .nil .nil, rfl⟩

theorem cons {bs : List β} (h : Holds d R plain page b)
    (hs : Holds d (Reading.Many R) (List.map plain) more bs) :
    Holds d (Reading.Many R) (List.map plain) (page ++ more) (b :: bs) where
  line := List.forall_mem_append.2 ⟨h.line, hs.line⟩
  reading hp hw := by
    obtain ⟨as, rest, rfl, has, hrest⟩ := Written.append_iff.1 hw
    obtain ⟨a, ha, rfl⟩ := h.reading hp has
    obtain ⟨nodes, hnodes, rfl⟩ := hs.reading hp hrest
    exact ⟨a :: nodes, .cons ha hnodes, rfl⟩

/-- Pages one after another. -/
theorem flatMap {f : γ → List Text} {g : γ → β} {items : List γ}
    (h : ∀ x ∈ items, Holds d R plain (f x) (g x)) :
    Holds d (Reading.Many R) (List.map plain) (items.flatMap f) (items.map g) := by
  induction items with
  | nil => exact nil
  | cons x items ih =>
    obtain ⟨hx, hmore⟩ := List.forall_mem_cons.1 h
    exact hx.cons (ih hmore)

/-- Pages that stand apart from what is before them. -/
theorem foldl_apart (hR : Leads R) {f : γ → List Text} {g : γ → β} {items : List γ}
    (h : ∀ x ∈ items, Holds d R plain (f x) (g x)) (page : List Text) :
    ∃ more, items.foldl (fun page x => Page.apart page (f x)) page = page ++ more ∧
      Holds d (Reading.Many R) (List.map plain) more (items.map g) := by
  induction items generalizing page with
  | nil => exact ⟨[], (List.append_nil page).symm, nil⟩
  | cons x items ih =>
    obtain ⟨hx, hmore⟩ := List.forall_mem_cons.1 h
    obtain ⟨blanks, hgap, hblank⟩ := Page.exists_gap page
    obtain ⟨more, hfold, hholds⟩ := ih hmore (Page.apart page (f x))
    refine ⟨blanks ++ f x ++ more, ?_, (hx.lead hR hblank).cons hholds⟩
    rw [List.foldl_cons, hfold, Page.apart, hgap]
    simp only [List.append_assoc]

/-! ### Parts next to each other -/

variable {α' β' : Type} {R' : List Line → α' → List Document.Comment → Prop} {plain' : α' → β'}
  {b' : β'}

/-- Lines that hold one node and then another one. -/
def Both (R : List Line → α → List Document.Comment → Prop)
    (R' : List Line → α' → List Document.Comment → Prop) :
    List Line → α × α' → List Document.Comment → Prop :=
  fun ls x cs => ∃ as bs, ls = as ++ bs ∧ R as x.1 [] ∧ R' bs x.2 [] ∧ cs = []

theorem both (h : Holds d R plain page b) (h' : Holds d R' plain' more b') :
    Holds d (Both R R') (Prod.map plain plain') (page ++ more) (b, b') where
  line := List.forall_mem_append.2 ⟨h.line, h'.line⟩
  reading hp hw := by
    obtain ⟨as, bs, rfl, has, hbs⟩ := Written.append_iff.1 hw
    obtain ⟨a, ha, rfl⟩ := h.reading hp has
    obtain ⟨a', ha', rfl⟩ := h'.reading hp hbs
    exact ⟨(a, a'), ⟨as, bs, rfl, ha, ha', rfl⟩, rfl⟩

/-- Nodes put together to another node. -/
theorem map (h : Holds d R plain page b) (f : α → α') (g : β → β') (hb : b' = g b)
    (hR : ∀ {ls a}, R ls a [] → R' ls (f a) []) (hplain : ∀ a, plain' (f a) = g (plain a)) :
    Holds d R' plain' page b' where
  line := h.line
  reading hp hw := by
    obtain ⟨a, ha, rfl⟩ := h.reading hp hw
    exact ⟨f a, hR ha, (hplain a).trans hb.symm⟩

end Holds

/-- A step that is read as a step, at the margin. -/
theorem holds_step {s : Style} (hd : d.Sound) (hs : s.indent.IsIndent) {e : Gherkin.Step}
    (h : e.Readable d) : Holds d Reading.Step Step.plain (stepLines s e) e.reread :=
  ⟨isLine_stepLines hd hs h, fun hp hw => step_reading hd hp hs h hw⟩

/-- The steps of an owner, one level deeper. -/
theorem holds_steps {s : Style} (hd : d.Sound) (hs : s.indent.IsIndent)
    {steps : List Gherkin.Step} (h : ∀ e ∈ steps, e.WellFormed d) :
    Holds d (Reading.Many Reading.Step) (List.map Step.plain)
      (steps.flatMap fun e => Page.block s.indent 1 (s.step e))
      (steps.map Gherkin.Step.forget) := by
  refine Holds.flatMap fun e he => ?_
  have hpage := holds_step hd hs (h e he).toReadable
  rw [(h e he).reread_eq] at hpage
  exact hpage.block_one (List.cons_ne_nil _ _) hs

end Gherkin
