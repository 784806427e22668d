import Gherkin.Proofs.Layout.Page
import Gherkin.Proofs.Text.Indent

/-! Drafts: lines without their indentation, each with its depth. A page whose lines depend on the
text of one level of indentation is drafted if one draft gives its lines for every such text. What is
put on a page as one line may hold line feeds, and only its beginning is indented then; so there are
drafts of what is put on a page and drafts of the lines that come of it. Joining pages, gaps between
them, indenting a finished page again: all of it can be done on drafts. A gap is no exception, for
whether a page ends in an empty line does not depend on the indentation. -/

namespace Gherkin.Page

/-- Lines with their depths. -/
abbrev Draft := List (ℕ × Text)

/-- The lines of a draft. -/
def Draft.page (indent : Text) (draft : Draft) : List Text :=
  draft.map fun l => line indent l.1 l.2

/-- The page is one draft, whatever one level of indentation is, and each line of the draft is as
`P` says of its depth and its text. -/
def Drafted (P : ℕ → Text → Prop) (page : Text → List Text) : Prop :=
  ∃ draft : Draft, (∀ l ∈ draft, P l.1 l.2) ∧ ∀ indent, '\n' ∉ indent → page indent = draft.page indent

/-- A single line. -/
def IsLine (n depth : ℕ) (text : Text) : Prop := depth ≤ n ∧ '\n' ∉ text

/-- What is put on a page as one line. It may hold line feeds, but no indentation stands alone before
one. -/
def IsEntry (n depth : ℕ) (text : Text) : Prop :=
  depth ≤ n ∧ (depth = 0 ∨ text.head? ≠ some '\n')

variable {P Q : ℕ → Text → Prop} {page more : Text → List Text} {text : Text → Text} {n m : ℕ}
  {t : Text}

theorem IsLine.isEntry {depth : ℕ} (h : IsLine n depth t) (hn : n ≤ m) : IsEntry m depth t :=
  ⟨h.1.trans hn, .inr fun hhead => h.2 (List.mem_of_mem_head? hhead)⟩

theorem IsLine.mono {depth : ℕ} (h : IsLine n depth t) (hn : n ≤ m) : IsLine m depth t :=
  ⟨h.1.trans hn, h.2⟩

/-! ### Lines at a depth -/

theorem line_eq_shift (indent : Text) (depth : ℕ) (t : Text) :
    line indent depth t = Text.shift (List.replicate depth indent).flatten t := rfl

theorem line_eq_nil_iff {indent : Text} {depth : ℕ} : line indent depth t = [] ↔ t = [] := by
  rw [line_eq_shift, Text.shift_eq_nil_iff]

theorem line_line (indent : Text) (d k : ℕ) (t : Text) :
    line indent d (line indent k t) = line indent (d + k) t := by
  rw [line_eq_shift, line_eq_shift, line_eq_shift, Text.shift_shift, ← List.flatten_append,
    List.replicate_append_replicate]

theorem not_mem_replicate_flatten {indent : Text} (h : '\n' ∉ indent) (depth : ℕ) :
    '\n' ∉ (List.replicate depth indent).flatten := by
  intro hmem
  obtain ⟨part, hpart, hin⟩ := List.mem_flatten.1 hmem
  rw [List.eq_of_mem_replicate hpart] at hin
  exact h hin

/-! ### Drafted pages -/

namespace Drafted

theorem congr (h : Drafted P page) (heq : ∀ indent, '\n' ∉ indent → more indent = page indent) :
    Drafted P more := by
  obtain ⟨draft, hdraft, hpage⟩ := h
  refine ⟨draft, hdraft, fun indent hindent => ?_⟩
  rw [heq indent hindent, hpage indent hindent]

theorem imp (h : Drafted P page) (himp : ∀ depth t, P depth t → Q depth t) : Drafted Q page := by
  obtain ⟨draft, hdraft, hpage⟩ := h
  exact ⟨draft, fun l hl => himp _ _ (hdraft l hl), hpage⟩

theorem nil : Drafted P fun _ => [] := ⟨[], by simp, fun _ _ => rfl⟩

theorem append (h : Drafted P page) (hmore : Drafted P more) :
    Drafted P fun indent => page indent ++ more indent := by
  obtain ⟨draft, hdraft, hpage⟩ := h
  obtain ⟨draft', hdraft', hpage'⟩ := hmore
  refine ⟨draft ++ draft', List.forall_mem_append.2 ⟨hdraft, hdraft'⟩, fun indent hindent => ?_⟩
  show page indent ++ more indent = _
  rw [hpage indent hindent, hpage' indent hindent, Draft.page, Draft.page, Draft.page,
    List.map_append]

theorem flatMap {γ : Type} {f : γ → Text → List Text} {items : List γ}
    (h : ∀ x ∈ items, Drafted P (f x)) : Drafted P fun indent => items.flatMap (f · indent) := by
  induction items with
  | nil => exact nil
  | cons x items ih =>
    obtain ⟨hx, hitems⟩ := List.forall_mem_cons.1 h
    exact (hx.append (ih hitems)).congr fun _ _ => List.flatMap_cons

/-- Lines at one depth. -/
theorem lines (depth : ℕ) {texts : List Text} (h : ∀ t ∈ texts, P depth t) :
    Drafted P fun indent => texts.map (line indent depth) := by
  refine ⟨texts.map (depth, ·), ?_, fun indent _ => ?_⟩
  · simpa using h
  · rw [Draft.page, List.map_map]
    rfl

/-- Lines at the margin do not depend on the indentation. -/
theorem margin {texts : List Text} (h : ∀ t ∈ texts, P 0 t) : Drafted P fun _ => texts := by
  refine (lines 0 h).congr fun indent _ => ?_
  rw [funext (line_zero indent), List.map_id']

end Drafted

/-! ### Gaps -/

theorem gap_of_nil {page : List Text} (h : ∀ l ∈ page.getLast?, l = []) : gap page = page := by
  unfold gap
  split
  · rfl
  · rfl
  · next c cs hlast => exact absurd (h _ hlast) (List.cons_ne_nil c cs)

theorem gap_of_ne_nil {page : List Text} (h : ∃ l ∈ page.getLast?, l ≠ []) :
    gap page = page ++ [[]] := by
  obtain ⟨l, hl, hne⟩ := h
  unfold gap
  rw [Option.mem_def.1 hl]
  cases l with
  | nil => exact absurd rfl hne
  | cons => rfl

namespace Drafted

theorem gap (h : Drafted (IsEntry n) page) : Drafted (IsEntry n) fun indent => gap (page indent) := by
  obtain ⟨draft, hdraft, hpage⟩ := h
  by_cases hlast : ∃ l ∈ draft.getLast?, l.2 ≠ []
  · obtain ⟨l, hl, hne⟩ := hlast
    have hempty : IsEntry n 0 [] := ⟨Nat.zero_le n, .inl rfl⟩
    refine ⟨draft ++ [(0, [])], List.forall_mem_append.2 ⟨hdraft, by simpa using hempty⟩,
      fun indent hindent => ?_⟩
    have hend : line indent l.1 l.2 ∈ (draft.page indent).getLast? := by
      rw [Draft.page, List.getLast?_map, Option.mem_def.1 hl]
      rfl
    show Page.gap (page indent) = _
    rw [hpage indent hindent, gap_of_ne_nil ⟨_, hend, mt line_eq_nil_iff.1 hne⟩, Draft.page,
      Draft.page, List.map_append]
    rfl
  · push Not at hlast
    refine ⟨draft, hdraft, fun indent hindent => ?_⟩
    show Page.gap (page indent) = _
    rw [hpage indent hindent]
    refine gap_of_nil fun t ht => ?_
    rw [Draft.page, List.getLast?_map] at ht
    obtain ⟨l, hl, rfl⟩ := Option.map_eq_some_iff.1 ht
    exact line_eq_nil_iff.2 (hlast l hl)

theorem apart (h : Drafted (IsEntry n) page) (hmore : Drafted (IsEntry n) more) :
    Drafted (IsEntry n) fun indent => apart (page indent) (more indent) :=
  h.gap.append hmore

theorem foldl_apart {γ : Type} {f : γ → Text → List Text} {items : List γ}
    (h : Drafted (IsEntry n) page) (hitems : ∀ x ∈ items, Drafted (IsEntry n) (f x)) :
    Drafted (IsEntry n) fun indent =>
      items.foldl (fun page x => Page.apart page (f x indent)) (page indent) := by
  induction items generalizing page with
  | nil => exact h
  | cons x items ih =>
    obtain ⟨hx, hmore⟩ := List.forall_mem_cons.1 hitems
    exact ih (h.apart hx) hmore

/-! ### Finished pages -/

/-- A text that does not begin with a line feed has a first line that is not empty. -/
theorem head?_of_lines {first : Text} {rest : List Text} (h : t.lines = first :: rest) (ht : t ≠ [])
    (hfirst : first = []) : t.head? = some '\n' := by
  rw [← Text.unlines_lines t, h, hfirst] at ht ⊢
  cases rest with
  | nil => exact absurd rfl ht
  | cons next rest =>
    rw [Text.unlines, Text.joinWith_cons_cons]
    rfl

/-- The lines that come of what is put on a page as one line. -/
theorem lines_line {depth : ℕ} (h : IsEntry n depth t) :
    Drafted (IsLine n) fun indent => (line indent depth t).lines := by
  have hline : ∀ l ∈ t.lines, IsLine n 0 l := fun l hl => ⟨Nat.zero_le n, Text.not_mem_lines hl⟩
  have hmargin : Drafted (IsLine n) fun _ => t.lines := margin hline
  by_cases ht : t = []
  · exact hmargin.congr fun indent _ => by rw [ht, line_eq_nil_iff.2 rfl]
  · rcases h.2 with rfl | hhead
    · exact hmargin.congr fun indent _ => by rw [line_zero]
    · obtain ⟨first, rest, hlines⟩ := List.exists_cons_of_ne_nil (Text.lines_ne_nil t)
      rw [hlines] at hline
      obtain ⟨hfirst, hrest⟩ := List.forall_mem_cons.1 hline
      have hne : first ≠ [] := fun hnil => hhead (head?_of_lines hlines ht hnil)
      have hall : Drafted (IsLine n) fun indent => [first].map (line indent depth) ++ rest :=
        (lines depth (by simpa using ⟨h.1, hfirst.2⟩)).append (margin hrest)
      refine hall.congr fun indent hindent => ?_
      have hbefore := not_mem_replicate_flatten hindent depth
      rw [line_eq_shift, Text.shift_of_ne ht, Text.lines, Text.splitOn_append _ _ hbefore,
        ← Text.lines, hlines, List.map_singleton, line_eq_shift, Text.shift_of_ne hne]
      rfl

/-- The lines of a finished page. -/
theorem lines_unlines (h : Drafted (IsEntry n) page) :
    Drafted (IsLine n) fun indent => (Text.unlines (page indent)).lines := by
  obtain ⟨draft, hdraft, hpage⟩ := h
  by_cases hne : draft = []
  · have hempty : Drafted (IsLine n) fun _ => [[]] :=
      margin (by simpa using ⟨Nat.zero_le n, by simp⟩)
    exact hempty.congr fun indent hindent => by rw [hpage indent hindent, hne]; rfl
  · have hlines : Drafted (IsLine n) fun indent =>
        draft.flatMap fun l => (line indent l.1 l.2).lines :=
      flatMap fun l hl => lines_line (hdraft l hl)
    refine hlines.congr fun indent hindent => ?_
    rw [hpage indent hindent, Text.lines_unlines_eq_flatMap (by simpa [Draft.page] using hne),
      Draft.page, List.flatMap_map]

/-- A finished page that is indented again. -/
theorem block (h : Drafted (IsLine n) fun indent => (text indent).lines) (d : ℕ) :
    Drafted (IsLine (d + n)) fun indent => block indent d (text indent) := by
  obtain ⟨draft, hdraft, hpage⟩ := h
  refine ⟨draft.map fun l => (d + l.1, l.2), ?_, fun indent hindent => ?_⟩
  · rw [List.forall_mem_map]
    exact fun l hl => ⟨Nat.add_le_add_left (hdraft l hl).1 d, (hdraft l hl).2⟩
  · have hlines : (text indent).lines = draft.page indent := hpage indent hindent
    show (text indent).lines.map (line indent d) = _
    rw [hlines, Draft.page, Draft.page, List.map_map, List.map_map]
    exact List.map_congr_left fun l _ => line_line indent d l.1 l.2

/-! ### Texts below one another -/

theorem fixed (t : Text) : Drafted (IsLine n) fun _ => t.lines :=
  margin fun _ hl => ⟨Nat.zero_le n, Text.not_mem_lines hl⟩

/-- Whether a text is empty does not depend on the indentation. -/
theorem empty_or (h : Drafted (IsLine n) fun indent => (text indent).lines) :
    (∀ indent, '\n' ∉ indent → text indent = []) ∨ ∀ indent, '\n' ∉ indent → text indent ≠ [] := by
  obtain ⟨draft, -, hpage⟩ := h
  have hlines : ∀ indent, '\n' ∉ indent → (text indent).lines = draft.page indent := hpage
  by_cases hdraft : draft.map Prod.snd = [[]]
  · refine .inl fun indent hindent => ?_
    obtain ⟨l, rfl, hl⟩ := List.map_eq_singleton_iff.1 hdraft
    rw [← Text.unlines_lines (text indent), hlines indent hindent, Draft.page, List.map_singleton,
      line_eq_nil_iff.2 hl]
    rfl
  · refine .inr fun indent hindent hempty => hdraft ?_
    have hone := hlines indent hindent
    rw [hempty] at hone
    obtain ⟨l, rfl, hl⟩ := List.map_eq_singleton_iff.1 hone.symm
    rw [List.map_singleton, line_eq_nil_iff.1 hl]

theorem exists_filter {texts : List (Text → Text)}
    (h : ∀ f ∈ texts, Drafted (IsLine n) fun indent => (f indent).lines) :
    ∃ kept : List (Text → Text), (∀ f ∈ kept, Drafted (IsLine n) fun indent => (f indent).lines) ∧
      ∀ indent, '\n' ∉ indent →
        (texts.map (· indent)).filter (!·.isEmpty) = kept.map (· indent) := by
  induction texts with
  | nil => exact ⟨[], by simp, fun _ _ => rfl⟩
  | cons f texts ih =>
    obtain ⟨hf, htexts⟩ := List.forall_mem_cons.1 h
    obtain ⟨kept, hkept, hfilter⟩ := ih htexts
    rcases hf.empty_or with hempty | hne
    · refine ⟨kept, hkept, fun indent hindent => ?_⟩
      rw [List.map_cons, List.filter_cons_of_neg (by simp [hempty indent hindent]),
        hfilter indent hindent]
    · refine ⟨f :: kept, List.forall_mem_cons.2 ⟨hf, hkept⟩, fun indent hindent => ?_⟩
      rw [List.map_cons, List.filter_cons_of_pos (by simp [hne indent hindent]),
        hfilter indent hindent, List.map_cons]

/-- Texts with an empty line between any two. -/
theorem intercalate {texts : List (Text → Text)}
    (h : ∀ f ∈ texts, Drafted (IsLine n) fun indent => (f indent).lines) :
    Drafted (IsLine n) fun indent =>
      Text.lines (List.intercalate ['\n', '\n'] (texts.map (· indent))) := by
  induction texts with
  | nil => exact fixed []
  | cons f texts ih =>
    obtain ⟨hf, htexts⟩ := List.forall_mem_cons.1 h
    cases texts with
    | nil => exact hf.congr fun indent _ => by simp [List.intercalate]
    | cons g texts =>
      refine (hf.append ((fixed []).append (ih htexts))).congr fun indent _ => ?_
      have hjoin : List.intercalate ['\n', '\n'] ((f :: g :: texts).map (· indent)) =
          f indent ++ '\n' :: ([] ++ '\n' :: List.intercalate ['\n', '\n']
            ((g :: texts).map (· indent))) := by
        simp [List.intercalate]
      rw [hjoin, Text.lines, Text.splitOn_append_cons, Text.splitOn_append_cons]
      rfl

end Drafted

end Gherkin.Page
