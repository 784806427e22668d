import Mathlib.Data.List.Forall2
import Gherkin.Layout.Page
import Gherkin.Proofs.Document.Lines
import Gherkin.Proofs.Line.Classify
import Gherkin.Proofs.Text.Description

/-! Pages and the lines that are read from them. Indenting a rendered page again puts one more
indentation in front of every line of it, so a line of a nested block is its line with a run of
blanks before it, and its kind is what it is at the margin. -/

namespace Gherkin

variable {p t : Text} {page more : List Text}

/-- A text without line feeds that does not end in a carriage return, which would be lost. -/
def Text.IsLine (t : Text) : Prop := '\n' ∉ t ∧ t.getLast? ≠ some '\r'

theorem Text.IsLine.shift (h : t.IsLine) (hp : '\n' ∉ p) : (Text.shift p t).IsLine := by
  by_cases ht : t = []
  · rw [ht, Text.shift_nil]
    exact ⟨by simp, by simp⟩
  · rw [Text.shift_of_ne ht]
    exact ⟨by simp [hp, h.1], by rw [List.getLast?_append_of_ne_nil _ ht]; exact h.2⟩

theorem Text.IsLine.nil : Text.IsLine [] := ⟨by simp, by simp⟩

/-- A line that does not end in a blank. -/
theorem Text.isLine_of_trimEnd (hline : '\n' ∉ t) (h : Text.trimEnd t = t) : t.IsLine := by
  refine ⟨hline, fun hlast => ?_⟩
  have hblank := Text.trimEnd_eq_self_iff.1 h '\r' hlast
  cases hblank

namespace Page

theorem line_zero (indent t : Text) : line indent 0 t = t := Text.nil_shift t

theorem line_one (indent t : Text) : line indent 1 t = Text.shift indent t := by
  simp [line, Text.shift]

theorem lines_unlines (hne : page ≠ []) (h : ∀ t ∈ page, '\n' ∉ t) :
    Text.lines (Text.unlines page) = page := by
  obtain ⟨l, ls, rfl⟩ := List.exists_cons_of_ne_nil hne
  exact Text.lines_unlines l ls h

/-- Indenting a rendered page indents each of its lines. -/
theorem block_unlines (hne : page ≠ []) (h : ∀ t ∈ page, '\n' ∉ t) (indent : Text) (depth : Nat) :
    block indent depth (Text.unlines page) = page.map (line indent depth) := by
  rw [block, lines_unlines hne h]

/-- A gap is an empty line or nothing. -/
theorem exists_gap (page : List Text) : ∃ blanks, gap page = page ++ blanks ∧ ∀ t ∈ blanks, t = [] := by
  unfold gap
  split
  · exact ⟨[], by simp, by simp⟩
  · exact ⟨[], by simp, by simp⟩
  · exact ⟨[[]], rfl, by simp⟩

end Page

namespace Vocabulary

variable {v : Vocabulary}

/-- The kind of a line when it cannot be the language header. -/
def plainKind (v : Vocabulary) (t : Text) : LineKind :=
  match v.kindOf t with
  | .language _ => .comment
  | k => k

theorem plainKind_of_ne {k : LineKind} (h : v.kindOf t = k) (hk : ∀ code, k ≠ .language code) :
    v.plainKind t = k := by
  unfold plainKind
  split
  · next code hcode => exact absurd (h.symm.trans hcode) (hk code)
  · exact h

theorem plainKind_nil : v.plainKind [] = .blank :=
  plainKind_of_ne (kindOf_eq_blank_iff.2 rfl) (by simp)

theorem plainKind_shift (hp : ∀ c ∈ p, Text.isBlank c) (t : Text) :
    v.plainKind (Text.shift p t) = v.plainKind t := by
  by_cases ht : t = []
  · rw [ht, Text.shift_nil]
  · rw [Text.shift_of_ne ht, plainKind, plainKind, kindOf_append_of_blank hp]

end Vocabulary

/-! ### Lines that are a page -/

/-- The lines of a page that stands behind the indentation `p`, after any language header. -/
def Written (v : Vocabulary) (p : Text) (page : List Text) (ls : List Line) : Prop :=
  List.Forall₂ (fun t l => l.raw = Text.shift p t ∧ l.kind = v.plainKind t) page ls

namespace Written

variable {v : Vocabulary} {ls : List Line}

theorem nil_iff : Written v p [] ls ↔ ls = [] := List.forall₂_nil_left_iff

theorem cons_iff : Written v p (t :: page) ls ↔
    ∃ l rest, ls = l :: rest ∧ l.raw = Text.shift p t ∧ l.kind = v.plainKind t ∧
      Written v p page rest := by
  rw [Written, List.forall₂_cons_left_iff]
  constructor
  · rintro ⟨l, rest, ⟨hraw, hkind⟩, hrest, rfl⟩
    exact ⟨l, rest, rfl, hraw, hkind, hrest⟩
  · rintro ⟨l, rest, rfl, hraw, hkind, hrest⟩
    exact ⟨l, rest, ⟨hraw, hkind⟩, hrest, rfl⟩

theorem append_iff : Written v p (page ++ more) ls ↔
    ∃ as bs, ls = as ++ bs ∧ Written v p page as ∧ Written v p more bs := by
  induction page generalizing ls with
  | nil =>
    constructor
    · intro h
      exact ⟨[], ls, rfl, .nil, h⟩
    · rintro ⟨as, bs, rfl, ha, hb⟩
      rwa [nil_iff.1 ha]
  | cons t page ih =>
    rw [List.cons_append, cons_iff]
    constructor
    · rintro ⟨l, rest, rfl, hraw, hkind, hrest⟩
      obtain ⟨as, bs, rfl, ha, hb⟩ := ih.1 hrest
      exact ⟨l :: as, bs, rfl, .cons ⟨hraw, hkind⟩ ha, hb⟩
    · rintro ⟨as, bs, rfl, ha, hb⟩
      obtain ⟨l, rest, rfl, hraw, hkind, hrest⟩ := cons_iff.1 ha
      exact ⟨l, rest ++ bs, rfl, hraw, hkind, ih.2 ⟨rest, bs, rfl, hrest, hb⟩⟩

/-- The lines of an indented page are those of the page behind both indentations. -/
theorem map_shift_iff {q : Text} (hq : ∀ c ∈ q, Text.isBlank c) :
    Written v p (page.map (Text.shift q)) ls ↔ Written v (p ++ q) page ls := by
  rw [Written, List.forall₂_map_left_iff, Written]
  simp only [Text.shift_shift, Vocabulary.plainKind_shift hq]

theorem exists_of_mem (h : Written v p page ls) {l : Line} (hl : l ∈ ls) :
    ∃ t ∈ page, l.raw = Text.shift p t ∧ l.kind = v.plainKind t := by
  induction h with
  | nil => cases hl
  | cons hm _ ih =>
    rcases List.mem_cons.1 hl with rfl | hl
    · exact ⟨_, List.mem_cons_self, hm⟩
    · obtain ⟨t, ht, h⟩ := ih hl
      exact ⟨t, List.mem_cons_of_mem _ ht, h⟩

theorem map_kind (h : Written v p page ls) : ls.map Line.kind = page.map v.plainKind := by
  induction h with
  | nil => rfl
  | cons head _ ih => rw [List.map_cons, List.map_cons, ih, head.2]

/-- Empty lines are blank. -/
theorem blank (h : Written v p page ls) (hblank : ∀ t ∈ page, t = []) :
    ∀ l ∈ ls, l.kind = .blank := by
  intro l hl
  obtain ⟨t, ht, -, hkind⟩ := h.exists_of_mem hl
  rw [hkind, hblank t ht, Vocabulary.plainKind_nil]

end Written

/-! ### Lines of a text -/

theorem Text.IsLine.dropReturn (h : t.IsLine) : Text.dropReturn t = t := if_neg h.2

theorem Vocabulary.classify_unlines (v : Vocabulary) (hne : page ≠ [])
    (h : ∀ t ∈ page, t.IsLine) :
    v.classify (Text.unlines page) = page.mapIdx fun i t => ⟨i + 1, t, v.kindOf t⟩ := by
  rw [Vocabulary.classify, Page.lines_unlines hne fun t ht => (h t ht).1]
  refine List.ext_getElem (by simp) fun i hi hi' => ?_
  simp only [List.getElem_mapIdx]
  rw [(h _ (List.getElem_mem _)).dropReturn]

namespace Document

theorem kind_demote {v : Vocabulary} {header : Option ℕ} {l : Line} (hkind : l.kind = v.kindOf t)
    (hnumber : some l.number ≠ header) : (demote header l).kind = v.plainKind t := by
  unfold demote Vocabulary.plainKind
  rw [← hkind]
  cases hk : l.kind <;> simp_all

/-- The lines of a page, below the language header if there is one. -/
theorem written_linesAt (v : Vocabulary) {header : Option ℕ} {n : ℕ} (hn : ∀ k ∈ header, k ≤ n)
    (h : ∀ t ∈ page, t.IsLine) :
    Written v [] page ((v.linesAt n page).map (demote header)) := by
  induction page generalizing n with
  | nil => exact Written.nil_iff.2 rfl
  | cons t page ih =>
    obtain ⟨ht, hmore⟩ := List.forall_mem_cons.1 h
    rw [Vocabulary.linesAt_cons, List.map_cons, ht.dropReturn]
    refine Written.cons_iff.2 ⟨_, _, rfl, ?_, kind_demote rfl ?_, ih (fun k hk => ?_) hmore⟩
    · rw [raw_demote, Text.nil_shift]
    · intro hheader
      exact Nat.not_succ_le_self n (hn _ hheader.symm)
    · exact Nat.le_succ_of_le (hn k hk)

/-- The lines of a text that is a page without a language header. -/
theorem written_linesIn (d : Dialect) (hne : page ≠ []) (h : ∀ t ∈ page, t.IsLine) :
    Written d.vocabulary [] page (linesIn d none (Text.unlines page)) := by
  rw [linesIn, Vocabulary.classify_eq, Page.lines_unlines hne fun t ht => (h t ht).1]
  exact written_linesAt d.vocabulary (by simp) h

end Document

end Gherkin
