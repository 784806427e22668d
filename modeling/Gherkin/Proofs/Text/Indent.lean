import Mathlib.Data.List.Forall2
import Gherkin.Proofs.Text.Description

/-! Indented texts. A text is indented by putting the same spaces and tabs in front of each of its
lines. What stands between the blanks at the ends of a line is as before, and so is what is left of
a line when it is cut at the indentation of another. -/

namespace Gherkin.Text

/-- What stands before a line: blanks that are no line feeds. -/
structure IsIndent (p : Text) : Prop where
  blank : ∀ c ∈ p, isBlank c
  line : '\n' ∉ p

theorem IsIndent.nil : IsIndent [] := ⟨by simp, by simp⟩

theorem IsIndent.append {p q : Text} (hp : p.IsIndent) (hq : q.IsIndent) : IsIndent (p ++ q) :=
  ⟨List.forall_mem_append.2 ⟨hp.blank, hq.blank⟩, by simp [hp.line, hq.line]⟩

/-- Spaces and tabs. -/
def IsSpacing (w : Text) : Prop := ∀ c ∈ w, c = ' ' ∨ c = '\t'

variable {w t t' : Text}

theorem IsSpacing.isIndent (h : IsSpacing w) : IsIndent w where
  blank c hc := by rcases h c hc with rfl | rfl <;> rfl
  line hc := by rcases h _ hc with h | h <;> cases h

/-- The second line is the first with `w` in front; an empty line may be left as it is. -/
inductive IndentedLine (w : Text) : Text → Text → Prop
  | front (t : Text) : IndentedLine w t (w ++ t)
  | empty : IndentedLine w [] []

/-- The second text is the first with `w` in front of every line. -/
def Indented (w t t' : Text) : Prop := List.Forall₂ (IndentedLine w) t.lines t'.lines

/-- The line end is left as it is, with a carriage return or without. -/
theorem IndentedLine.dropReturn (h : IndentedLine w t t') (hw : IsSpacing w) :
    IndentedLine w (Text.dropReturn t) (Text.dropReturn t') := by
  cases h with
  | empty => exact .empty
  | front =>
    by_cases ht : t = []
    · have hlast : w.getLast? ≠ some '\r' := by
        intro hlast
        rcases hw _ (List.mem_of_getLast? hlast) with h | h <;> cases h
      have hfront := IndentedLine.front (w := w) []
      rw [List.append_nil] at hfront
      rw [ht, List.append_nil, Text.dropReturn.eq_1 w, if_neg hlast]
      exact hfront
    · rw [Text.dropReturn, Text.dropReturn, List.getLast?_append_of_ne_nil _ ht,
        List.dropLast_append_of_ne_nil ht]
      split
      · exact .front _
      · exact .front _

variable (hw : IsIndent w)

include hw

namespace IndentedLine

theorem trim (h : IndentedLine w t t') : Text.trim t' = Text.trim t := by
  cases h with
  | front => exact trim_append_of_blank hw.blank t
  | empty => rfl

theorem trimEnd (h : IndentedLine w t t') : Text.trimEnd t' = shift w (Text.trimEnd t) := by
  cases h with
  | empty => rfl
  | front =>
    by_cases ht : Text.trimEnd t = []
    · rw [ht, shift_nil, trimEnd_eq_nil_iff]
      exact List.forall_mem_append.2 ⟨hw.blank, trimEnd_eq_nil_iff.1 ht⟩
    · have hshift := trimEnd_shift (p := w) (trimEnd_trimEnd t)
      obtain ⟨s, hs, hcut⟩ := exists_append_trimEnd t
      rw [← hshift, shift_of_ne ht, congrArg (w ++ ·) hcut, ← List.append_assoc,
        trimEnd_append_of_blank hs]

theorem dropIndent (h : IndentedLine w t t') (n : ℕ) :
    Text.dropIndent (w.length + n) t' = Text.dropIndent n t := by
  cases h with
  | front => exact dropIndent_add hw.blank n t
  | empty => cases n <;> cases w.length <;> rfl

theorem indent (h : IndentedLine w t t') (hne : t ≠ []) :
    Text.indent t' = w.length + Text.indent t := by
  cases h with
  | front => exact indent_append_of_blank hw.blank t
  | empty => exact absurd rfl hne

end IndentedLine

omit hw

/-! ### Texts below one another -/

/-- The lines of texts that are put below one another. -/
theorem lines_unlines_eq_flatMap {ts : List Text} (hne : ts ≠ []) :
    lines (unlines ts) = ts.flatMap lines := by
  obtain ⟨t, ts, rfl⟩ := List.exists_cons_of_ne_nil hne
  induction ts generalizing t with
  | nil => rw [unlines, joinWith_singleton, List.flatMap_singleton]
  | cons u ts ih =>
    rw [unlines, joinWith_cons_cons, lines, splitOn_append_cons, List.flatMap_cons,
      ← ih u (List.cons_ne_nil _ _)]
    rfl

theorem flatMap_lines_eq_self {ts : List Text} (h : ∀ t ∈ ts, '\n' ∉ t) : ts.flatMap lines = ts := by
  by_cases hne : ts = []
  · rw [hne, List.flatMap_nil]
  · obtain ⟨t, ts, rfl⟩ := List.exists_cons_of_ne_nil hne
    rw [← lines_unlines_eq_flatMap hne, lines_unlines t ts h]

/-- The text with `w` in front of every line, empty lines included. -/
theorem IsIndent.indented (hw : IsIndent w) (t : Text) :
    Indented w t (unlines (t.lines.map (w ++ ·))) := by
  obtain ⟨l, ls, hlines⟩ := List.exists_cons_of_ne_nil (lines_ne_nil t)
  have hline : ∀ m ∈ (l :: ls).map (w ++ ·), '\n' ∉ m := by
    intro m hm
    obtain ⟨u, hu, rfl⟩ := List.mem_map.1 hm
    rw [← hlines] at hu
    simp [hw.line, not_mem_lines hu]
  rw [Indented, hlines, List.map_cons, lines_unlines _ _ hline, ← List.map_cons,
    List.forall₂_map_right_iff]
  exact List.forall₂_same.2 fun u _ => .front u

end Gherkin.Text
