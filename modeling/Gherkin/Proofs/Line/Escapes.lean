import Gherkin.Proofs.Line.Cells
import Gherkin.Proofs.Line.Separators
import Gherkin.Proofs.Text.Replace

/-! Written values. A value is written by doubling its backslashes first and escaping its pipes and
line feeds afterwards, so that the backslashes which escape are not doubled themselves. What is
written holds neither a line feed nor a separator: whatever follows it in a row follows it in the
same cell. -/

namespace Gherkin

/-- A single character is replaced wherever it stands. -/
theorem Text.replace_singleton (c : Char) (new t : Text) :
    t.replace [c] new = t.flatMap fun x => if x = c then new else [x] := by
  induction t with
  | nil => rfl
  | cons x t ih =>
    rw [List.flatMap_cons, ← ih]
    by_cases hx : x = c
    · rw [if_pos hx, hx]
      exact replace_append (List.cons_ne_nil c []) new t
    · have hprefix : ¬[c] <+: x :: t := fun h => hx (List.cons_prefix_cons.1 h).1.symm
      rw [if_neg hx, replace_cons_of_not hprefix]
      rfl

namespace Cell

/-- Writing a value is three replacements, backslashes first. -/
theorem escape_eq_replace (value : Text) :
    escape value = ((value.replace ['\\'] ['\\', '\\']).replace
      ['|'] ['\\', '|']).replace ['\n'] ['\\', 'n'] := by
  rw [Text.replace_singleton, Text.replace_singleton, Text.replace_singleton, List.flatMap_assoc,
    List.flatMap_assoc, escape]
  congr 1
  funext c
  unfold escapeChar
  split <;> simp_all

/-- A written value is a part of its own. -/
theorem separators_escape (value : Text) : separators (escape value) = [] := by
  have hparts := parts_escape value []
  rw [List.append_nil] at hparts
  rw [separators_eq_ends, hparts]
  rfl

theorem not_isSeparator_escape (value : Text) (i : ℕ) : ¬IsSeparator (escape value) i := by
  intro h
  have hlt : i < (escape value).length := (List.getElem?_eq_some_iff.1 h.1).1
  have hmem : i ∈ separators (escape value) :=
    List.mem_filter.2 ⟨List.mem_range.2 hlt, decide_eq_true h⟩
  rw [separators_escape] at hmem
  cases hmem

/-- A value written by the three replacements is read back. What is written has no line feed, and no
pipe in it comes after an even run of backslashes, so neither the line nor the part that it begins
ends before the text that follows it. -/
theorem escape_enclosed (value : Text) :
    escape value = ((value.replace ['\\'] ['\\', '\\']).replace
      ['|'] ['\\', '|']).replace ['\n'] ['\\', 'n'] ∧
    unescape (escape value) = value ∧ '\n' ∉ escape value ∧
    (∀ i, ¬IsSeparator (escape value) i) ∧
    ∀ rest, (escape value ++ rest).lines = rest.lines.modifyHead (escape value ++ ·) ∧
      parts (escape value ++ rest) = (parts rest).modifyHead (escape value ++ ·) := by
  refine ⟨escape_eq_replace value, unescape_escape value, not_mem_escape value,
    not_isSeparator_escape value, fun rest => ⟨?_, parts_escape value rest⟩⟩
  exact Text.splitOn_append (escape value) rest (not_mem_escape value)

/-- A backslash before a pipe, before the letter n and before a line feed, and one at the end. -/
example : escape "\\|\\n\\\n\\".toList = "\\\\\\|\\\\n\\\\\\n\\\\".toList := by decide

end Cell

end Gherkin
