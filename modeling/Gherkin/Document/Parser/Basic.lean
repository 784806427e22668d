import Gherkin.Document.Basic
import Gherkin.Failure

/-! Reading a document from classified lines, by descent. Each parser returns what it read, the
comments it passed, and the lines that are left, which are never more than the lines given. Blank
lines and comments may stand between any two constructs. Here are the parsers for runs of like
lines: trivia, tag lines and table rows. -/

namespace Gherkin.Document.Parser

/-- A value read from the front of a run of lines. -/
structure Parsed (α : Type) where
  value : α
  comments : List Comment
  rest : List Line

/-- Either a refusal or a value read from the front. -/
abbrev Outcome (α : Type) := Except Failure (Parsed α)

/-- A comment line as a node. -/
def commentOf (l : Line) : Comment := ⟨⟨l.number, 1⟩, l.text⟩

/-- Passes over blank lines, comments and the language header. -/
def skipTrivia : List Line → List Comment × List Line
  | [] => ([], [])
  | l :: ls =>
    match l.kind with
    | .blank | .language _ => skipTrivia ls
    | .comment => (commentOf l :: (skipTrivia ls).1, (skipTrivia ls).2)
    | _ => ([], l :: ls)

/-- Consecutive tag lines. -/
def tags : List Line → Outcome (List LocatedTag)
  | [] => .ok ⟨[], [], []⟩
  | l :: ls =>
    match l.kind with
    | .blank | .language _ => tags ls
    | .comment => (tags ls).map fun p => { p with comments := commentOf l :: p.comments }
    | .tags =>
      match LocatedTag.split l.text l.location with
      | .error fault => .error ⟨l.number, .tag fault⟩
      | .ok found => (tags ls).map fun p => { p with value := found ++ p.value }
    | _ => .ok ⟨[], [], l :: ls⟩

/-- Consecutive table rows, all with `width` cells, or with as many as the first when no width is
given. -/
def rows (width : Option Nat) : List Line → Outcome (List Row)
  | [] => .ok ⟨[], [], []⟩
  | l :: ls =>
    match l.kind with
    | .blank | .language _ => rows width ls
    | .comment => (rows width ls).map fun p => { p with comments := commentOf l :: p.comments }
    | .row =>
      let cells := Cell.split l.text l.location
      if width.getD cells.length = cells.length then
        (rows (some cells.length) ls).map fun p =>
          { p with value := ⟨l.location, cells⟩ :: p.value }
      else .error ⟨l.number, .unevenTable⟩
    | _ => .ok ⟨[], [], l :: ls⟩

theorem length_skipTrivia (ls : List Line) : (skipTrivia ls).2.length ≤ ls.length := by
  fun_induction skipTrivia ls <;> simp_all <;> omega

theorem map_eq_ok_iff {α β : Type} {x : Except Failure α} {f : α → β} {b : β} :
    x.map f = .ok b ↔ ∃ a, x = .ok a ∧ f a = b := by
  cases x <;> simp [Except.map]

theorem length_tags {ls : List Line} {p} (h : tags ls = .ok p) : p.rest.length ≤ ls.length := by
  fun_induction tags ls generalizing p with
  | case1 => cases h; simp
  | case2 _ _ _ ih => exact Nat.le_succ_of_le (ih h)
  | case3 _ _ _ _ ih => exact Nat.le_succ_of_le (ih h)
  | case4 _ _ _ ih | case6 _ _ _ _ _ ih =>
    obtain ⟨q, hq, rfl⟩ := map_eq_ok_iff.1 h
    exact Nat.le_succ_of_le (show q.rest.length ≤ _ from ih hq)
  | case5 => cases h
  | case7 => cases h; simp

theorem length_rows {width : Option Nat} {ls : List Line} {p} (h : rows width ls = .ok p) :
    p.rest.length ≤ ls.length := by
  fun_induction rows width ls generalizing p with
  | case1 => cases h; simp
  | case2 _ _ _ _ ih => exact Nat.le_succ_of_le (ih h)
  | case3 _ _ _ _ _ ih => exact Nat.le_succ_of_le (ih h)
  | case4 | case5 =>
    rename_i ih
    obtain ⟨q, hq, rfl⟩ := map_eq_ok_iff.1 h
    exact Nat.le_succ_of_le (show q.rest.length ≤ _ from ih hq)
  | case6 => cases h
  | case7 => cases h; simp

end Gherkin.Document.Parser
