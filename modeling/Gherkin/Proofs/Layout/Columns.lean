import Gherkin.Proofs.Layout.Step
import Gherkin.Proofs.Line.Separators

/-! Columns of a written table. Every row has its separators at the same positions, as far as it
goes: a cell starts one space after a separator, and spaces fill it up to the next one. So the rows
are read back cell by cell, each cell in the column of its text. -/

namespace Gherkin

namespace Page

variable {width : ℕ → ℕ} {row : List Text} {value : Text} {k : ℕ}

/-- Where the `k`-th separator of a row is whose columns have the given widths. -/
def bar (width : ℕ → ℕ) : ℕ → ℕ
  | 0 => 0
  | k + 1 => bar width k + width k + 3

/-- A line with the cells of a row between separators at the given positions, which are all the
separators it has. An empty cell is read at the separator after it, for it shows nothing before. -/
structure Ruled (bar : ℕ → ℕ) (row : List Text) (text : Text) : Prop where
  unbroken : '\n' ∉ text
  cells : ∀ start, Cell.split text start = row.mapIdx fun k value =>
    ⟨⟨start.line, start.column + if value = [] then bar (k + 1) else bar k + 2⟩, value⟩
  separators : Cell.separators text = (List.range (row.length + 1)).map bar
  written : ∀ k value, row[k]? = some value → ∃ n,
    Cell.textBetween text (bar k) (bar (k + 1)) =
      ' ' :: (Cell.escape value ++ List.replicate n ' ')

/-- Columns wide enough for the cells of a row. -/
def Roomy (width : ℕ → ℕ) (row : List Text) : Prop :=
  ∀ k value, row[k]? = some value → (Cell.escape value).length ≤ width k

/-- The first column comes before all others. -/
theorem bar_succ_eq (width : ℕ → ℕ) (k : ℕ) :
    bar width (k + 1) = width 0 + 3 + bar (fun k => width (k + 1)) k := by
  induction k with
  | zero => simp [bar]
  | succ k ih =>
    rw [bar, ih, bar]
    omega

theorem Roomy.head (h : Roomy width (value :: row)) : (Cell.escape value).length ≤ width 0 :=
  h 0 value rfl

theorem Roomy.tail (h : Roomy width (value :: row)) : Roomy (fun k => width (k + 1)) row :=
  fun k v hv => h (k + 1) v hv

/-! ### One cell -/

theorem length_padded {w : ℕ} (h : (Cell.escape value).length ≤ w) :
    (Cell.padded w value).length = w + 2 := by
  simp [Cell.padded, pad]
  omega

/-- A written cell shows its value after one space, and an empty one nothing at all. -/
theorem indent_padded {w : ℕ} (hfits : Cell.Fits value) (hroom : (Cell.escape value).length ≤ w) :
    (Cell.padded w value).indent = if value = [] then w + 2 else 1 := by
  by_cases hvalue : value = []
  · have hblank : ∀ c ∈ Cell.padded w value, Text.isBlank c := by
      intro c hc
      have hspace : c = ' ' := by
        simp only [Cell.padded, pad, hvalue, Cell.escape, List.flatMap_nil, List.nil_append,
          List.mem_cons, List.mem_append, List.mem_replicate, List.not_mem_nil] at hc
        tauto
      rw [hspace]
      rfl
    rw [if_pos hvalue, ← length_padded hroom, Text.indent, List.takeWhile_eq_self_iff.2 hblank]
  · obtain ⟨c, cs, hescape⟩ := List.exists_cons_of_ne_nil (mt Cell.escape_eq_nil_iff.1 hvalue)
    have hstart := Text.trimStart_eq_self_iff.1 (Text.trim_eq_self_iff.1 hfits).1
    have hc : Text.isBlank c = false := hstart c (by rw [hescape]; rfl)
    have hspace : Text.isBlank ' ' = true := rfl
    simp [if_neg hvalue, Cell.padded, pad, hescape, Text.indent, hspace, hc]

theorem ofRaw_padded {w n line : ℕ} (hfits : Cell.Fits value)
    (hroom : (Cell.escape value).length ≤ w) :
    Cell.ofRaw line (n + 1) (Cell.padded w value) =
      ⟨⟨line, n + if value = [] then w + 3 else 2⟩, value⟩ := by
  rw [Cell.ofRaw, Cell.trim_padded hfits, Cell.unescape_escape, indent_padded hfits hroom]
  have hcolumn : n + 1 + (if value = [] then w + 2 else 1) = n + if value = [] then w + 3 else 2 := by
    split <;> omega
  rw [hcolumn]

/-! ### One row -/

theorem parts_rowLine (width : ℕ → ℕ) (row : List Text) :
    Cell.parts (rowLine width row) =
      [] :: ((row.mapIdx fun k value => Cell.padded (width k) value) ++ [[]]) := by
  rw [rowLine, Cell.rowText_eq, Cell.parts, Cell.parts_row]

/-- The parts of a row end at its bars. -/
theorem ends_padded (hroom : Roomy width row) (n : ℕ) :
    Cell.ends (n + 1) ((row.mapIdx fun k value => Cell.padded (width k) value) ++ [[]]) =
      (List.range row.length).map fun k => n + bar width (k + 1) := by
  -- the rest of a row starts in the second column, so the widths move along with it
  induction row generalizing width n with
  | nil => rfl
  | cons value row ih =>
    have hlen := length_padded hroom.head
    have hstep : n + 1 + (width 0 + 2) = n + bar width 1 := by
      rw [bar, bar]
      omega
    have hbar (k : ℕ) : n + bar width 1 + bar (fun k => width (k + 1)) (k + 1) =
        n + bar width (k + 1 + 1) := by
      rw [bar_succ_eq width (k + 1), bar_succ_eq width 0, bar]
      omega
    rw [List.mapIdx_cons, List.cons_append, Cell.ends_cons _ _ (by simp), hlen, hstep,
      ih hroom.tail, List.length_cons, List.range_succ_eq_map, List.map_cons, List.map_map]
    simp only [hbar, Function.comp_def, Nat.succ_eq_add_one]

theorem separators_rowLine (hroom : Roomy width row) :
    Cell.separators (rowLine width row) = (List.range (row.length + 1)).map (bar width) := by
  rw [Cell.separators_eq_ends, parts_rowLine, Cell.ends_cons _ _ (by simp), List.length_nil,
    ends_padded hroom, List.range_succ_eq_map, List.map_cons, List.map_map]
  simp [bar, Function.comp_def, Nat.add_comm]

theorem ofParts_padded (hfits : ∀ value ∈ row, Cell.Fits value) (hroom : Roomy width row)
    (line n : ℕ) :
    Cell.ofParts line (n + 1) ((row.mapIdx fun k value => Cell.padded (width k) value) ++ [[]]) =
      row.mapIdx fun k value =>
        ⟨⟨line, n + if value = [] then bar width (k + 1) else bar width k + 2⟩, value⟩ := by
  induction row generalizing width n with
  | nil => rfl
  | cons value row ih =>
    obtain ⟨hvalue, hrow⟩ := List.forall_mem_cons.1 hfits
    obtain ⟨next, rest, hrest⟩ := List.exists_cons_of_ne_nil (List.append_ne_nil_of_right_ne_nil
      (row.mapIdx fun k value => Cell.padded (width (k + 1)) value) (List.cons_ne_nil [] []))
    have hmore := ih hrow hroom.tail (n + (width 0 + 3))
    have hlen := length_padded hroom.head
    have hstep : n + 1 + (width 0 + 2) + 1 = n + (width 0 + 3) + 1 := by omega
    have hfirst : bar width (0 + 1) = width 0 + 3 := by simp [bar]
    rw [List.mapIdx_cons, List.cons_append, hrest, Cell.ofParts, hlen, hstep, ← hrest, hmore,
      ofRaw_padded hvalue hroom.head, List.mapIdx_cons, hfirst, bar]
    simp only [bar_succ_eq width, Nat.add_assoc, apply_ite (width 0 + ·), apply_ite (3 + ·)]

/-- A row around its `k`-th cell. -/
theorem exists_rowLine_append (hroom : Roomy width row) (hk : row[k]? = some value) :
    ∃ before after, before.length = bar width k ∧
      rowLine width row = before ++ '|' :: (Cell.padded (width k) value ++ '|' :: after) := by
  induction row generalizing width k with
  | nil => cases hk
  | cons first row ih =>
    have hrow : rowLine width (first :: row) =
        '|' :: (Cell.padded (width 0) first ++ rowLine (fun k => width (k + 1)) row) := by
      simp [rowLine, Cell.rowText_eq, Cell.padded, List.mapIdx_cons]
    cases k with
    | zero =>
      obtain rfl := Option.some.inj hk
      obtain ⟨cs, hcs⟩ := rowLine_eq (fun k => width (k + 1)) row
      exact ⟨[], cs, rfl, by rw [hrow, hcs]; rfl⟩
    | succ k =>
      obtain ⟨before, after, hlen, hmore⟩ := ih hroom.tail hk
      refine ⟨'|' :: (Cell.padded (width 0) first ++ before), after, ?_, ?_⟩
      · rw [bar_succ_eq, ← hlen, List.length_cons, List.length_append,
          length_padded hroom.head]
        omega
      · rw [hrow, hmore]
        simp

theorem ruled_rowLine (hfits : ∀ value ∈ row, Cell.Fits value) (hroom : Roomy width row) :
    Ruled (bar width) row (rowLine width row) where
  unbroken := (isLine_rowLine width row).1
  cells start := by
    rw [Cell.split, parts_rowLine]
    exact ofParts_padded hfits hroom start.line start.column
  separators := separators_rowLine hroom
  written k value hk := by
    obtain ⟨before, after, hlen, hrow⟩ := exists_rowLine_append hroom hk
    have hbar : bar width (k + 1) = before.length + 1 + (Cell.padded (width k) value).length := by
      rw [length_padded (hroom k value hk), bar, hlen]
      omega
    refine ⟨width k - (Cell.escape value).length + 1, ?_⟩
    rw [hbar, ← hlen, hrow, Cell.textBetween_append, Cell.padded, pad, List.replicate_succ']
    simp

/-! ### Tables -/

/-- A column is as wide as its widest cell. -/
theorem length_le_width {rows : List (List Text)} (hrow : row ∈ rows) (hk : row[k]? = some value) :
    value.length ≤ Page.width rows k := by
  have hmem : value.length ∈ (rows.filterMap (·[k]?)).map List.length :=
    List.mem_map_of_mem (List.mem_filterMap.2 ⟨row, hrow, hk⟩)
  rw [Page.width]
  cases hmax : ((rows.filterMap (·[k]?)).map List.length).max? with
  | none =>
    rw [List.max?_eq_none_iff.1 hmax] at hmem
    cases hmem
  | some most => exact (List.max?_eq_some_iff.1 hmax).2 _ hmem

theorem roomy_width {rows : List (List Text)} (hrow : row ∈ rows) :
    Roomy (Page.width (rows.map (List.map Cell.escape))) row := by
  intro k value hk
  refine length_le_width (List.mem_map_of_mem hrow) ?_
  rw [List.getElem?_map, hk, Option.map_some]

/-- A table takes one line for each row, and after the indentation the line has the cells of the row
and nothing more. Its separators are where those of every other row are, so that the cells of one
column start in one place and end in one place. -/
theorem table_ruled (indent : Text) (depth : ℕ) {rows : List (List Text)}
    (h : ∀ row ∈ rows, ∀ value ∈ row, Cell.Fits value) :
    ∃ (bar : ℕ → ℕ) (texts : List Text),
      table indent depth rows = texts.map ((List.replicate depth indent).flatten ++ ·) ∧
      List.Forall₂ (Ruled bar) rows texts := by
  refine ⟨bar (Page.width (rows.map (List.map Cell.escape))), tableRows rows, ?_, ?_⟩
  · refine List.map_congr_left fun text htext => ?_
    rw [tableRows_eq] at htext
    obtain ⟨row, -, rfl⟩ := List.mem_map.1 htext
    obtain ⟨cs, hcs⟩ := rowLine_eq (Page.width (rows.map (List.map Cell.escape))) row
    rw [line, if_neg (by rw [hcs]; exact List.cons_ne_nil _ _)]
  · rw [tableRows_eq, List.forall₂_map_right_iff, List.forall₂_same]
    exact fun row hrow => ruled_rowLine (h row hrow) (roomy_width hrow)

/-- A row with a pipe and an empty cell, one without cells and one that is shorter than the first. -/
theorem table_ruled_ragged :
    let rows := [["a|b".toList, []], [], ["cd\n".toList]]
    (∀ row ∈ rows, ∀ value ∈ row, Cell.Fits value) ∧
      ∃ (bar : ℕ → ℕ) (texts : List Text),
        table ['\t'] 2 rows = texts.map ((List.replicate 2 ['\t']).flatten ++ ·) ∧
        List.Forall₂ (Ruled bar) rows texts := by
  intro rows
  have hfits : ∀ row ∈ rows, ∀ value ∈ row, Cell.Fits value := by
    unfold Cell.Fits
    decide +kernel
  exact ⟨hfits, table_ruled ['\t'] 2 hfits⟩

end Page

end Gherkin
