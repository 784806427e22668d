import Mathlib.Data.List.Basic
import Gherkin.Line.Cells
import Gherkin.Text.Split

/-! Separators of a row. A pipe separates cells when the run of backslashes right before it has even
length, for then each of them is escaped by another one. The parts of a row end at its separators,
and its cells are the parts between two neighbouring ones. -/

namespace Gherkin.Cell

/-- The length of the run of backslashes at the end of a text. -/
def slashes (t : Text) : ℕ := (t.reverse.takeWhile (· = '\\')).length

/-- A pipe with an even number of backslashes right before it. -/
def IsSeparator (row : Text) (i : ℕ) : Prop := row[i]? = some '|' ∧ slashes (row.take i) % 2 = 0

instance (row : Text) (i : ℕ) : Decidable (IsSeparator row i) :=
  inferInstanceAs (Decidable (_ ∧ _))

/-- The positions of the separators of a row, from left to right. -/
def separators (row : Text) : List ℕ := (List.range row.length).filter (IsSeparator row)

/-- The text of a row between two positions. -/
def textBetween (row : Text) (i j : ℕ) : Text := (row.take j).drop (i + 1)

/-- The cell between two positions of a row that starts at `start`. It is in the column of its first
character that is not blank, or of position `j` when there is none. -/
def cellBetween (row : Text) (start : Location) (i j : ℕ) : Cell :=
  ⟨⟨start.line,
      start.column + (i + 1 + (textBetween row i j).findIdx fun c => !Text.isBlank c)⟩,
    unescape (textBetween row i j).trim⟩

variable {c : Char} {s t row : Text} {raw : Text} {raws : List Text}

/-! ### Runs of backslashes -/

/-- A run of backslashes goes on before a text only when there is nothing else in it. -/
theorem slashes_append (s t : Text) :
    slashes (s ++ t) = if slashes t = t.length then slashes s + slashes t else slashes t := by
  rw [slashes, List.reverse_append, List.takeWhile_append, List.length_reverse]
  by_cases h : slashes t = t.length
  · have hlen : (t.reverse.takeWhile (· = '\\')).length = t.length := h
    rw [if_pos h, if_pos hlen, List.length_append, List.length_reverse, h, Nat.add_comm, slashes]
  · have hlen : ¬(t.reverse.takeWhile (· = '\\')).length = t.length := h
    rw [if_neg h, if_neg hlen, slashes]

/-- An even run of backslashes before a text does not matter. -/
theorem slashes_append_mod (h : slashes s % 2 = 0) (t : Text) :
    slashes (s ++ t) % 2 = slashes t % 2 := by
  rw [slashes_append]
  split <;> omega

theorem slashes_concat_of_ne (s : Text) (hc : c ≠ '\\') : slashes (s ++ [c]) = 0 := by
  simp [slashes, hc]

/-! ### Separators and parts -/

/-- The separators of a text come after those of a beginning that does not change which of them are
escaped. -/
theorem separators_append
    (h : ∀ i, t[i]? = some '|' → slashes (s ++ t.take i) % 2 = slashes (t.take i) % 2) :
    separators (s ++ t) = separators s ++ (separators t).map (s.length + ·) := by
  have hleft : ∀ i < s.length, IsSeparator (s ++ t) i ↔ IsSeparator s i := by
    intro i hi
    rw [IsSeparator, IsSeparator, List.getElem?_append_left hi,
      List.take_append_of_le_length (Nat.le_of_lt hi)]
  have hright : ∀ i, IsSeparator (s ++ t) (s.length + i) ↔ IsSeparator t i := by
    intro i
    have hget : (s ++ t)[s.length + i]? = t[i]? := by
      rw [List.getElem?_append_right (by omega), Nat.add_sub_cancel_left]
    have htake : (s ++ t).take (s.length + i) = s ++ t.take i := List.take_length_add_append i
    rw [IsSeparator, IsSeparator, hget, htake]
    exact and_congr_right fun hpipe => by rw [h i hpipe]
  rw [separators, List.length_append, List.range_add, List.filter_append,
    List.filter_congr fun i hi => decide_eq_decide.2 (hleft i (List.mem_range.1 hi)),
    List.filter_map]
  congr 2
  exact List.filter_congr fun i _ => decide_eq_decide.2 (hright i)

theorem separators_append_of_even (h : slashes s % 2 = 0) (t : Text) :
    separators (s ++ t) = separators s ++ (separators t).map (s.length + ·) :=
  separators_append fun _ _ => slashes_append_mod h _

theorem separators_singleton_of_ne (hc : c ≠ '|') : separators [c] = [] := by
  simp [separators, IsSeparator, hc]

/-- A character that is no pipe and escapes nothing that matters moves the separators by one. -/
theorem separators_cons_of_part (hpipe : c ≠ '|')
    (hescaped : ∀ more, c = '\\' → t = '|' :: more → False)
    (hslash : ∀ more, c = '\\' → t = '\\' :: more → False) :
    separators (c :: t) = (separators t).map (1 + ·) := by
  -- a single backslash lengthens the run before a pipe only if nothing but backslashes come between
  have hsame : ∀ i, t[i]? = some '|' → slashes ([c] ++ t.take i) % 2 = slashes (t.take i) % 2 := by
    intro i hi
    by_cases hc : c = '\\'
    · cases t with
      | nil => cases hi
      | cons x more =>
        have hx : x ≠ '\\' := fun hx => hslash more hc (by rw [hx])
        cases i with
        | zero => exact absurd (Option.some.inj hi) fun hx => hescaped more hc (by rw [hx])
        | succ i =>
          have hpair := slashes_concat_of_ne [c] hx
          have hone := slashes_concat_of_ne [] hx
          have hleft := slashes_append_mod (by rw [hpair]) (more.take i)
          have hright := slashes_append_mod (by rw [hone]) (more.take i)
          exact hleft.trans hright.symm
    · have hone := slashes_concat_of_ne [] hc
      rw [List.nil_append] at hone
      exact slashes_append_mod (by rw [hone]) _
  have hcons := separators_append hsame
  rwa [separators_singleton_of_ne hpipe, List.nil_append] at hcons

/-- Where the parts end of which the first starts at a position; nothing ends the last one. -/
def ends : ℕ → List Text → List ℕ
  | pos, raw :: next :: rest => (pos + raw.length) :: ends (pos + raw.length + 1) (next :: rest)
  | _, _ => []

theorem ends_cons (pos : ℕ) (raw : Text) (h : raws ≠ []) :
    ends pos (raw :: raws) = (pos + raw.length) :: ends (pos + raw.length + 1) raws := by
  obtain ⟨next, rest, rfl⟩ := List.exists_cons_of_ne_nil h
  rfl

theorem ends_modifyHead (pos : ℕ) (s : Text) (raws : List Text) :
    ends pos (raws.modifyHead (s ++ ·)) = ends (pos + s.length) raws := by
  cases raws with
  | nil => rfl
  | cons raw rest => cases rest with
    | nil => rfl
    | cons next rest => simp [ends, Nat.add_assoc]

theorem map_add_ends (n pos : ℕ) (raws : List Text) :
    (ends pos raws).map (n + ·) = ends (n + pos) raws := by
  induction raws generalizing pos with
  | nil => rfl
  | cons raw rest ih => cases rest with
    | nil => rfl
    | cons next rest => simp only [ends, List.map_cons, ih, Nat.add_assoc]

/-- The parts of a row end at its separators. -/
theorem separators_eq_ends (row : Text) : separators row = ends 0 (parts row) := by
  have hhead : ∀ (s t : Text), separators t = ends 0 (parts t) →
      (separators t).map (s.length + ·) = ends 0 ((parts t).modifyHead (s ++ ·)) := by
    intro s t h
    rw [h, map_add_ends, ends_modifyHead, Nat.add_comm]
  fun_induction parts row with
  | case1 cs ih =>
    have hcons := separators_append_of_even (s := ['|']) (by decide) cs
    rw [ih, map_add_ends] at hcons
    rw [ends_cons 0 [] (parts_ne_nil cs)]
    exact hcons
  | case2 cs ih =>
    have hcons := separators_append_of_even (s := ['\\', '|']) (by decide) cs
    exact hcons.trans (hhead ['\\', '|'] cs ih)
  | case3 cs ih =>
    have hcons := separators_append_of_even (s := ['\\', '\\']) (by decide) cs
    exact hcons.trans (hhead ['\\', '\\'] cs ih)
  | case4 c cs hpipe hescaped hslash ih =>
    exact (separators_cons_of_part hpipe hescaped hslash).trans (hhead [c] cs ih)
  | case5 => rfl

/-- A row is its parts with pipes between them. -/
theorem joinWith_parts (row : Text) : Text.joinWith '|' (parts row) = row := by
  have hhead : ∀ (s t : Text), Text.joinWith '|' (parts t) = t →
      Text.joinWith '|' ((parts t).modifyHead (s ++ ·)) = s ++ t := by
    intro s t h
    obtain ⟨raw, rest, hparts⟩ := List.exists_cons_of_ne_nil (parts_ne_nil t)
    rw [hparts] at h ⊢
    cases rest with
    | nil => simpa using h
    | cons next rest =>
      rw [Text.joinWith_cons_cons] at h
      simp [Text.joinWith_cons_cons, h]
  fun_induction parts row with
  | case1 cs ih =>
    obtain ⟨raw, rest, hparts⟩ := List.exists_cons_of_ne_nil (parts_ne_nil cs)
    rw [hparts] at ih ⊢
    rw [Text.joinWith_cons_cons, ih, List.nil_append]
  | case2 cs ih => exact hhead ['\\', '|'] cs ih
  | case3 cs ih => exact hhead ['\\', '\\'] cs ih
  | case4 c cs _ _ _ ih => exact hhead [c] cs ih
  | case5 => rfl

/-! ### Cells -/

/-- A text between two pipes is what stands between their positions. -/
theorem textBetween_append (before raw after : Text) :
    textBetween (before ++ '|' :: (raw ++ '|' :: after)) before.length
      (before.length + 1 + raw.length) = raw := by
  have hrow : before ++ '|' :: (raw ++ '|' :: after) = (before ++ '|' :: raw) ++ '|' :: after := by
    simp
  have hpipe : before ++ '|' :: raw = before ++ ['|'] ++ raw := by simp
  rw [textBetween, hrow, List.take_left' (by simp; omega), hpipe, List.drop_left' (by simp)]

/-- The blanks at the start of a text end at its first character that is not blank. -/
theorem indent_eq_findIdx (t : Text) : t.indent = t.findIdx fun c => !Text.isBlank c := by
  rw [Text.indent, List.takeWhile_eq_take_findIdx_not, List.length_take]
  exact Nat.min_eq_left List.findIdx_le_length

theorem ofRaw_eq_cellBetween (before raw after : Text) (start : Location) :
    ofRaw start.line (start.column + (before.length + 1)) raw =
      cellBetween (before ++ '|' :: (raw ++ '|' :: after)) start before.length
        (before.length + 1 + raw.length) := by
  rw [ofRaw, cellBetween, textBetween_append, indent_eq_findIdx, Nat.add_assoc]

/-- The cells of parts that come after a pipe are those between neighbouring pipes. -/
theorem ofParts_eq_zipWith (before : Text) (raws : List Text) (start : Location) :
    ofParts start.line (start.column + (before.length + 1)) raws =
      List.zipWith (cellBetween (before ++ '|' :: Text.joinWith '|' raws) start)
        (before.length :: ends (before.length + 1) raws) (ends (before.length + 1) raws) := by
  induction raws generalizing before with
  | nil => rfl
  | cons raw rest ih => cases rest with
    | nil => rfl
    | cons next rest =>
      have hrest := ih (before ++ '|' :: raw)
      have hlen : (before ++ '|' :: raw).length = before.length + 1 + raw.length := by
        simp
        omega
      have hrow : before ++ '|' :: raw ++ '|' :: Text.joinWith '|' (next :: rest) =
          before ++ '|' :: Text.joinWith '|' (raw :: next :: rest) := by
        simp [Text.joinWith_cons_cons]
      rw [hlen, hrow] at hrest
      have hcolumn : start.column + (before.length + 1) + raw.length + 1 =
          start.column + (before.length + 1 + raw.length + 1) := by omega
      rw [ofParts, ends, List.zipWith_cons_cons, hcolumn, hrest, Text.joinWith_cons_cons,
        ← ofRaw_eq_cellBetween]

/-- The cells of a row are the texts between neighbouring separators, trimmed and unescaped, each in
the column of its first significant character or, when it is blank, of the separator after it. -/
theorem split_eq_zipWith (row : Text) (start : Location) :
    split row start =
      List.zipWith (cellBetween row start) (separators row) (separators row).tail := by
  obtain ⟨before, raws, hparts⟩ := List.exists_cons_of_ne_nil (parts_ne_nil row)
  have hrow := joinWith_parts row
  rw [separators_eq_ends, split, hparts]
  rw [hparts] at hrow
  cases raws with
  | nil => rfl
  | cons raw rest =>
    rw [Text.joinWith_cons_cons] at hrow
    have hcells := ofParts_eq_zipWith before (raw :: rest) start
    rw [hrow] at hcells
    simpa [ends, Nat.add_assoc] using hcells

end Gherkin.Cell
