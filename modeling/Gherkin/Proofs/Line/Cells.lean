import Gherkin.Layout.Page
import Gherkin.Proofs.Text.Trim

/-! A row of cells is read as it was written: no pipe or backslash of a value separates cells, and
the blanks that fill a column up are trimmed away. -/

namespace Gherkin

namespace Cell

/-- A value that starts and ends with no blank when it is written as a cell. -/
def Fits (value : Text) : Prop := (escape value).trim = escape value

theorem parts_cons_of_ne {c : Char} (hpipe : c ≠ '|') (hslash : c ≠ '\\') (t : Text) :
    parts (c :: t) = (parts t).modifyHead (c :: ·) := by
  rw [parts] <;> simp_all

theorem parts_escapeChar (c : Char) (t : Text) :
    parts (escapeChar c ++ t) = (parts t).modifyHead (escapeChar c ++ ·) := by
  unfold escapeChar
  split
  · simp [parts]
  · simp [parts]
  · have h : parts ('\\' :: 'n' :: t) = (parts ('n' :: t)).modifyHead ('\\' :: ·) := by
      rw [parts] <;> simp
    rw [List.cons_append, List.cons_append, List.nil_append, h,
      parts_cons_of_ne (by decide) (by decide)]
    cases parts t <;> simp
  · next h₁ h₂ _ => exact parts_cons_of_ne h₂ h₁ t

/-- A written value does not separate cells. -/
theorem parts_escape (value t : Text) :
    parts (escape value ++ t) = (parts t).modifyHead (escape value ++ ·) := by
  induction value with
  | nil => cases h : parts t <;> simp [escape, h]
  | cons c cs ih =>
    have hcons : escape (c :: cs) = escapeChar c ++ escape cs := rfl
    rw [hcons, List.append_assoc, parts_escapeChar, ih]
    cases parts t <;> simp

theorem parts_replicate (n : Nat) (t : Text) :
    parts (List.replicate n ' ' ++ t) = (parts t).modifyHead (List.replicate n ' ' ++ ·) := by
  induction n with
  | zero => cases h : parts t <;> simp [h]
  | succ n ih =>
    rw [List.replicate_succ, List.cons_append, parts_cons_of_ne (by decide) (by decide), ih]
    cases parts t <;> simp

theorem parts_pad (width : Nat) (value t : Text) :
    parts (Page.pad width (escape value) ++ t) =
      (parts t).modifyHead (Page.pad width (escape value) ++ ·) := by
  rw [Page.pad, List.append_assoc, parts_escape, parts_replicate]
  cases parts t <;> simp

/-- The values of parts; the part after the last pipe counts for nothing. -/
theorem map_value_ofParts (line column : Nat) (raws : List Text) :
    (ofParts line column raws).map Cell.value = raws.dropLast.map fun raw => unescape raw.trim := by
  induction raws generalizing column with
  | nil => rfl
  | cons raw raws ih =>
    cases raws with
    | nil => rfl
    | cons next rest => rw [ofParts, List.map_cons, ih]; rfl

/-- The values of a row do not depend on where it stands. -/
theorem map_value_split_eq (row : Text) (start start' : Location) :
    (split row start).map Cell.value = (split row start').map Cell.value := by
  unfold split
  cases parts row with
  | nil => rfl
  | cons before rest => rw [map_value_ofParts, map_value_ofParts]

/-! ### Values that are read -/

theorem line_of_ofParts {line column : Nat} {raws : List Text} :
    ∀ c ∈ ofParts line column raws, c.location.line = line := by
  induction raws generalizing column with
  | nil => simp [ofParts]
  | cons raw raws ih =>
    cases raws with
    | nil => simp [ofParts]
    | cons next rest => exact List.forall_mem_cons.2 ⟨rfl, ih⟩

/-- The cells of a row stand on its line. -/
theorem line_of_split {row : Text} {start : Location} {c : Cell} (h : c ∈ split row start) :
    c.location.line = start.line := by
  unfold split at h
  split at h
  · exact line_of_ofParts c h
  · cases h

theorem escape_cons (c : Char) (t : Text) : escape (c :: t) = escapeChar c ++ escape t := rfl

/-- A character is written with no blank at either end, unless it is one. -/
theorem ends_escapeChar {c : Char} (h : Text.isBlank c = false ∨ c = '\n') :
    (∀ b ∈ (escapeChar c).head?, Text.isBlank b = false) ∧
      ∀ b ∈ (escapeChar c).getLast?, Text.isBlank b = false := by
  have hslash : Text.isBlank '\\' = false := rfl
  have hpipe : Text.isBlank '|' = false := rfl
  have hletter : Text.isBlank 'n' = false := rfl
  unfold escapeChar
  split
  · simp [hslash]
  · simp [hslash, hpipe]
  · simp [hslash, hletter]
  · next hline =>
    have hc : Text.isBlank c = false := h.resolve_right hline
    simpa using hc

theorem escapeChar_ne_nil (c : Char) : escapeChar c ≠ [] := by
  unfold escapeChar
  split <;> simp

theorem not_mem_escape (value : Text) : '\n' ∉ escape value := by
  intro h
  obtain ⟨c, -, hc⟩ := List.mem_flatMap.1 h
  unfold escapeChar at hc
  split at hc
  · simp at hc
  · simp at hc
  · simp at hc
  · next hline => exact hline (List.mem_singleton.1 hc).symm

theorem escape_eq_nil_iff {t : Text} : escape t = [] ↔ t = [] := by
  cases t <;> simp [escape, escapeChar_ne_nil]

theorem unescape_eq_nil_iff {t : Text} : unescape t = [] ↔ t = [] := by
  fun_cases unescape t <;> simp

theorem head?_escape_unescape {t : Text} (h : ∀ c ∈ t.head?, Text.isBlank c = false) :
    ∀ b ∈ (escape (unescape t)).head?, Text.isBlank b = false := by
  have hcons : ∀ {c : Char} (cs : Text), Text.isBlank c = false ∨ c = '\n' →
      ∀ b ∈ (escape (c :: cs)).head?, Text.isBlank b = false := by
    intro c cs hc b hb
    obtain ⟨a, as, hesc⟩ := List.exists_cons_of_ne_nil (escapeChar_ne_nil c)
    rw [escape_cons, hesc] at hb
    exact (ends_escapeChar hc).1 b (hesc ▸ hb)
  fun_cases unescape t with
  | case1 cs | case2 cs => exact hcons _ (.inl (by decide))
  | case3 cs => exact hcons _ (.inr rfl)
  | case4 c cs => exact hcons _ (.inl (h c rfl))
  | case5 => simp [escape]

theorem getLast?_escape_unescape {t : Text} (h : ∀ c ∈ t.getLast?, Text.isBlank c = false) :
    ∀ b ∈ (escape (unescape t)).getLast?, Text.isBlank b = false := by
  -- the last character is that of what follows, or of the first when nothing does
  have hcons : ∀ {c : Char} {cs : Text}, (cs = [] → Text.isBlank c = false ∨ c = '\n') →
      (∀ b ∈ (escape cs).getLast?, Text.isBlank b = false) →
      ∀ b ∈ (escape (c :: cs)).getLast?, Text.isBlank b = false := by
    intro c cs hc hcs b hb
    rw [escape_cons, List.getLast?_append] at hb
    cases hlast : (escape cs).getLast? with
    | none =>
      rw [hlast] at hb
      have hnil : cs = [] := escape_eq_nil_iff.1 (List.getLast?_eq_none_iff.1 hlast)
      exact (ends_escapeChar (hc hnil)).2 b hb
    | some a =>
      rw [hlast] at hb
      obtain rfl := Option.some.inj hb
      exact hcs a hlast
  have htail : ∀ {c : Char} {cs : Text}, (∀ b ∈ (c :: cs).getLast?, Text.isBlank b = false) →
      ∀ b ∈ cs.getLast?, Text.isBlank b = false := by
    intro c cs hcs b hb
    refine hcs b ?_
    rw [List.getLast?_cons, Option.mem_def.1 hb]
    rfl
  fun_induction unescape t with
  | case1 cs ih | case2 cs ih =>
    exact hcons (fun _ => .inl (by decide)) (ih (htail (htail h)))
  | case3 cs ih => exact hcons (fun _ => .inr rfl) (ih (htail (htail h)))
  | case4 c cs _ _ _ ih =>
    refine hcons (fun hnil => .inl (h c ?_)) (ih (htail h))
    rw [unescape_eq_nil_iff.1 hnil]
    rfl
  | case5 => simp [escape]

/-- A value read from a trimmed cell is written without blanks at either end. -/
theorem fits_unescape {t : Text} (h : t.trim = t) : Fits (unescape t) := by
  obtain ⟨hstart, hend⟩ := Text.trim_eq_self_iff.1 h
  rw [Text.trimStart_eq_self_iff] at hstart
  rw [Text.trimEnd_eq_self_iff] at hend
  exact Text.trim_eq_self_iff.2 ⟨Text.trimStart_eq_self_iff.2 (head?_escape_unescape hstart),
    Text.trimEnd_eq_self_iff.2 (getLast?_escape_unescape hend)⟩

theorem fits_split {row : Text} {start : Location} : ∀ c ∈ split row start, Fits c.value := by
  intro c hc
  have hvalue : c.value ∈ (split row start).map Cell.value := List.mem_map_of_mem hc
  unfold split at hvalue
  cases hparts : parts row with
  | nil =>
    rw [hparts] at hvalue
    cases hvalue
  | cons before rest =>
    simp only [hparts, map_value_ofParts] at hvalue
    obtain ⟨raw, -, hraw⟩ := List.mem_map.1 hvalue
    rw [← hraw]
    exact fits_unescape (Text.trim_trim raw)

/-- A written cell with the blanks around it. -/
def padded (width : Nat) (value : Text) : Text := ' ' :: (Page.pad width (escape value) ++ [' '])

theorem trim_padded {value : Text} (h : Fits value) (width : Nat) :
    (padded width value).trim = escape value := by
  have hblank : ∀ c ∈ [' '], Text.isBlank c := List.forall_mem_singleton.2 rfl
  have hfill : ∀ c ∈ List.replicate (width - (escape value).length) ' ', Text.isBlank c := by
    intro c hc
    rw [List.eq_of_mem_replicate hc]
    decide
  rw [padded, ← List.singleton_append, Text.trim_append_of_blank hblank,
    Text.trim_append_right_of_blank hblank, Page.pad, Text.trim_append_right_of_blank hfill, h]

theorem parts_padded (width : Nat) (value t : Text) :
    parts (padded width value ++ '|' :: t) = padded width value :: parts t := by
  have hend : parts (' ' :: '|' :: t) = [' '] :: parts t := by
    rw [parts_cons_of_ne (by decide) (by decide), parts]
    rfl
  rw [padded, List.cons_append, parts_cons_of_ne (by decide) (by decide), List.append_assoc,
    List.singleton_append, parts_pad, hend]
  rfl

/-- A row is a pipe and then, for every cell, the cell and another pipe. -/
theorem rowText_eq (cells : List Text) :
    Page.rowText cells = '|' :: cells.flatMap fun cell => ' ' :: (cell ++ [' ', '|']) := by
  have hjoin : ∀ (cell : Text) (more : List Text),
      List.intercalate [' ', '|', ' '] (cell :: more) ++ [' ', '|'] =
        cell ++ [' ', '|'] ++ more.flatMap fun cell => ' ' :: (cell ++ [' ', '|']) := by
    intro cell more
    induction more generalizing cell with
    | nil => simp [List.intercalate]
    | cons next more ih =>
      have hcons : List.intercalate [' ', '|', ' '] (cell :: next :: more) =
          cell ++ [' ', '|', ' '] ++ List.intercalate [' ', '|', ' '] (next :: more) := by
        simp [List.intercalate, List.intersperse]
      rw [hcons, List.append_assoc, ih]
      simp
  cases cells with
  | nil => rfl
  | cons cell more =>
    have hopen : "| ".toList = ['|', ' '] := rfl
    have hbetween : " | ".toList = [' ', '|', ' '] := rfl
    have hclose : " |".toList = [' ', '|'] := rfl
    rw [Page.rowText, if_neg (List.cons_ne_nil _ _), hopen, hbetween, hclose, List.append_assoc,
      hjoin]
    simp

theorem parts_row (row : List Text) (width : Nat → Nat) :
    parts ((row.mapIdx fun k value => Page.pad (width k) (escape value)).flatMap
      fun cell => ' ' :: (cell ++ [' ', '|'])) =
      (row.mapIdx fun k value => padded (width k) value) ++ [[]] := by
  induction row generalizing width with
  | nil => rfl
  | cons value row ih =>
    have hhead : ∀ t, ' ' :: (Page.pad (width 0) (escape value) ++ [' ', '|']) ++ t =
        padded (width 0) value ++ '|' :: t := by
      intro t
      simp [padded]
    rw [List.mapIdx_cons, List.flatMap_cons, hhead, parts_padded, ih fun k => width (k + 1),
      List.mapIdx_cons]
    rfl

/-- The cells of a written row. -/
theorem map_value_split {row : List Text} (h : ∀ value ∈ row, Fits value) (width : Nat → Nat)
    (start : Location) :
    (split (Page.rowText (row.mapIdx fun k value => Page.pad (width k) (escape value))) start).map
      Cell.value = row := by
  have hparts : parts (Page.rowText (row.mapIdx fun k value => Page.pad (width k) (escape value))) =
      [] :: ((row.mapIdx fun k value => padded (width k) value) ++ [[]]) := by
    rw [rowText_eq, parts, parts_row]
  rw [split, hparts]
  simp only [map_value_ofParts, List.dropLast_concat]
  refine List.ext_getElem (by simp) fun k hk hk' => ?_
  rw [List.getElem_map, List.getElem_mapIdx, trim_padded (h _ (List.getElem_mem _)), unescape_escape]

end Cell

end Gherkin
