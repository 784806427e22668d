import Gherkin.Line.Cells
import Gherkin.Proofs.Line.Tags
import Gherkin.Proofs.Text.Trim

/-! Columns of what stands on a line, told from the characters alone. A line starts at its first
character that is not blank, the tags of a line at its at signs in order, and a cell after the pipe
of its number: at its first character that is not blank, which in a blank cell is the pipe after
it. -/

namespace Gherkin

/-! ### The first significant character -/

namespace Text

variable {s t : Text} {column : ℕ}

/-- The first character of the text that is not blank is in a column, counted from 1. -/
def FirstAt (t : Text) (column : ℕ) : Prop :=
  ∃ before c after, t = before ++ c :: after ∧ column = before.length + 1 ∧
    (∀ b ∈ before, isBlank b) ∧ isBlank c = false

theorem takeWhile_isBlank (t : Text) : ∀ c ∈ t.takeWhile isBlank, isBlank c :=
  List.all_eq_true.1 List.all_takeWhile

theorem FirstAt.append (h : t.FirstAt column) (s : Text) : (t ++ s).FirstAt column := by
  obtain ⟨before, c, after, rfl, hcolumn, hbefore, hc⟩ := h
  exact ⟨before, c, after ++ s, by simp, hcolumn, hbefore, hc⟩

theorem FirstAt.eq_indent (h : t.FirstAt column) : column = t.indent + 1 := by
  obtain ⟨before, c, after, rfl, rfl, hbefore, hc⟩ := h
  rw [indent, List.takeWhile_append_of_pos hbefore]
  simp [hc]

theorem firstAt_indent (h : t.trim ≠ []) : t.FirstAt (t.indent + 1) := by
  cases hstart : t.trimStart with
  | nil => simp [trim, hstart] at h
  | cons c cs =>
    refine ⟨t.takeWhile isBlank, c, cs, ?_, rfl, takeWhile_isBlank t, ?_⟩
    · rw [← hstart, takeWhile_append_trimStart]
    · exact isBlank_head?_trimStart t c (by rw [hstart]; rfl)

/-- A text up to the next character after it that is not blank. -/
theorem firstAt_append_cons (t : Text) {c : Char} (hc : isBlank c = false) :
    (t ++ [c]).FirstAt (t.indent + 1) := by
  by_cases ht : t.trim = []
  · have hblank := trim_eq_nil_iff.1 ht
    refine ⟨t, c, [], rfl, ?_, hblank, hc⟩
    rw [indent, List.takeWhile_eq_self_iff.2 hblank]
  · exact (firstAt_indent ht).append [c]

/-- A text is its trimmed form between blanks and a rest. -/
theorem exists_append_trim (t : Text) : ∃ tail, t = t.takeWhile isBlank ++ (t.trim ++ tail) := by
  obtain ⟨tail, -, htail⟩ := exists_append_trimEnd t.trimStart
  exact ⟨tail, by rw [trim, ← htail, takeWhile_append_trimStart]⟩

end Text

/-! ### Cells -/

namespace Cell

/-- The number of pipes that no backslash escapes. -/
def pipes : Text → ℕ
  | '\\' :: _ :: cs => pipes cs
  | '|' :: cs => pipes cs + 1
  | _ :: cs => pipes cs
  | [] => 0

/-- A pipe after the text separates cells: no backslash of the text escapes it. -/
def Separates (before : Text) : Prop := pipes (before ++ ['|']) = pipes before + 1

/-- The cell is in the column of the `i`-th cell of a row, the first one being number 0: that of its
first significant character or, when it is blank, of the pipe that closes it. -/
def StandsAt (row : Text) (i : ℕ) (c : Cell) : Prop :=
  ∃ before raw after n, row = before ++ '|' :: (raw ++ '|' :: after) ∧
    Separates before ∧ pipes before = i ∧
    Separates (before ++ '|' :: raw) ∧ pipes (before ++ '|' :: raw) = i + 1 ∧
    Text.FirstAt (raw ++ ['|']) n ∧ c.location.column = before.length + 1 + n

/-- No backslash of the text escapes a character after it. -/
def Whole (t : Text) : Prop := ∀ u, pipes (t ++ u) = pipes t + pipes u

variable {s t row raw : Text} {raws : List Text} {c : Cell} {line column i : ℕ}

theorem pipes_cons_of_ne {c : Char} (hpipe : c ≠ '|') (hslash : c ≠ '\\') (t : Text) :
    pipes (c :: t) = pipes t := by
  rw [pipes] <;> simp_all

theorem Whole.separates (h : Whole t) : Separates t := h ['|']

theorem Whole.append (hs : Whole s) (ht : Whole t) : Whole (s ++ t) := by
  intro u
  rw [List.append_assoc, hs, ht, hs, Nat.add_assoc]

theorem whole_nil : Whole [] := by
  intro u
  simp [pipes]

theorem whole_pipe : Whole ['|'] := by
  intro u
  simp [pipes, Nat.add_comm]

theorem whole_of_blank (h : ∀ c ∈ t, Text.isBlank c) : Whole t ∧ pipes t = 0 := by
  induction t with
  | nil => exact ⟨whole_nil, rfl⟩
  | cons c cs ih =>
    obtain ⟨hc, hcs⟩ := List.forall_mem_cons.1 h
    obtain ⟨hwhole, hpipes⟩ := ih hcs
    have hcons := pipes_cons_of_ne (c := c) (by rintro rfl; cases hc) (by rintro rfl; cases hc)
    exact ⟨fun u => by rw [List.cons_append, hcons, hcons, hwhole u], by rw [hcons, hpipes]⟩

/-- A backslash that starts no escape of a pipe or a backslash escapes no pipe. -/
theorem pipes_cons_of_part {c : Char} {cs : Text} (hpipe : c ≠ '|')
    (hescaped : ∀ more, c = '\\' → cs = '|' :: more → False)
    (hslash : ∀ more, c = '\\' → cs = '\\' :: more → False) : pipes (c :: cs) = pipes cs := by
  by_cases hc : c = '\\'
  · subst hc
    cases cs with
    | nil => rfl
    | cons x more =>
      have hx : x ≠ '|' := fun h => hescaped more rfl (h ▸ rfl)
      have hx' : x ≠ '\\' := fun h => hslash more rfl (h ▸ rfl)
      rw [pipes, pipes_cons_of_ne hx hx']
  · exact pipes_cons_of_ne hpipe hc cs

theorem exists_of_modifyHead {f : Text → Text} {ps rest : List Text}
    (h : ps.modifyHead f = raw :: rest) : ∃ p, ps = p :: rest ∧ raw = f p := by
  cases ps with
  | nil => cases h
  | cons p ps =>
    obtain ⟨rfl, rfl⟩ := List.cons.inj h
    exact ⟨p, rfl, rfl⟩

/-- The first part of a row reaches up to the first pipe that separates. -/
theorem exists_of_parts {next : Text} {rest : List Text} (h : parts row = raw :: next :: rest) :
    ∃ row', row = raw ++ '|' :: row' ∧ parts row' = next :: rest ∧ Whole raw ∧ pipes raw = 0 := by
  fun_induction parts row generalizing raw with
  | case1 cs =>
    obtain ⟨rfl, hparts⟩ := List.cons.inj h
    exact ⟨cs, rfl, hparts, whole_nil, rfl⟩
  | case2 cs ih | case3 cs ih =>
    obtain ⟨p, hp, rfl⟩ := exists_of_modifyHead h
    obtain ⟨row', rfl, hparts, hwhole, hpipes⟩ := ih hp
    exact ⟨row', rfl, hparts, fun u => hwhole u, hpipes⟩
  | case4 c cs hpipe hescaped hslash ih =>
    obtain ⟨p, hp, rfl⟩ := exists_of_modifyHead h
    obtain ⟨row', rfl, hparts, hwhole, hpipes⟩ := ih hp
    have hcons (u : Text) : pipes (c :: (p ++ u)) = pipes (p ++ u) := by
      cases p with
      | nil => exact pipes_cons_of_ne hpipe (fun hc => hescaped row' hc rfl) u
      | cons x p =>
        refine pipes_cons_of_part hpipe (fun more hc hx => ?_) fun more hc hx => ?_
        · obtain ⟨rfl, -⟩ := List.cons.inj hx
          exact hescaped _ hc rfl
        · obtain ⟨rfl, -⟩ := List.cons.inj hx
          exact hslash _ hc rfl
    have hnil := hcons []
    rw [List.append_nil] at hnil
    refine ⟨row', rfl, hparts, fun u => ?_, hnil.trans hpipes⟩
    rw [List.cons_append, hcons, hwhole, hnil]
  | case5 => cases h

/-- The cells of a row stand at its pipes, whatever comes before and after it on the line. -/
theorem standsAt_ofParts (before tail : Text) (hparts : parts row = raws) (hwhole : Whole before)
    (hcolumn : column = before.length + 2) (hc : (ofParts line column raws)[i]? = some c) :
    StandsAt (before ++ '|' :: (row ++ tail)) (pipes before + i) c := by
  induction raws generalizing row before column i with
  | nil => cases hc
  | cons raw rest ih =>
    cases rest with
    | nil => cases hc
    | cons next rest =>
      obtain ⟨row', rfl, hrest, hraw, hpipes⟩ := exists_of_parts hparts
      have hpipe := (hwhole.append whole_pipe).append hraw
      have hcount : pipes (before ++ ['|'] ++ raw) = pipes before + 1 := by
        rw [hwhole.append whole_pipe raw, hwhole ['|'], hpipes]
        rfl
      have hassoc : before ++ ['|'] ++ raw = before ++ '|' :: raw := by simp
      rw [hassoc] at hpipe hcount
      cases i with
      | zero =>
        obtain rfl := Option.some.inj hc
        refine ⟨before, raw, row' ++ tail, raw.indent + 1, by simp, hwhole.separates, rfl,
          hpipe.separates, hcount, Text.firstAt_append_cons raw (by decide), ?_⟩
        rw [ofRaw, hcolumn]
        dsimp only
        omega
      | succ i =>
        have hnext := ih (before ++ '|' :: raw) hrest hpipe (by simp [hcolumn]; omega) hc
        rw [hcount] at hnext
        have hindex : pipes before + 1 + i = pipes before + (i + 1) := by omega
        rw [hindex] at hnext
        simpa using hnext

/-- The cells of a row that stands behind blanks on its line. -/
theorem standsAt_split {blanks : Text} {start : Location} (tail : Text)
    (hblanks : ∀ b ∈ blanks, Text.isBlank b) (hcolumn : start.column = blanks.length + 1)
    (hc : (split row start)[i]? = some c) :
    StandsAt (blanks ++ (row ++ tail)) i c := by
  unfold split at hc
  split at hc
  · next before rest hparts =>
    cases rest with
    | nil => cases hc
    | cons raw rest =>
      obtain ⟨row', rfl, hrest, hbefore, hpipes⟩ := exists_of_parts hparts
      obtain ⟨hblank, hnone⟩ := whole_of_blank hblanks
      have hcells := standsAt_ofParts (blanks ++ before) tail hrest (hblank.append hbefore)
        (by simp [hcolumn]; omega) hc
      rw [hblank before, hnone, hpipes, Nat.zero_add] at hcells
      simpa using hcells
  · cases hc

end Cell

/-! ### Tags -/

namespace LocatedTag

/-- The tag is in the column of the `i`-th at sign of a line, the first one being number 0, and its
name is written there. -/
def StandsAt (line : Text) (i : ℕ) (x : LocatedTag) : Prop :=
  ∃ before name after, line = before ++ '@' :: (name ++ after) ∧ x.name = '@' :: name ∧
    before.count '@' = i ∧ x.location.column = before.length + 1

variable {t : Text} {found : List LocatedTag} {line column i : ℕ} {x : LocatedTag}

theorem count_of_isNameChar {name : Text} (h : ∀ c ∈ name, isNameChar c) : name.count '@' = 0 :=
  List.count_eq_zero_of_not_mem fun hmem => by simpa [isNameChar] using h _ hmem

theorem standsAt_splitFrom (before tail : Text) (h : splitFrom line column t = .ok found)
    (hcolumn : column = before.length + 1) (hx : found[i]? = some x) :
    x.StandsAt (before ++ (t ++ tail)) (before.count '@' + i) := by
  fun_induction splitFrom line column t generalizing found before i with
  | case1 | case3 =>
    cases h
    cases hx
  | case2 column c cs hblank ih =>
    have hc : c ≠ '@' := by
      rintro rfl
      cases hblank
    have hcs := ih (before ++ [c]) h (by simp [hcolumn]) hx
    simpa [List.count_append, List.count_singleton, hc] using hcs
  | case4 | case6 => cases h
  | case5 column cs name hname =>
    rename_i ih
    cases hmore : splitFrom line (column + 1 + name.length) (cs.dropWhile isNameChar) with
    | error e =>
      rw [hmore] at h
      cases h
    | ok more =>
      rw [hmore] at h
      obtain rfl := Except.ok.inj h
      have hcs : cs = name ++ cs.dropWhile isNameChar := List.takeWhile_append_dropWhile.symm
      cases i with
      | zero =>
        obtain rfl := Option.some.inj hx
        refine ⟨before, name, cs.dropWhile isNameChar ++ tail, ?_, rfl, rfl, hcolumn⟩
        rw [← List.append_assoc name, ← hcs, List.cons_append]
      | succ i =>
        have hchars : ∀ c ∈ name, isNameChar c := List.all_eq_true.1 List.all_takeWhile
        have hcount : (before ++ '@' :: name).count '@' + i = before.count '@' + (i + 1) := by
          rw [List.count_append, List.count_cons_self, count_of_isNameChar hchars]
          omega
        have hrest := ih (before ++ '@' :: name) hmore (by simp [hcolumn]; omega) hx
        rw [hcount] at hrest
        have hline : before ++ ('@' :: cs ++ tail) =
            before ++ '@' :: name ++ (cs.dropWhile isNameChar ++ tail) := by
          rw [congrArg (fun t => before ++ ('@' :: t ++ tail)) hcs]
          simp
        rwa [hline]

/-- The tags of a line that starts behind blanks. -/
theorem standsAt_split {blanks : Text} {start : Location} (tail : Text)
    (hblanks : ∀ b ∈ blanks, Text.isBlank b) (hcolumn : start.column = blanks.length + 1)
    (h : split t start = .ok found) (hx : found[i]? = some x) :
    x.StandsAt (blanks ++ (t ++ tail)) i := by
  have hnone : blanks.count '@' = 0 := List.count_eq_zero_of_not_mem fun hmem => by
    cases hblanks _ hmem
  have htags := standsAt_splitFrom blanks tail h hcolumn hx
  rwa [hnone, Nat.zero_add] at htags

end LocatedTag

end Gherkin
