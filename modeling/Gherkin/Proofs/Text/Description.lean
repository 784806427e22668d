import Mathlib.Data.List.Basic
import Gherkin.Proofs.Text.Trim
import Gherkin.Text.Description

/-! Descriptions in normal form. The normal form of a text is its own normal form exactly when no
line has blanks at its end, no empty line stands at either end, and some line that is not empty is
not indented. Indenting such a text by a run of blanks and bringing it into normal form gives it
back. -/

namespace Gherkin.Text

variable {p t : Text} {ls : List Text}

/-- Puts `p` in front of a line that is not empty. -/
def shift (p t : Text) : Text := if t = [] then [] else p ++ t

@[simp] theorem shift_nil (p : Text) : shift p [] = [] := rfl

theorem shift_of_ne (h : t ≠ []) : shift p t = p ++ t := if_neg h

@[simp] theorem shift_eq_nil_iff : shift p t = [] ↔ t = [] := by
  unfold shift
  split <;> simp_all

@[simp] theorem nil_shift (t : Text) : shift [] t = t := by
  unfold shift
  split <;> simp_all

theorem shift_shift (p q t : Text) : shift p (shift q t) = shift (p ++ q) t := by
  unfold shift
  split_ifs <;> simp_all

theorem trimEnd_shift (h : trimEnd t = t) : trimEnd (shift p t) = shift p t := by
  by_cases ht : t = []
  · simp [ht]
  · rw [trimEnd_eq_self_iff] at h ⊢
    rwa [shift_of_ne ht, List.getLast?_append_of_ne_nil _ ht]

/-! ### Lines of a normal form -/

/-- Lines of a text in normal form, of which there are some. -/
structure IsDescription (ls : List Text) : Prop where
  ne_nil : ls ≠ []
  trimmed : ∀ l ∈ ls, trimEnd l = l
  head : ∀ l ∈ ls.head?, l ≠ []
  last : ∀ l ∈ ls.getLast?, l ≠ []
  unindented : ∃ l ∈ ls, l ≠ [] ∧ indent l = 0

theorem mem_joinWith {sep c : Char} {t : Text} {ts : List Text} (ht : t ∈ ts) (hc : c ∈ t) :
    c ∈ joinWith sep ts := by
  induction ts with
  | nil => cases ht
  | cons u us ih =>
    cases us with
    | nil =>
      rw [joinWith_singleton]
      rwa [← List.mem_singleton.1 ht]
    | cons w ws =>
      rw [joinWith_cons_cons, List.mem_append, List.mem_cons]
      rcases List.mem_cons.1 ht with rfl | ht
      · exact .inl hc
      · exact .inr (.inr (ih ht))

/-- The normal form of a text of blanks is empty. -/
theorem normalizeDescription_of_blank (h : ∀ c ∈ t, isBlank c) : normalizeDescription t = [] := by
  have hempty : (t.lines.map trimEnd).dropWhile List.isEmpty = [] := by
    rw [List.dropWhile_eq_nil_iff]
    intro m hm
    obtain ⟨l, hl, rfl⟩ := List.mem_map.1 hm
    rw [List.isEmpty_iff, trimEnd_eq_nil_iff]
    intro c hc
    refine h c ?_
    rw [← unlines_lines t]
    exact mem_joinWith hl hc
  rw [normalizeDescription, descriptionLines, dropEmptyEnds, hempty]
  rfl

theorem dropEmptyEnds_sublist (ls : List Text) : (dropEmptyEnds ls).Sublist ls := by
  have hend := (List.dropWhile_sublist (l := (ls.dropWhile List.isEmpty).reverse)
    List.isEmpty).reverse
  rw [List.reverse_reverse] at hend
  exact hend.trans (List.dropWhile_sublist _)

theorem dropEmptyEnds_eq_self_iff :
    dropEmptyEnds ls = ls ↔ (∀ l ∈ ls.head?, l ≠ []) ∧ ∀ l ∈ ls.getLast?, l ≠ [] := by
  have hstart : (∀ l ∈ ls.head?, l ≠ []) ↔ ls.dropWhile List.isEmpty = ls := by
    rw [dropWhile_eq_self_iff]
    simp
  have hend : (∀ l ∈ ls.getLast?, l ≠ []) ↔ ls.reverse.dropWhile List.isEmpty = ls.reverse := by
    rw [dropWhile_eq_self_iff, List.head?_reverse]
    simp
  rw [hstart, hend]
  constructor
  · intro h
    have hlen : ls.length ≤ (ls.dropWhile List.isEmpty).length := by
      have hle := (List.dropWhile_sublist (l := (ls.dropWhile List.isEmpty).reverse)
        List.isEmpty).length_le
      rw [← congrArg List.length h, dropEmptyEnds, List.length_reverse]
      rwa [List.length_reverse] at hle
    have hs := (List.dropWhile_sublist List.isEmpty).eq_of_length_le hlen
    rw [dropEmptyEnds, hs] at h
    exact ⟨hs, List.reverse_eq_iff.1 h⟩
  · rintro ⟨hs, he⟩
    rw [dropEmptyEnds, hs, he, List.reverse_reverse]

/-- The indentation that lines share is that of the least indented one. -/
theorem sharedIndent_eq_of_least {n : ℕ} (hmem : ∃ l ∈ ls, l ≠ [] ∧ indent l = n)
    (hle : ∀ l ∈ ls, l ≠ [] → n ≤ indent l) : sharedIndent ls = n := by
  have hmin : ((ls.filter fun l => !l.isEmpty).map indent).min? = some n := by
    rw [List.min?_eq_some_iff]
    constructor
    · obtain ⟨l, hl, hne, rfl⟩ := hmem
      exact List.mem_map_of_mem (List.mem_filter.2 ⟨hl, by simpa using hne⟩)
    · intro m hm
      obtain ⟨l, hl, rfl⟩ := List.mem_map.1 hm
      obtain ⟨hl, hne⟩ := List.mem_filter.1 hl
      exact hle l hl (by simpa using hne)
  rw [sharedIndent, hmin]
  rfl

/-- Some line is indented by just what all lines share. -/
theorem exists_indent_eq (h : ∃ l ∈ ls, l ≠ []) : ∃ l ∈ ls, l ≠ [] ∧ indent l = sharedIndent ls := by
  obtain ⟨l, hl, hne⟩ := h
  cases hmin : ((ls.filter fun l => !l.isEmpty).map indent).min? with
  | none =>
    rw [List.min?_eq_none_iff, List.map_eq_nil_iff, List.filter_eq_nil_iff] at hmin
    exact absurd hne (by simpa using hmin l hl)
  | some n =>
    obtain ⟨m, hm, hindent⟩ := List.mem_map.1 (List.min?_mem hmin)
    obtain ⟨hm, hne⟩ := List.mem_filter.1 hm
    refine ⟨m, hm, by simpa using hne, ?_⟩
    rw [hindent, sharedIndent, hmin, Option.getD_some]

theorem sharedIndent_le {l : Text} (hl : l ∈ ls) (hne : l ≠ []) : sharedIndent ls ≤ indent l := by
  have hmem : indent l ∈ (ls.filter fun l => !l.isEmpty).map indent :=
    List.mem_map_of_mem (List.mem_filter.2 ⟨hl, by simpa using hne⟩)
  unfold sharedIndent
  cases hmin : ((ls.filter fun l => !l.isEmpty).map indent).min? with
  | none =>
    rw [List.min?_eq_none_iff] at hmin
    rw [hmin] at hmem
    cases hmem
  | some n => exact (List.min?_eq_some_iff.1 hmin).2 _ hmem

theorem exists_unindented (h : ∃ l ∈ ls, l ≠ []) (hzero : sharedIndent ls = 0) :
    ∃ l ∈ ls, l ≠ [] ∧ indent l = 0 := by
  rw [← hzero]
  exact exists_indent_eq h

theorem not_mem_descriptionLines {l : Text} (h : l ∈ descriptionLines t) : '\n' ∉ l := by
  obtain ⟨m, hm, rfl⟩ := List.mem_map.1 h
  obtain ⟨n, hn, rfl⟩ := List.mem_map.1 ((dropEmptyEnds_sublist _).subset hm)
  intro hmem
  exact not_mem_lines hn ((trimEnd_sublist n).subset (List.mem_of_mem_drop hmem))

/-- A text in normal form is made of the lines that its normal form is made of. -/
theorem lines_of_normal (h : normalizeDescription t = t) (ht : t ≠ []) :
    t.lines = descriptionLines t := by
  cases hl : descriptionLines t with
  | nil =>
    rw [normalizeDescription, hl] at h
    exact absurd h.symm ht
  | cons l ls =>
    rw [← h, normalizeDescription, hl]
    exact lines_unlines l ls fun m hm => not_mem_descriptionLines (hl ▸ hm)

theorem isDescription_of_normal (h : normalizeDescription t = t) (ht : t ≠ []) :
    IsDescription t.lines := by
  have hlines := lines_of_normal h ht
  rw [descriptionLines] at hlines
  -- no line is dropped, so nothing is cut off any line either
  have hkeep : dropEmptyEnds (t.lines.map trimEnd) = t.lines.map trimEnd := by
    refine (dropEmptyEnds_sublist _).eq_of_length_le ?_
    have hlen := congrArg List.length hlines
    simp only [List.length_map] at hlen ⊢
    exact hlen.le
  rw [hkeep, List.map_map] at hlines
  have hcut : ∀ l ∈ t.lines, l = (trimEnd l).drop (sharedIndent (t.lines.map trimEnd)) :=
    List.map_inj_left.1 ((List.map_id _).trans hlines)
  have htrim : ∀ l ∈ t.lines, trimEnd l = l := by
    intro l hl
    refine (trimEnd_sublist l).eq_of_length_le ?_
    have hlen := congrArg List.length (hcut l hl)
    rw [List.length_drop] at hlen
    omega
  have hmap : t.lines.map trimEnd = t.lines := List.map_congr_left htrim |>.trans (List.map_id _)
  rw [hmap] at hkeep hcut
  obtain ⟨hhead, hlast⟩ := dropEmptyEnds_eq_self_iff.1 hkeep
  obtain ⟨l, ls, hcons⟩ := List.exists_cons_of_ne_nil (lines_ne_nil t)
  have hl : l ∈ t.lines := by simp [hcons]
  have hne : l ≠ [] := hhead l (by simp [hcons])
  have hzero : sharedIndent t.lines = 0 := by
    have hlen := congrArg List.length (hcut l hl)
    rw [htrim l hl, List.length_drop] at hlen
    have := List.length_pos_of_ne_nil hne
    omega
  exact ⟨lines_ne_nil t, htrim, hhead, hlast, exists_unindented ⟨l, hl, hne⟩ hzero⟩

theorem indent_append_of_blank (h : ∀ c ∈ p, isBlank c) (t : Text) :
    indent (p ++ t) = p.length + indent t := by
  rw [indent, List.takeWhile_append_of_pos h, List.length_append, indent]

/-! ### Indented lines -/

theorem dropWhile_isEmpty_map_shift (p : Text) (ls : List Text) :
    (ls.map (shift p)).dropWhile List.isEmpty = (ls.dropWhile List.isEmpty).map (shift p) := by
  have hsame : List.isEmpty ∘ shift p = List.isEmpty := by
    funext l
    rw [Bool.eq_iff_iff]
    simp
  rw [List.dropWhile_map, hsame]

theorem dropEmptyEnds_map_shift (p : Text) (ls : List Text) :
    dropEmptyEnds (ls.map (shift p)) = (dropEmptyEnds ls).map (shift p) := by
  rw [dropEmptyEnds, dropWhile_isEmpty_map_shift, ← List.map_reverse, dropWhile_isEmpty_map_shift,
    ← List.map_reverse, dropEmptyEnds]

theorem sharedIndent_map_shift (hp : ∀ c ∈ p, isBlank c) (h : ∃ l ∈ ls, l ≠ []) :
    sharedIndent (ls.map (shift p)) = p.length + sharedIndent ls := by
  refine sharedIndent_eq_of_least ?_ fun m hm hne => ?_
  · obtain ⟨l, hl, hne, hleast⟩ := exists_indent_eq h
    refine ⟨shift p l, List.mem_map_of_mem hl, fun e => hne (shift_eq_nil_iff.1 e), ?_⟩
    rw [shift_of_ne hne, indent_append_of_blank hp, hleast]
  · obtain ⟨l, hl, rfl⟩ := List.mem_map.1 hm
    have hl' : l ≠ [] := fun e => hne (shift_eq_nil_iff.2 e)
    rw [shift_of_ne hl', indent_append_of_blank hp]
    exact Nat.add_le_add_left (sharedIndent_le hl hl') _

theorem drop_shift (p t : Text) (n : ℕ) : (shift p t).drop (p.length + n) = t.drop n := by
  by_cases ht : t = []
  · simp [ht]
  · rw [shift_of_ne ht, ← List.drop_drop, List.drop_left]

/-- The lines of a description that is given by lines without blanks at their ends. -/
theorem descriptionLines_unlines (htrim : ∀ l ∈ ls, trimEnd l = l) (hline : ∀ l ∈ ls, '\n' ∉ l) :
    descriptionLines (unlines ls) =
      (dropEmptyEnds ls).map (List.drop (sharedIndent (dropEmptyEnds ls))) := by
  cases ls with
  | nil => rfl
  | cons l ls =>
    have hmap : (l :: ls).map trimEnd = l :: ls := (List.map_congr_left htrim).trans (List.map_id _)
    rw [descriptionLines, lines_unlines l ls hline, hmap]

/-- Indenting all lines of a description does not change its normal form. -/
theorem normalizeDescription_shift (htrim : ∀ l ∈ ls, trimEnd l = l) (hline : ∀ l ∈ ls, '\n' ∉ l)
    (hp : ∀ c ∈ p, isBlank c) (hpline : '\n' ∉ p) :
    normalizeDescription (unlines (ls.map (shift p))) = normalizeDescription (unlines ls) := by
  have htrim' : ∀ m ∈ ls.map (shift p), trimEnd m = m :=
    List.forall_mem_map.2 fun l hl => trimEnd_shift (htrim l hl)
  have hline' : ∀ m ∈ ls.map (shift p), '\n' ∉ m := by
    refine List.forall_mem_map.2 fun l hl => ?_
    unfold shift
    split
    · simp
    · simp [hpline, hline l hl]
  rw [normalizeDescription, normalizeDescription, descriptionLines_unlines htrim hline,
    descriptionLines_unlines htrim' hline', dropEmptyEnds_map_shift, List.map_map]
  congr 1
  by_cases h : ∃ l ∈ dropEmptyEnds ls, l ≠ []
  · rw [sharedIndent_map_shift hp h]
    exact List.map_congr_left fun l _ => drop_shift p l _
  · have hempty : ∀ l ∈ dropEmptyEnds ls, l = [] := by simpa using h
    refine List.map_congr_left fun l hl => ?_
    simp [hempty l hl]

theorem IsDescription.normalize (h : IsDescription ls) (hline : ∀ l ∈ ls, '\n' ∉ l) :
    normalizeDescription (unlines ls) = unlines ls := by
  obtain ⟨l, hl, hne, hzero⟩ := h.unindented
  have hshared : sharedIndent ls = 0 := sharedIndent_eq_of_least ⟨l, hl, hne, hzero⟩ (by simp)
  rw [normalizeDescription, descriptionLines_unlines h.trimmed hline,
    dropEmptyEnds_eq_self_iff.2 ⟨h.head, h.last⟩, hshared]
  exact congrArg unlines (List.map_id _)

/-- Indented lines are lines of a description but for their indentation. -/
theorem IsDescription.normalize_shift (h : IsDescription ls) (hline : ∀ l ∈ ls, '\n' ∉ l)
    (hp : ∀ c ∈ p, isBlank c) (hpline : '\n' ∉ p) :
    normalizeDescription (unlines (ls.map (shift p))) = unlines ls :=
  (normalizeDescription_shift h.trimmed hline hp hpline).trans (h.normalize hline)

end Gherkin.Text
