import Mathlib.Data.List.DropRight
import Gherkin.Proofs.Text.Description

/-! The normal form of any text. Its lines are those of the text, less blanks at either end, and it
is its own normal form. A text whose lines are all indented by the same blanks has the normal form
that it has without them. -/

namespace Gherkin.Text

variable {p t : Text} {ls : List Text} {n : ℕ}

/-! ### Cutting blanks off the front -/

theorem trimEnd_drop (h : trimEnd t = t) (n : ℕ) : trimEnd (t.drop n) = t.drop n := by
  rw [trimEnd_eq_self_iff] at h ⊢
  intro c hc
  rw [List.getLast?_drop] at hc
  split at hc
  · cases hc
  · exact h c hc

theorem indent_lt_length (h : trimEnd t = t) (hne : t ≠ []) : indent t < t.length := by
  apply Nat.lt_of_le_of_ne (List.takeWhile_sublist _).length_le
  intro hlen
  -- a line that is all indentation would be trimmed away
  have hall : t.takeWhile isBlank = t := (List.takeWhile_sublist isBlank).eq_of_length hlen
  have hblank : ∀ c ∈ t, isBlank c := List.takeWhile_eq_self_iff.1 hall
  exact hne (h.symm.trans (trimEnd_eq_nil_iff.2 hblank))

theorem indent_drop (h : n ≤ indent t) : indent (t.drop n) = indent t - n := by
  induction n generalizing t with
  | zero => rfl
  | succ n ih =>
    cases t with
    | nil => simp [indent]
    | cons c t =>
      by_cases hc : isBlank c
      · have hcons : indent (c :: t) = indent t + 1 := by simp [indent, hc]
        rw [hcons] at h ⊢
        rw [List.drop_succ_cons, ih (by omega)]
        omega
      · simp [indent, hc] at h

theorem trimStart_drop (h : n ≤ indent t) : trimStart (t.drop n) = trimStart t := by
  rw [trimStart_eq_drop, trimStart_eq_drop, indent_drop h, List.drop_drop]
  congr 1
  omega

/-! ### The lines of a normal form -/

theorem dropEmptyEnds_ends (ls : List Text) :
    (∀ l ∈ (dropEmptyEnds ls).head?, l ≠ []) ∧ ∀ l ∈ (dropEmptyEnds ls).getLast?, l ≠ [] := by
  rw [← dropEmptyEnds_eq_self_iff]
  -- what is left of the lines begins where the lines began, with one that is not empty
  have hstart : ((dropEmptyEnds ls).dropWhile List.isEmpty) = dropEmptyEnds ls := by
    rw [dropWhile_eq_self_iff]
    intro l hl
    have hprefix : dropEmptyEnds ls <+: ls.dropWhile List.isEmpty := by
      rw [← List.reverse_suffix, dropEmptyEnds, List.reverse_reverse]
      exact List.dropWhile_suffix _
    obtain ⟨rest, hrest⟩ := hprefix
    have hhead : l ∈ (ls.dropWhile List.isEmpty).head? := by
      rw [← hrest, List.head?_append, Option.mem_def.1 hl]
      rfl
    have hnot := List.head?_dropWhile_not List.isEmpty ls
    rw [Option.mem_def.1 hhead] at hnot
    exact hnot
  have hend : (dropEmptyEnds ls).reverse.dropWhile List.isEmpty = (dropEmptyEnds ls).reverse := by
    rw [dropEmptyEnds, List.reverse_reverse, List.dropWhile_idempotent]
  rw [dropEmptyEnds, hstart, hend, List.reverse_reverse]

/-- Each line of a normal form is a line of the text, less blanks at either end. -/
theorem exists_of_mem_descriptionLines {l : Text} (h : l ∈ descriptionLines t) :
    ∃ m ∈ t.lines, ∃ n ≤ indent (trimEnd m), l = (trimEnd m).drop n := by
  obtain ⟨k, hk, rfl⟩ := List.mem_map.1 h
  obtain ⟨m, hm, rfl⟩ := List.mem_map.1 ((dropEmptyEnds_sublist _).subset hk)
  by_cases hne : trimEnd m = []
  · exact ⟨m, hm, 0, Nat.zero_le _, by simp [hne]⟩
  · exact ⟨m, hm, _, sharedIndent_le hk hne, rfl⟩

theorem isDescription_descriptionLines (t : Text) (h : descriptionLines t ≠ []) :
    IsDescription (descriptionLines t) := by
  obtain ⟨hhead, hlast⟩ := dropEmptyEnds_ends (t.lines.map trimEnd)
  unfold descriptionLines at h ⊢
  generalize hkept : dropEmptyEnds (t.lines.map trimEnd) = kept at h hhead hlast ⊢
  have hkeep : kept ≠ [] := fun e => h (by simp [e])
  have htrim : ∀ l ∈ kept, trimEnd l = l := by
    intro l hl
    rw [← hkept] at hl
    obtain ⟨m, -, rfl⟩ := List.mem_map.1 ((dropEmptyEnds_sublist _).subset hl)
    exact trimEnd_trimEnd m
  -- no line loses all of its characters, since the indentation ends before the line does
  have hcut : ∀ l ∈ kept, l ≠ [] → l.drop (sharedIndent kept) ≠ [] := by
    intro l hl hne
    rw [ne_eq, List.drop_eq_nil_iff, not_le]
    exact (sharedIndent_le hl hne).trans_lt (indent_lt_length (htrim l hl) hne)
  constructor
  · exact h
  · intro l hl
    obtain ⟨m, hm, rfl⟩ := List.mem_map.1 hl
    exact trimEnd_drop (htrim m hm) _
  · intro l hl
    rw [List.head?_map] at hl
    obtain ⟨m, hm, rfl⟩ := Option.map_eq_some_iff.1 hl
    exact hcut m (List.mem_of_head? hm) (hhead m hm)
  · intro l hl
    rw [List.getLast?_map] at hl
    obtain ⟨m, hm, rfl⟩ := Option.map_eq_some_iff.1 hl
    exact hcut m (List.mem_of_getLast? hm) (hlast m hm)
  · obtain ⟨k, ks, rfl⟩ := List.exists_cons_of_ne_nil hkeep
    obtain ⟨l, hl, hne, hindent⟩ := exists_indent_eq ⟨k, List.mem_cons_self, hhead k rfl⟩
    refine ⟨_, List.mem_map_of_mem hl, hcut l hl hne, ?_⟩
    rw [indent_drop hindent.ge, hindent, Nat.sub_self]

theorem lines_normalizeDescription (h : descriptionLines t ≠ []) :
    (normalizeDescription t).lines = descriptionLines t := by
  obtain ⟨l, ls, hcons⟩ := List.exists_cons_of_ne_nil h
  rw [normalizeDescription, hcons]
  exact lines_unlines l ls fun m hm => not_mem_descriptionLines (hcons ▸ hm)

/-- A normal form is its own normal form. -/
theorem normalizeDescription_normalizeDescription (t : Text) :
    normalizeDescription (normalizeDescription t) = normalizeDescription t := by
  by_cases h : descriptionLines t = []
  · rw [normalizeDescription.eq_1 t, h]
    rfl
  · exact (isDescription_descriptionLines t h).normalize fun l hl => not_mem_descriptionLines hl

/-- What a line of a normal form can be: an empty one, or a line of the text less some blanks. -/
theorem exists_of_mem_lines_normalize {l : Text} (h : l ∈ (normalizeDescription t).lines) :
    l = [] ∨ ∃ m ∈ t.lines, ∃ n ≤ indent (trimEnd m), l = (trimEnd m).drop n := by
  by_cases hnil : descriptionLines t = []
  · rw [normalizeDescription, hnil] at h
    exact .inl (List.mem_singleton.1 h)
  · rw [lines_normalizeDescription hnil] at h
    exact .inr (exists_of_mem_descriptionLines h)

end Gherkin.Text
