import Gherkin.Proofs.Text.Indent
import Gherkin.Proofs.Text.Normal

/-! What does not count in a description: blank lines before and after it, blanks at the ends of its
lines, and the indentation that its lines share, whatever blanks it is made of. All else is kept:
the lines of the normal form are those from the first to the last that is not blank, less blanks at
their ends and the least indentation. -/

namespace Gherkin.Text

variable {s t p l l' : Text} {ls ls' kept : List Text} {k m : ℕ}

/-- The second line is the first with `k` blanks in front. -/
def Indents (k : ℕ) (l l' : Text) : Prop := ∃ p, IsIndent p ∧ p.length = k ∧ l' = p ++ l

/-- The second line is the first with more blanks among those at its end. -/
def Pads (l l' : Text) : Prop :=
  ∃ start s finish, IsIndent s ∧ IsIndent finish ∧ l = start ++ finish ∧ l' = start ++ s ++ finish

/-! ### Pairs of lines -/

section Pairs

variable {α β : Type} {R : α → β → Prop} {as : List α} {bs : List β}

theorem exists_of_mem_forall₂ (h : List.Forall₂ R as bs) {a : α} (ha : a ∈ as) :
    ∃ b ∈ bs, R a b := by
  induction h with
  | nil => cases ha
  | @cons a' b as bs hab hrest ih =>
    rcases List.mem_cons.1 ha with rfl | ha
    · exact ⟨b, List.mem_cons_self, hab⟩
    · obtain ⟨b', hb', hR⟩ := ih ha
      exact ⟨b', List.mem_cons_of_mem _ hb', hR⟩

theorem forall₂_dropWhile {f : α → Bool} {g : β → Bool} (hR : ∀ a b, R a b → g b = f a)
    (h : List.Forall₂ R as bs) : List.Forall₂ R (as.dropWhile f) (bs.dropWhile g) := by
  induction h with
  | nil => exact .nil
  | cons hab hrest ih =>
    rw [List.dropWhile_cons, List.dropWhile_cons, hR _ _ hab]
    split
    · exact ih
    · exact .cons hab hrest

end Pairs

theorem map_eq_of_forall₂ {R : Text → Text → Prop} {f g : Text → Text}
    (hR : ∀ l l', R l l' → f l' = g l) (h : List.Forall₂ R ls ls') : ls'.map f = ls.map g := by
  induction h with
  | nil => rfl
  | cons hl _ ih => rw [List.map_cons, List.map_cons, hR _ _ hl, ih]

/-- The normal form of a text that is given by lines that go with those of another text. -/
theorem normalizeDescription_of_forall₂ {R : Text → Text → Prop}
    (hR : ∀ l l', R l l' → '\n' ∉ l → '\n' ∉ l') (h : List.Forall₂ R t.lines ls') :
    normalizeDescription (unlines ls') = unlines
      ((dropEmptyEnds (ls'.map trimEnd)).map
        (List.drop (sharedIndent (dropEmptyEnds (ls'.map trimEnd))))) := by
  have hline : ∀ l' ∈ ls', '\n' ∉ l' := by
    intro l' hl'
    obtain ⟨l, hl, hll'⟩ := exists_of_mem_forall₂ h.flip hl'
    exact hR l l' hll' (not_mem_lines hl)
  cases ls' with
  | nil => exact absurd (List.forall₂_nil_right_iff.1 h) (lines_ne_nil t)
  | cons l ls => rw [normalizeDescription, descriptionLines, lines_unlines l ls hline]

/-! ### Blanks at the ends of lines -/

theorem Pads.not_mem (h : Pads l l') (hl : '\n' ∉ l) : '\n' ∉ l' := by
  obtain ⟨start, s, finish, hs, hfinish, rfl, rfl⟩ := h
  rw [List.mem_append, not_or] at hl
  simp [hl.1, hs.line, hfinish.line]

theorem Pads.trimEnd_eq (h : Pads l l') : trimEnd l' = trimEnd l := by
  obtain ⟨start, s, finish, hs, hfinish, rfl, rfl⟩ := h
  rw [trimEnd_append_of_blank hfinish.blank, trimEnd_append_of_blank hfinish.blank,
    trimEnd_append_of_blank hs.blank]

/-- Blanks at the ends of lines do not count. -/
theorem normalizeDescription_pads (h : List.Forall₂ Pads t.lines ls') :
    normalizeDescription (unlines ls') = normalizeDescription t := by
  have htrim : ls'.map trimEnd = t.lines.map trimEnd :=
    map_eq_of_forall₂ (fun _ _ hl => hl.trimEnd_eq) h
  rw [normalizeDescription_of_forall₂ (fun _ _ => Pads.not_mem) h, htrim]
  rfl

/-! ### Blank lines -/

/-- Empty lines at either end are dropped with others. -/
theorem dropEmptyEnds_append {before after : List Text} (hbefore : ∀ l ∈ before, l = [])
    (hafter : ∀ l ∈ after, l = []) : dropEmptyEnds (before ++ ls ++ after) = dropEmptyEnds ls := by
  have hempty {ms : List Text} (h : ∀ l ∈ ms, l = []) : ∀ l ∈ ms, l.isEmpty :=
    fun l hl => List.isEmpty_iff.2 (h l hl)
  rw [dropEmptyEnds, dropEmptyEnds, List.append_assoc,
    List.dropWhile_append_of_pos (hempty hbefore), List.dropWhile_append]
  split_ifs with hnil
  · rw [List.isEmpty_iff.1 hnil, List.dropWhile_eq_nil_iff.2 (hempty hafter)]
  · rw [List.reverse_append, List.dropWhile_append_of_pos fun l hl =>
      hempty hafter l (List.mem_reverse.1 hl)]

/-- Blank lines before and after a text do not count. -/
theorem normalizeDescription_blank_lines (t : Text) {before after : List Text}
    (hbefore : ∀ l ∈ before, IsIndent l) (hafter : ∀ l ∈ after, IsIndent l) :
    normalizeDescription (unlines (before ++ t.lines ++ after)) = normalizeDescription t := by
  have hempty {ms : List Text} (h : ∀ l ∈ ms, IsIndent l) : ∀ l ∈ ms.map trimEnd, l = [] :=
    List.forall_mem_map.2 fun l hl => trimEnd_eq_nil_iff.2 (h l hl).blank
  have hline : ∀ l ∈ before ++ t.lines ++ after, '\n' ∉ l :=
    List.forall_mem_append.2 ⟨List.forall_mem_append.2
      ⟨fun l hl => (hbefore l hl).line, fun _ => not_mem_lines⟩, fun l hl => (hafter l hl).line⟩
  have hlines : (unlines (before ++ t.lines ++ after)).lines = before ++ t.lines ++ after := by
    rw [lines_unlines_eq_flatMap (by simp [lines_ne_nil]), flatMap_lines_eq_self hline]
  rw [normalizeDescription, descriptionLines, hlines, List.map_append, List.map_append,
    dropEmptyEnds_append (hempty hbefore) (hempty hafter)]
  rfl

/-! ### Indentation -/

/-- The second line is the first with `k` blanks in front, unless it is empty. -/
def Deeper (k : ℕ) (l l' : Text) : Prop :=
  ∃ p, p.length = k ∧ (∀ c ∈ p, isBlank c) ∧ l' = shift p l

namespace Deeper

theorem eq_nil_iff (h : Deeper k l l') : l' = [] ↔ l = [] := by
  obtain ⟨p, -, -, rfl⟩ := h
  exact shift_eq_nil_iff

theorem isEmpty (h : Deeper k l l') : l'.isEmpty = l.isEmpty := by
  rw [Bool.eq_iff_iff, List.isEmpty_iff, List.isEmpty_iff, h.eq_nil_iff]

theorem indent (h : Deeper k l l') (hne : l ≠ []) : Text.indent l' = k + Text.indent l := by
  obtain ⟨p, rfl, hp, rfl⟩ := h
  rw [shift_of_ne hne, indent_append_of_blank hp]

theorem drop (h : Deeper k l l') (n : ℕ) : l'.drop (k + n) = l.drop n := by
  obtain ⟨p, rfl, -, rfl⟩ := h
  exact drop_shift p l n

end Deeper

theorem Indents.not_mem (h : Indents k l l') (hl : '\n' ∉ l) : '\n' ∉ l' := by
  obtain ⟨p, hp, -, rfl⟩ := h
  simp [hl, hp.line]

theorem Indents.deeper (h : Indents k l l') : Deeper k (trimEnd l) (trimEnd l') := by
  obtain ⟨p, hp, hk, rfl⟩ := h
  exact ⟨p, hk, hp.blank, (IndentedLine.front l).trimEnd hp⟩

theorem forall₂_dropEmptyEnds (h : List.Forall₂ (Deeper k) ls ls') :
    List.Forall₂ (Deeper k) (dropEmptyEnds ls) (dropEmptyEnds ls') := by
  have hempty : ∀ l l', Deeper k l l' → l'.isEmpty = l.isEmpty := fun _ _ h => h.isEmpty
  exact List.rel_reverse (forall₂_dropWhile hempty
    (List.rel_reverse (forall₂_dropWhile hempty h)))

/-- Lines that are `k` blanks deeper share `k` blanks more. -/
theorem sharedIndent_deeper (h : List.Forall₂ (Deeper k) ls ls') (hne : ∃ l ∈ ls, l ≠ []) :
    sharedIndent ls' = k + sharedIndent ls := by
  refine sharedIndent_eq_of_least ?_ fun l' hl' hne' => ?_
  · obtain ⟨l, hl, hl0, hleast⟩ := exists_indent_eq hne
    obtain ⟨l', hl', hdeep⟩ := exists_of_mem_forall₂ h hl
    exact ⟨l', hl', fun e => hl0 (hdeep.eq_nil_iff.1 e), by rw [hdeep.indent hl0, hleast]⟩
  · obtain ⟨l, hl, hdeep⟩ := exists_of_mem_forall₂ h.flip hl'
    have hdeep : Deeper k l l' := hdeep
    have hl0 : l ≠ [] := fun e => hne' (hdeep.eq_nil_iff.2 e)
    rw [hdeep.indent hl0]
    exact Nat.add_le_add_left (sharedIndent_le hl hl0) k

/-- Blanks in front of the lines do not count, if there are as many of them on every line. -/
theorem normalizeDescription_indents (h : List.Forall₂ (Indents k) t.lines ls') :
    normalizeDescription (unlines ls') = normalizeDescription t := by
  have htrimmed : List.Forall₂ (Deeper k) (t.lines.map trimEnd) (ls'.map trimEnd) := by
    rw [List.forall₂_map_left_iff, List.forall₂_map_right_iff]
    exact h.imp fun _ _ => Indents.deeper
  have hdeep := forall₂_dropEmptyEnds htrimmed
  have hhead := (dropEmptyEnds_ends (t.lines.map trimEnd)).1
  rw [normalizeDescription_of_forall₂ (fun _ _ => Indents.not_mem) h, normalizeDescription,
    descriptionLines]
  generalize dropEmptyEnds (t.lines.map trimEnd) = kept at hdeep hhead ⊢
  generalize dropEmptyEnds (ls'.map trimEnd) = kept' at hdeep ⊢
  cases hdeep with
  | nil => rfl
  | @cons l l' kept kept' hl hrest =>
    have hdeep : List.Forall₂ (Deeper k) (l :: kept) (l' :: kept') := .cons hl hrest
    rw [sharedIndent_deeper hdeep ⟨l, List.mem_cons_self, hhead l rfl⟩,
      map_eq_of_forall₂ (fun _ _ h => h.drop _) hdeep]

/-! ### What is kept -/

theorem trim_eq_nil_iff_trimEnd : trim t = [] ↔ trimEnd t = [] :=
  trim_eq_nil_iff.trans trimEnd_eq_nil_iff.symm

theorem indent_trimEnd (h : trimEnd t ≠ []) : indent (trimEnd t) = indent t := by
  obtain ⟨s, -, hs⟩ := exists_append_trimEnd t
  have hlt : (List.takeWhile isBlank (trimEnd t)).length < (trimEnd t).length :=
    indent_lt_length (trimEnd_trimEnd t) h
  rw [indent.eq_1 t, congrArg (List.takeWhile isBlank) hs, List.takeWhile_append,
    if_neg (Nat.ne_of_lt hlt), indent]

/-- The lines of a text from the first to the last that is not blank, and the least indentation of a
line that is not blank. -/
structure Body (t : Text) (kept : List Text) (m : ℕ) : Prop where
  around : ∃ before after, t.lines = before ++ kept ++ after ∧ ∀ l ∈ before ++ after, trim l = []
  head : ∀ l ∈ kept.head?, trim l ≠ []
  last : ∀ l ∈ kept.getLast?, trim l ≠ []
  attained : ∃ l ∈ t.lines, trim l ≠ [] ∧ indent l = m
  least : ∀ l ∈ t.lines, trim l ≠ [] → m ≤ indent l

/-- Items that fulfil `p` can be taken off both ends of a list, as long as there are any. -/
theorem exists_stripped {α : Type} (p : α → Prop) (xs : List α) : ∃ before kept after,
    xs = before ++ kept ++ after ∧ (∀ x ∈ before ++ after, p x) ∧
      (∀ x ∈ kept.head?, ¬p x) ∧ ∀ x ∈ kept.getLast?, ¬p x := by
  induction xs with
  | nil => exact ⟨[], [], [], rfl, by simp⟩
  | cons x xs ih =>
    obtain ⟨before, kept, after, rfl, hp, hhead, hlast⟩ := ih
    by_cases hx : p x
    · exact ⟨x :: before, kept, after, rfl, List.forall_mem_cons.2 ⟨hx, hp⟩, hhead, hlast⟩
    by_cases hkept : kept = []
    · exact ⟨[], [x], before ++ after, by simp [hkept], hp, by simpa using hx, by simpa using hx⟩
    · refine ⟨[], x :: (before ++ kept), after, by simp, fun y hy => hp y ?_, by simpa using hx, ?_⟩
      · exact List.mem_append_right _ hy
      · rwa [← List.cons_append, List.getLast?_append_of_ne_nil _ hkept]

/-- Every text that is not blank has a body. -/
theorem exists_body (h : ∃ l ∈ t.lines, trim l ≠ []) : ∃ kept m, Body t kept m := by
  obtain ⟨before, kept, after, hlines, hblank, hhead, hlast⟩ :=
    exists_stripped (fun l => trim l = []) t.lines
  have htrim : ∃ l ∈ t.lines.map trimEnd, l ≠ [] := by
    obtain ⟨l, hl, hne⟩ := h
    exact ⟨_, List.mem_map_of_mem hl, fun e => hne (trim_eq_nil_iff_trimEnd.2 e)⟩
  refine ⟨kept, sharedIndent (t.lines.map trimEnd), ⟨before, after, hlines, hblank⟩, hhead, hlast,
    ?_, fun l hl hne => ?_⟩
  · obtain ⟨m, hm, hne, hindent⟩ := exists_indent_eq htrim
    obtain ⟨l, hl, rfl⟩ := List.mem_map.1 hm
    exact ⟨l, hl, fun e => hne (trim_eq_nil_iff_trimEnd.1 e),
      (indent_trimEnd hne).symm.trans hindent⟩
  · have hne' : trimEnd l ≠ [] := fun e => hne (trim_eq_nil_iff_trimEnd.2 e)
    rw [← indent_trimEnd hne']
    exact sharedIndent_le (List.mem_map_of_mem hl) hne'

namespace Body

theorem dropEmptyEnds_eq (h : Body t kept m) :
    dropEmptyEnds (t.lines.map trimEnd) = kept.map trimEnd := by
  obtain ⟨before, after, hlines, hblank⟩ := h.around
  obtain ⟨hbefore, hafter⟩ := List.forall_mem_append.1 hblank
  have hempty {ms : List Text} (h : ∀ l ∈ ms, trim l = []) : ∀ l ∈ ms.map trimEnd, l = [] :=
    List.forall_mem_map.2 fun l hl => trim_eq_nil_iff_trimEnd.1 (h l hl)
  rw [hlines, List.map_append, List.map_append, dropEmptyEnds_append (hempty hbefore)
    (hempty hafter), dropEmptyEnds_eq_self_iff, List.head?_map, List.getLast?_map]
  refine ⟨fun l hl => ?_, fun l hl => ?_⟩
  · obtain ⟨m, hm, rfl⟩ := Option.map_eq_some_iff.1 hl
    exact fun e => h.head m hm (trim_eq_nil_iff_trimEnd.2 e)
  · obtain ⟨m, hm, rfl⟩ := Option.map_eq_some_iff.1 hl
    exact fun e => h.last m hm (trim_eq_nil_iff_trimEnd.2 e)

theorem mem_iff (h : Body t kept m) (hne : trim l ≠ []) : l ∈ t.lines ↔ l ∈ kept := by
  obtain ⟨before, after, hlines, hblank⟩ := h.around
  obtain ⟨hbefore, hafter⟩ := List.forall_mem_append.1 hblank
  rw [hlines, List.append_assoc, List.mem_append, List.mem_append]
  constructor
  · intro hl
    exact (hl.resolve_left fun hl => hne (hbefore l hl)).resolve_right fun hl => hne (hafter l hl)
  · exact fun hl => .inr (.inl hl)

theorem sharedIndent_eq (h : Body t kept m) : sharedIndent (kept.map trimEnd) = m := by
  refine sharedIndent_eq_of_least ?_ (List.forall_mem_map.2 fun l hl htrim => ?_)
  · obtain ⟨l, hl, hne, rfl⟩ := h.attained
    have htrim : trimEnd l ≠ [] := fun e => hne (trim_eq_nil_iff_trimEnd.2 e)
    exact ⟨_, List.mem_map_of_mem ((h.mem_iff hne).1 hl), htrim, indent_trimEnd htrim⟩
  · have hne : trim l ≠ [] := fun e => htrim (trim_eq_nil_iff_trimEnd.1 e)
    rw [indent_trimEnd htrim]
    exact h.least l ((h.mem_iff hne).2 hl) hne

/-- The lines of the normal form are those of the body, one by one. -/
theorem lines_eq (h : Body t kept m) :
    (normalizeDescription t).lines = kept.map fun l => (trimEnd l).drop m := by
  have hlines : descriptionLines t = kept.map fun l => (trimEnd l).drop m := by
    rw [descriptionLines, h.dropEmptyEnds_eq, h.sharedIndent_eq, List.map_map]
    rfl
  have hkept : kept ≠ [] := by
    obtain ⟨l, hl, hne, -⟩ := h.attained
    exact List.ne_nil_of_mem ((h.mem_iff hne).1 hl)
  rw [lines_normalizeDescription (by simpa [hlines] using hkept), hlines]

end Body

theorem normalizeDescription_eq_nil_or (t : Text) :
    normalizeDescription t = [] ∨ IsDescription (normalizeDescription t).lines := by
  by_cases h : descriptionLines t = []
  · exact .inl (by rw [normalizeDescription, h]; rfl)
  · rw [lines_normalizeDescription h]
    exact .inr (isDescription_descriptionLines t h)

/-- A normal form is its own normal form. It is empty, or its lines are free of what does not count.
Blanks put in front of all lines, as many on each, blanks at the ends of lines and blank lines
around the text do not change it. From the first to the last line that is not blank it has the lines
of the text, at the same depths against one another. -/
theorem normalizeDescription_canonical (t : Text) :
    normalizeDescription (normalizeDescription t) = normalizeDescription t ∧
    (normalizeDescription t = [] ∨ IsDescription (normalizeDescription t).lines) ∧
    (∀ k ls, List.Forall₂ (Indents k) t.lines ls →
      normalizeDescription (unlines ls) = normalizeDescription t) ∧
    (∀ ls, List.Forall₂ Pads t.lines ls →
      normalizeDescription (unlines ls) = normalizeDescription t) ∧
    (∀ before after, (∀ l ∈ before, IsIndent l) → (∀ l ∈ after, IsIndent l) →
      normalizeDescription (unlines (before ++ t.lines ++ after)) = normalizeDescription t) ∧
    ((∃ l ∈ t.lines, trim l ≠ []) → ∃ kept m, Body t kept m) ∧
    ∀ kept m, Body t kept m →
      (normalizeDescription t).lines = kept.map fun l => (trimEnd l).drop m :=
  ⟨normalizeDescription_normalizeDescription t, normalizeDescription_eq_nil_or t,
    fun _ _ h => normalizeDescription_indents h, fun _ h => normalizeDescription_pads h,
    fun _ _ hbefore hafter => normalizeDescription_blank_lines t hbefore hafter,
    exists_body, fun _ _ h => h.lines_eq⟩

/-- Lines that are indented by other blanks, with a line feed before them. -/
theorem normalizeDescription_canonical_ragged :
    let t : Text := "\n    a \n\n\t\tb".toList
    let kept : List Text := ["    a ".toList, [], "\t\tb".toList]
    let deeper := t.lines.map ('\t' :: ·)
    let longer := t.lines.map (· ++ ['\r'])
    (Body t kept 2 ∧ (normalizeDescription t).lines = kept.map fun l => (trimEnd l).drop 2) ∧
    (List.Forall₂ (Indents 1) t.lines deeper ∧
      normalizeDescription (unlines deeper) = normalizeDescription t) ∧
    (List.Forall₂ Pads t.lines longer ∧
      normalizeDescription (unlines longer) = normalizeDescription t) ∧
    (∀ l ∈ [[' ']], IsIndent l) ∧
      normalizeDescription (unlines ([[' ']] ++ t.lines ++ [[' ']])) = normalizeDescription t := by
  intro t kept deeper longer
  obtain ⟨-, -, hindents, hpads, hblank, -, hlines⟩ := normalizeDescription_canonical t
  have hbody : Body t kept 2 := by
    refine ⟨⟨[[]], [], by decide, by decide⟩, by decide, by decide, by decide, by decide⟩
  have hindent {c : Char} (hc : isBlank c) (hne : '\n' ≠ c) : IsIndent [c] :=
    ⟨List.forall_mem_singleton.2 hc, by simpa using hne⟩
  have htab : IsIndent ['\t'] := hindent rfl (by decide)
  have hreturn : IsIndent ['\r'] := hindent rfl (by decide)
  have hspace : ∀ l ∈ [[' ']], IsIndent l :=
    List.forall_mem_singleton.2 (hindent rfl (by decide))
  have hdeeper : List.Forall₂ (Indents 1) t.lines deeper := by
    rw [List.forall₂_map_right_iff, List.forall₂_same]
    exact fun l _ => ⟨['\t'], htab, rfl, rfl⟩
  have hlonger : List.Forall₂ Pads t.lines longer := by
    rw [List.forall₂_map_right_iff, List.forall₂_same]
    exact fun l _ => ⟨l, ['\r'], [], hreturn, .nil, by simp, by simp⟩
  exact ⟨⟨hbody, hlines kept 2 hbody⟩, ⟨hdeeper, hindents 1 deeper hdeeper⟩,
    ⟨hlonger, hpads longer hlonger⟩, hspace, hblank _ _ hspace hspace⟩

end Gherkin.Text
