import Mathlib.Data.List.TakeWhile
import Gherkin.Text.Lines

/-! Laws of trimming. A text is trimmed when it neither starts nor ends with a blank; blanks put
before or after a text do not change what trimming leaves of it. -/

namespace Gherkin.Text

theorem dropWhile_eq_self_iff {α : Type} {p : α → Bool} {xs : List α} :
    xs.dropWhile p = xs ↔ ∀ x ∈ xs.head?, p x = false := by
  rw [List.dropWhile_eq_self_iff]
  cases xs <;> simp

variable {s t : Text}

theorem trimEnd_eq_nil_iff : trimEnd t = [] ↔ ∀ c ∈ t, isBlank c := by
  simp [trimEnd, List.dropWhile_eq_nil_iff]

theorem trimStart_cons_of_not {c : Char} (h : isBlank c = false) (t : Text) :
    trimStart (c :: t) = c :: t := by
  simp [trimStart, h]

theorem trimStart_append_of_blank (h : ∀ c ∈ s, isBlank c) (t : Text) :
    trimStart (s ++ t) = trimStart t :=
  List.dropWhile_append_of_pos h

theorem trimEnd_append_of_blank (h : ∀ c ∈ s, isBlank c) (t : Text) :
    trimEnd (t ++ s) = trimEnd t := by
  have hs : ∀ c ∈ s.reverse, isBlank c := fun c hc => h c (List.mem_reverse.1 hc)
  rw [trimEnd, trimEnd, List.reverse_append, List.dropWhile_append_of_pos hs]

theorem trim_append_of_blank (h : ∀ c ∈ s, isBlank c) (t : Text) : trim (s ++ t) = trim t := by
  rw [trim, trim, trimStart_append_of_blank h]

theorem trim_append_right_of_blank (h : ∀ c ∈ s, isBlank c) (t : Text) :
    trim (t ++ s) = trim t := by
  rw [trim, trim, trimStart, List.dropWhile_append]
  split_ifs with hempty
  · rw [List.dropWhile_eq_nil_iff.2 h, trimStart, List.isEmpty_iff.1 hempty]
  · exact trimEnd_append_of_blank h _

theorem trim_eq_nil_iff : trim t = [] ↔ ∀ c ∈ t, isBlank c := by
  rw [trim, trimEnd_eq_nil_iff]
  constructor
  · intro h c hc
    rw [← takeWhile_append_trimStart t] at hc
    rcases List.mem_append.1 hc with hc | hc
    · exact List.mem_takeWhile_imp hc
    · exact h c hc
  · intro h c hc
    exact h c ((List.dropWhile_sublist _).subset hc)

/-- A text that ends in a character that is not blank loses nothing at its end. -/
theorem trimEnd_concat_of_not {c : Char} (h : isBlank c = false) (t : Text) :
    trimEnd (t ++ [c]) = t ++ [c] := by
  simp [trimEnd, h]

theorem trimEnd_sublist (t : Text) : (trimEnd t).Sublist t := by
  have h := (List.dropWhile_sublist (l := t.reverse) isBlank).reverse
  rwa [List.reverse_reverse] at h

theorem trimEnd_prefix (t : Text) : trimEnd t <+: t := by
  have h := List.dropWhile_suffix (l := t.reverse) isBlank
  rwa [← List.reverse_prefix, List.reverse_reverse] at h

theorem trimStart_eq_self_iff : trimStart t = t ↔ ∀ c ∈ t.head?, isBlank c = false :=
  dropWhile_eq_self_iff

theorem trimEnd_eq_self_iff : trimEnd t = t ↔ ∀ c ∈ t.getLast?, isBlank c = false := by
  rw [← List.head?_reverse, ← trimStart_eq_self_iff, trimEnd, trimStart]
  exact List.reverse_eq_iff

/-- A text is trimmed when there is nothing to trim at either end. -/
theorem trim_eq_self_iff : trim t = t ↔ trimStart t = t ∧ trimEnd t = t := by
  constructor
  · intro h
    have hlen : t.length ≤ (trimStart t).length := by
      calc t.length = (trim t).length := by rw [h]
        _ ≤ (trimStart t).length := (trimEnd_sublist _).length_le
    have hstart : trimStart t = t := (List.dropWhile_sublist isBlank).eq_of_length_le hlen
    exact ⟨hstart, by rwa [trim, hstart] at h⟩
  · rintro ⟨hs, he⟩
    rw [trim, hs, he]

theorem isBlank_head?_trimStart (t : Text) : ∀ c ∈ (trimStart t).head?, isBlank c = false := by
  intro c hc
  have h := List.head?_dropWhile_not isBlank t
  rw [← trimStart, Option.mem_def.1 hc] at h
  exact h

theorem trimEnd_trimEnd (t : Text) : trimEnd (trimEnd t) = trimEnd t := by
  rw [trimEnd_eq_self_iff]
  intro c hc
  rw [trimEnd, List.getLast?_reverse] at hc
  exact isBlank_head?_trimStart t.reverse c hc

theorem trim_trim (t : Text) : trim (trim t) = trim t := by
  refine trim_eq_self_iff.2 ⟨?_, trimEnd_trimEnd _⟩
  rw [trimStart_eq_self_iff]
  intro c hc
  obtain ⟨rest, hrest⟩ := trimEnd_prefix (trimStart t)
  refine isBlank_head?_trimStart t c ?_
  rw [← hrest, List.head?_append]
  rw [trim] at hc
  simp [Option.mem_def.1 hc]

theorem exists_append_trimEnd (t : Text) :
    ∃ s, (∀ c ∈ s, isBlank c) ∧ t = trimEnd t ++ s := by
  refine ⟨(t.reverse.takeWhile isBlank).reverse, fun c hc => ?_, ?_⟩
  · exact List.mem_takeWhile_imp (List.mem_reverse.1 hc)
  · rw [trimEnd, ← List.reverse_append, List.takeWhile_append_dropWhile, List.reverse_reverse]

theorem trim_sublist (t : Text) : (trim t).Sublist t :=
  (trimEnd_sublist _).trans (List.dropWhile_sublist _)

/-- What trimming the end of a line leaves of it starts as the line does, indentation aside. -/
theorem trimStart_trimEnd_prefix (t : Text) : trimStart (trimEnd t) <+: trimStart t := by
  obtain ⟨s, -, hs⟩ := exists_append_trimEnd t
  rw [trimStart, trimStart, congrArg (List.dropWhile isBlank) hs, List.dropWhile_append]
  split_ifs with hnil
  · rw [List.isEmpty_iff.1 hnil]
    exact List.nil_prefix
  · exact List.prefix_append _ _

theorem trim_trimEnd (t : Text) : trim (trimEnd t) = trim t := by
  obtain ⟨s, hblank, hs⟩ := exists_append_trimEnd t
  rw [congrArg trim hs, trim_append_right_of_blank hblank]

theorem dropReturn_prefix (t : Text) : dropReturn t <+: t := by
  unfold dropReturn
  split
  · exact List.dropLast_prefix t
  · exact List.prefix_refl t

/-- A carriage return at the end of a line is trimmed away with other blanks. -/
theorem trim_dropReturn (t : Text) : trim (dropReturn t) = trim t := by
  unfold dropReturn
  split
  · next hlast =>
    obtain ⟨s, rfl⟩ := List.getLast?_eq_some_iff.1 hlast
    have hblank : ∀ c ∈ ['\r'], isBlank c := List.forall_mem_singleton.2 rfl
    rw [List.dropLast_concat, trim_append_right_of_blank hblank]
  · rfl

/-- Blanks in front of a line are removed with its indentation. -/
theorem dropIndent_add (h : ∀ c ∈ s, isBlank c) (n : ℕ) (t : Text) :
    dropIndent (s.length + n) (s ++ t) = dropIndent n t := by
  induction s with
  | nil => rw [List.length_nil, Nat.zero_add, List.nil_append]
  | cons c s ih =>
    obtain ⟨hc, hs⟩ := List.forall_mem_cons.1 h
    rw [List.length_cons, Nat.succ_add, List.cons_append, dropIndent, if_pos hc, ih hs]

end Gherkin.Text
