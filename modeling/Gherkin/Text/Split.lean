import Gherkin.Text.Basic

/-! Cutting a text at a separating character. There is always at least one part, no part holds the
separator, and joining the parts with the separator gives the text back. -/

namespace Gherkin.Text

/-- The parts of a text between separators. -/
def splitOn (sep : Char) : Text → List Text
  | [] => [[]]
  | c :: cs => if c = sep then [] :: splitOn sep cs else (splitOn sep cs).modifyHead (c :: ·)

/-- Parts joined with a separator. -/
def joinWith (sep : Char) (parts : List Text) : Text := List.intercalate [sep] parts

variable {sep : Char}

theorem splitOn_ne_nil (t : Text) : splitOn sep t ≠ [] := by
  induction t with
  | nil => simp [splitOn]
  | cons c cs ih =>
    rw [splitOn]
    split
    · simp
    · cases h : splitOn sep cs with
      | nil => exact absurd h ih
      | cons => simp

@[simp] theorem joinWith_nil : joinWith sep [] = [] := rfl

@[simp] theorem joinWith_singleton (p : Text) : joinWith sep [p] = p := by
  simp [joinWith, List.intercalate, List.intersperse]

theorem joinWith_cons_cons (p q : Text) (parts : List Text) :
    joinWith sep (p :: q :: parts) = p ++ sep :: joinWith sep (q :: parts) := by
  simp [joinWith, List.intercalate, List.intersperse]

theorem joinWith_splitOn (t : Text) : joinWith sep (splitOn sep t) = t := by
  induction t with
  | nil => rfl
  | cons c cs ih =>
    cases h : splitOn sep cs with
    | nil => exact absurd h (splitOn_ne_nil cs)
    | cons p parts =>
      rw [h] at ih
      rw [splitOn, h]
      split
      · next hc => rw [joinWith_cons_cons, ih, hc]; rfl
      · cases parts with
        | nil => simpa using ih
        | cons q qs =>
          rw [joinWith_cons_cons] at ih
          simp [joinWith_cons_cons, ih]

theorem not_mem_of_mem_splitOn {t p : Text} (h : p ∈ splitOn sep t) : sep ∉ p := by
  induction t generalizing p with
  | nil => simp [splitOn] at h; simp [h]
  | cons c cs ih =>
    rw [splitOn] at h
    split at h
    · rcases List.mem_cons.1 h with rfl | h
      · simp
      · exact ih h
    · next hc =>
      cases hl : splitOn sep cs with
      | nil => exact absurd hl (splitOn_ne_nil cs)
      | cons q qs =>
        rw [hl] at h ih
        rcases List.mem_cons.1 h with rfl | h
        · simpa [Ne.symm hc] using ih List.mem_cons_self
        · exact ih (List.mem_cons_of_mem _ h)

theorem splitOn_append (p t : Text) (h : sep ∉ p) :
    splitOn sep (p ++ t) = (splitOn sep t).modifyHead (p ++ ·) := by
  induction p with
  | nil => cases h : splitOn sep t <;> simp [h]
  | cons c p ih =>
    have hc : c ≠ sep := fun e => h (by simp [e])
    rw [List.cons_append, splitOn, if_neg hc, ih fun m => h (List.mem_cons_of_mem _ m)]
    cases splitOn sep t <;> simp

theorem splitOn_append_cons (s t : Text) :
    splitOn sep (s ++ sep :: t) = splitOn sep s ++ splitOn sep t := by
  induction s with
  | nil => simp [splitOn]
  | cons c s ih =>
    cases hs : splitOn sep s with
    | nil => exact absurd hs (splitOn_ne_nil s)
    | cons p parts =>
      rw [List.cons_append, splitOn, splitOn, ih, hs]
      split <;> rfl

theorem splitOn_joinWith (p : Text) (parts : List Text) (h : ∀ q ∈ p :: parts, sep ∉ q) :
    splitOn sep (joinWith sep (p :: parts)) = p :: parts := by
  induction parts generalizing p with
  | nil =>
    have := splitOn_append p [] (h p (by simp))
    simpa [splitOn] using this
  | cons q qs ih =>
    rw [joinWith_cons_cons, splitOn_append _ _ (h p (by simp)), splitOn, if_pos rfl,
      ih q fun x hx => h x (List.mem_cons_of_mem _ hx)]
    simp

end Gherkin.Text
