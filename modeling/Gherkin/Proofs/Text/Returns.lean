import Gherkin.Proofs.Text.Trim

/-! Line ends with and without a carriage return. A text in which some line feeds get a carriage
return in front has the lines that it had, but for a carriage return at the ends of some. Deleting
the carriage returns gives the text back. It commutes with cutting a text into lines and with
joining them. A carriage return is a blank, so a trimmed line starts as before. -/

namespace Gherkin.Text

variable {t t' : Text}

/-- The second text is the first with a carriage return put before some of its line feeds. -/
inductive Returned : Text → Text → Prop
  | nil : Returned [] []
  | keep (c : Char) {t t' : Text} (rest : Returned t t') : Returned (c :: t) (c :: t')
  | feed {t t' : Text} (rest : Returned t t') : Returned ('\n' :: t) ('\r' :: '\n' :: t')

theorem Returned.refl (t : Text) : Returned t t := by
  induction t with
  | nil => exact .nil
  | cons c t ih => exact .keep c ih

theorem Returned.append {s s' : Text} (hs : Returned s s') (ht : Returned t t') :
    Returned (s ++ t) (s' ++ t') := by
  induction hs with
  | nil => exact ht
  | keep c _ ih => exact .keep c ih
  | feed _ ih => exact .feed ih

/-- The text without its carriage returns. -/
def withoutReturns (t : Text) : Text := t.filter (· ≠ '\r')

theorem Returned.withoutReturns_eq (h : Returned t t') (ht : '\r' ∉ t) : t'.withoutReturns = t := by
  induction h with
  | nil => rfl
  | keep c _ ih =>
    obtain ⟨hc, ht⟩ := not_or.1 (mt List.mem_cons.2 ht)
    rw [withoutReturns, List.filter_cons_of_pos (by simpa using Ne.symm hc)]
    exact congrArg (c :: ·) (ih ht)
  | feed _ ih =>
    obtain ⟨-, ht⟩ := not_or.1 (mt List.mem_cons.2 ht)
    exact congrArg ('\n' :: ·) (ih ht)

/-! ### Lines -/

theorem dropReturn_cons {c : Char} (hc : c ≠ '\r') (l : Text) :
    dropReturn (c :: l) = c :: dropReturn l := by
  cases l with
  | nil => simp [dropReturn, hc]
  | cons d l =>
    rw [dropReturn, dropReturn, List.getLast?_cons_cons, List.dropLast_cons_cons]
    split <;> rfl

/-- A carriage return shows in no line that it ends. -/
theorem Returned.map_dropReturn_lines (h : Returned t t') (ht : '\r' ∉ t) :
    t'.lines.map dropReturn = t.lines := by
  induction h with
  | nil => rfl
  | @keep c t t' _ ih =>
    obtain ⟨hc, ht⟩ := not_or.1 (mt List.mem_cons.2 ht)
    have hlines : t'.lines.map dropReturn = t.lines := ih ht
    rw [lines, lines, splitOn, splitOn]
    split
    · rw [List.map_cons, ← lines, hlines]
      rfl
    · rw [← lines, ← lines, ← hlines]
      cases t'.lines with
      | nil => rfl
      | cons l ls =>
        rw [List.modifyHead_cons, List.map_cons, dropReturn_cons (Ne.symm hc)]
        rfl
  | @feed t t' _ ih =>
    obtain ⟨-, ht⟩ := not_or.1 (mt List.mem_cons.2 ht)
    have hcut : lines ('\r' :: '\n' :: t') = ['\r'] :: lines t' := rfl
    rw [hcut, List.map_cons, ih ht]
    rfl

section Filter

variable {sep : Char} {p : Char → Bool}

/-- Characters are taken out of the parts as they are taken out of the text. -/
theorem splitOn_filter (hp : p sep) (t : Text) :
    splitOn sep (t.filter p) = (splitOn sep t).map (List.filter p) := by
  induction t with
  | nil => rfl
  | cons c t ih =>
    by_cases hc : c = sep
    · rw [hc, List.filter_cons_of_pos hp, splitOn, splitOn, if_pos rfl, if_pos rfl, ih]
      rfl
    · rw [splitOn, if_neg hc]
      obtain ⟨q, qs, hparts⟩ := List.exists_cons_of_ne_nil (@splitOn_ne_nil sep t)
      rw [hparts] at ih ⊢
      rw [List.filter_cons, List.modifyHead_cons, List.map_cons, List.filter_cons]
      split
      · rw [splitOn, if_neg hc, ih, List.map_cons, List.modifyHead_cons]
      · exact ih

theorem filter_joinWith (hp : p sep) (parts : List Text) :
    (joinWith sep parts).filter p = joinWith sep (parts.map (List.filter p)) := by
  induction parts with
  | nil => rfl
  | cons q parts ih => cases parts with
    | nil => simp
    | cons r parts =>
      rw [joinWith_cons_cons, List.filter_append, List.filter_cons_of_pos hp, ih, List.map_cons,
        List.map_cons, List.map_cons, joinWith_cons_cons]

end Filter

theorem lines_withoutReturns (t : Text) : t.withoutReturns.lines = t.lines.map withoutReturns :=
  splitOn_filter (by decide) t

theorem withoutReturns_unlines (ls : List Text) :
    (unlines ls).withoutReturns = unlines (ls.map withoutReturns) :=
  filter_joinWith (by decide) ls

/-! ### Beginnings -/

/-- A trimmed text starts with the first character that is not blank. -/
theorem head?_trim (t : Text) : t.trim.head? = t.find? fun c => !isBlank c := by
  rw [List.find?_eq_head?_dropWhile_not]
  simp only [Bool.not_not]
  change t.trim.head? = t.trimStart.head?
  obtain ⟨rest, hrest⟩ := trimEnd_prefix t.trimStart
  cases htrim : t.trim with
  | nil => rw [trimStart, List.dropWhile_eq_nil_iff.2 (trim_eq_nil_iff.1 htrim)]
  | cons c s =>
    rw [trim] at htrim
    rw [← hrest, htrim]
    rfl

theorem head?_trim_withoutReturns (t : Text) : t.withoutReturns.trim.head? = t.trim.head? := by
  have hkept : (fun c => decide (decide (c ≠ '\r') = true ∧ (!isBlank c) = true)) =
      fun c => !isBlank c := by
    funext c
    by_cases hc : c = '\r'
    · rw [hc]
      rfl
    · simp [hc]
  rw [head?_trim, head?_trim, withoutReturns, List.find?_filter, hkept]

end Gherkin.Text
