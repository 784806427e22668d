import Mathlib.Data.List.Basic
import Gherkin.Text.Lines
import Gherkin.Text.Replace

/-! Laws of replacing. An occurrence at the front is replaced, any other character stays; when
neither text holds a line feed, replacing can be done line by line. -/

namespace Gherkin.Text

variable {old new t : Text}

theorem replace_append (h : old ≠ []) (new t : Text) :
    replace (old ++ t) old new = new ++ replace t old new := by
  obtain ⟨c, cs, rfl⟩ := List.exists_cons_of_ne_nil h
  have hprefix : (c :: cs).isPrefixOf (c :: (cs ++ t)) := by
    rw [List.isPrefixOf_iff_prefix]
    exact ⟨t, rfl⟩
  rw [List.cons_append, replace, replaceAfter, if_pos hprefix, replaceAfter_eq_drop]
  simp

theorem replace_cons_of_not {c : Char} (h : ¬old <+: c :: t) (new : Text) :
    replace (c :: t) old new = c :: replace t old new := by
  rw [replace, replaceAfter, if_neg (by rwa [List.isPrefixOf_iff_prefix])]
  rfl

/-- Either what is to be replaced stands in front, or the first character stays. -/
theorem replace_cases (h : old ≠ []) (new t : Text) :
    t = [] ∨ (∃ rest, t = old ++ rest ∧ replace t old new = new ++ replace rest old new) ∨
      ∃ c cs, t = c :: cs ∧ ¬old <+: t ∧ replace t old new = c :: replace cs old new := by
  cases t with
  | nil => exact .inl rfl
  | cons c cs =>
    by_cases hp : old <+: c :: cs
    · obtain ⟨rest, hrest⟩ := hp
      exact .inr (.inl ⟨rest, hrest.symm, by rw [← hrest, replace_append h]⟩)
    · exact .inr (.inr ⟨c, cs, rfl, hp, replace_cons_of_not hp new⟩)

/-- Induction along a replacement. -/
theorem replace_induction {motive : Text → Text → Prop} (h : old ≠ []) (nil : motive [] [])
    (skip : ∀ rest, motive rest (replace rest old new) →
      motive (old ++ rest) (new ++ replace rest old new))
    (keep : ∀ c cs, ¬old <+: c :: cs → motive cs (replace cs old new) →
      motive (c :: cs) (c :: replace cs old new)) (t : Text) : motive t (replace t old new) := by
  induction hn : t.length using Nat.strongRecOn generalizing t with
  | ind n ih =>
    rcases replace_cases h new t with rfl | ⟨rest, rfl, hr⟩ | ⟨c, cs, rfl, hp, hr⟩
    · exact nil
    · have hpos := List.length_pos_of_ne_nil h
      rw [List.length_append] at hn
      rw [hr]
      exact skip rest (ih rest.length (by omega) rest rfl)
    · rw [List.length_cons] at hn
      rw [hr]
      exact keep c cs hp (ih cs.length (by omega) cs rfl)

theorem replace_eq_nil_iff (h : old ≠ []) (hnew : new ≠ []) : replace t old new = [] ↔ t = [] :=
  replace_induction (motive := fun t r => r = [] ↔ t = []) h (by simp) (fun _ _ => by simp [h, hnew])
    (fun _ _ _ _ => by simp) t

theorem mem_replace {c : Char} (h : old ≠ []) (hc : c ∈ replace t old new) : c ∈ t ∨ c ∈ new := by
  revert hc
  refine replace_induction (motive := fun t r => c ∈ r → c ∈ t ∨ c ∈ new) h ?_ ?_ ?_ t
  · exact fun hc => .inl hc
  · intro rest ih hc
    rcases List.mem_append.1 hc with hc | hc
    · exact .inr hc
    · exact (ih hc).imp_left (List.mem_append_right _)
  · intro d ds _ ih hc
    rcases List.mem_cons.1 hc with rfl | hc
    · exact .inl List.mem_cons_self
    · exact (ih hc).imp_left (List.mem_cons_of_mem _)

/-- The last character is one of the text or that of the replacement. -/
theorem getLast?_replace {c : Char} (h : old ≠ []) (hnew : new ≠ [])
    (hc : (replace t old new).getLast? = some c) : t.getLast? = some c ∨ new.getLast? = some c := by
  revert hc
  refine replace_induction
    (motive := fun t r => r.getLast? = some c → t.getLast? = some c ∨ new.getLast? = some c)
    h ?_ ?_ ?_ t
  · exact fun hc => .inl hc
  · intro rest ih hc
    by_cases hr : replace rest old new = []
    · rw [hr, List.append_nil] at hc
      exact .inr hc
    · have hrest : rest ≠ [] := fun e => hr ((replace_eq_nil_iff h hnew).2 e)
      rw [List.getLast?_append_of_ne_nil _ hr] at hc
      rw [List.getLast?_append_of_ne_nil _ hrest]
      exact ih hc
  · intro d ds _ ih hc
    by_cases hr : replace ds old new = []
    · have hds : ds = [] := (replace_eq_nil_iff h hnew).1 hr
      rw [hr] at hc
      rw [hds]
      exact .inl hc
    · have hds : ds ≠ [] := fun e => hr ((replace_eq_nil_iff h hnew).2 e)
      rw [List.getLast?_cons_of_ne_nil hr] at hc
      rw [List.getLast?_cons_of_ne_nil hds]
      exact ih hc

/-- The first part is the beginning of a text. -/
theorem prefix_of_splitOn {sep : Char} {part : Text} {parts : List Text}
    (h : splitOn sep t = part :: parts) : part <+: t := by
  have hjoin : joinWith sep (splitOn sep t) = t := joinWith_splitOn t
  rw [← hjoin, h]
  cases parts with
  | nil =>
    exact ⟨[], by rw [joinWith_singleton, List.append_nil]⟩
  | cons q qs =>
    rw [joinWith_cons_cons]
    exact List.prefix_append _ _

/-- Replacing goes line by line. -/
theorem lines_replace (h : old ≠ []) (hold : '\n' ∉ old) (hnew : '\n' ∉ new) (t : Text) :
    lines (replace t old new) = (lines t).map (replace · old new) := by
  refine replace_induction (motive := fun t r => lines r = (lines t).map (replace · old new))
    h ?_ ?_ ?_ t
  · rfl
  · intro rest ih
    obtain ⟨l, ls, hls⟩ := List.exists_cons_of_ne_nil (lines_ne_nil rest)
    rw [lines, splitOn_append _ _ hnew, lines, splitOn_append _ _ hold, ← lines, ← lines, ih, hls]
    simp [replace_append h]
  · intro c cs hp ih
    obtain ⟨l, ls, hls⟩ := List.exists_cons_of_ne_nil (lines_ne_nil cs)
    by_cases hc : c = '\n'
    · rw [lines, splitOn, if_pos hc, lines, splitOn, if_pos hc, ← lines, ← lines, ih]
      rfl
    · have hl : ¬old <+: c :: l := fun hpre =>
        hp (hpre.trans (List.cons_prefix_cons.2 ⟨rfl, prefix_of_splitOn hls⟩))
      rw [lines, splitOn, if_neg hc, lines, splitOn, if_neg hc, ← lines, ← lines, ih, hls]
      simp [replace_cons_of_not hl]

end Gherkin.Text
