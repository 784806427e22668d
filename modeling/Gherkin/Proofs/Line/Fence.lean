import Gherkin.Line.Basic
import Gherkin.Proofs.Text.Replace

/-! Texts in doc strings. A fence in the text is written escaped, and each escaped fence is read as a
fence, so an escaped fence that stood in the text is lost. Proved: a text is read back as it was
written just when every escaped fence in it is followed by two more quotes. These make a fence of
its last quote, and the backslashes that this is written with keep the escaped fence from being read
as one. -/

namespace Gherkin

theorem Fence.mark_quotes : Fence.quotes.mark = ['"', '"', '"'] := rfl

theorem Fence.escaped_quotes : Fence.quotes.escaped = ['\\', '"', '\\', '"', '\\', '"'] := rfl

theorem Fence.mark_ne_nil : Fence.quotes.mark ≠ [] := by simp [Fence.mark_quotes]

theorem Fence.escaped_ne_nil : Fence.quotes.escaped ≠ [] := by simp [Fence.escaped_quotes]

namespace Text

variable {c : Char} {t r : Text}

/-- What is read of a text that is written in a doc string. -/
def reread (t : Text) : Text :=
  (t.replace Fence.quotes.mark Fence.quotes.escaped).replace Fence.quotes.escaped Fence.quotes.mark

/-- Two more quotes follow every escaped fence. -/
def Legible (t : Text) : Prop :=
  ∀ before after, t = before ++ Fence.quotes.escaped ++ after → ['"', '"'] <+: after

/-! ### Legible texts -/

theorem legible_nil : Legible [] := by
  intro before after h
  simp [Fence.escaped_quotes] at h

/-- An escaped fence begins with the first character of a text or comes after it. -/
theorem legible_cons_iff :
    Legible (c :: t) ↔
      (∀ after, c :: t = Fence.quotes.escaped ++ after → ['"', '"'] <+: after) ∧ Legible t := by
  constructor
  · intro h
    refine ⟨fun after hafter => h [] after hafter, fun before after hafter => ?_⟩
    exact h (c :: before) after (congrArg (c :: ·) hafter)
  · rintro ⟨hfirst, hrest⟩ before after h
    cases before with
    | nil => exact hfirst after h
    | cons b before => exact hrest before after (List.cons.inj h).2

theorem legible_mark_append_iff : Legible (Fence.quotes.mark ++ t) ↔ Legible t := by
  simp [Fence.mark_quotes, Fence.escaped_quotes, legible_cons_iff]

/-! ### Writing -/

/-- A quote is written as it stands when no fence begins with it. -/
theorem exists_of_replace_eq_quote
    (h : t.replace Fence.quotes.mark Fence.quotes.escaped = '"' :: r) :
    ∃ t' : Text, t = '"' :: t' ∧ ¬Fence.quotes.mark <+: t ∧
      t'.replace Fence.quotes.mark Fence.quotes.escaped = r := by
  rcases replace_cases Fence.mark_ne_nil Fence.quotes.escaped t with
    rfl | ⟨rest, -, hr⟩ | ⟨c, cs, rfl, hp, hr⟩
  · cases h
  · rw [h, Fence.escaped_quotes] at hr
    simp at hr
  · rw [h] at hr
    obtain ⟨rfl, rfl⟩ := List.cons.inj hr
    exact ⟨cs, rfl, hp, rfl⟩

/-- A quote and a backslash are written as they stand: a fence is not written right after a quote. -/
theorem exists_of_replace_eq_pair
    (h : t.replace Fence.quotes.mark Fence.quotes.escaped = '"' :: '\\' :: r) :
    ∃ t' : Text, t = '"' :: '\\' :: t' ∧ t'.replace Fence.quotes.mark Fence.quotes.escaped = r := by
  obtain ⟨t, rfl, hp, h⟩ := exists_of_replace_eq_quote h
  rcases replace_cases Fence.mark_ne_nil Fence.quotes.escaped t with
    rfl | ⟨rest, rfl, -⟩ | ⟨c, cs, rfl, -, hr⟩
  · cases h
  · exact absurd (by simp [Fence.mark_quotes]) hp
  · rw [h] at hr
    obtain ⟨rfl, rfl⟩ := List.cons.inj hr
    exact ⟨cs, rfl, rfl⟩

/-- An escaped fence is written as it stands when no two quotes follow it. -/
theorem replace_escaped_append (h : ¬['"', '"'] <+: t) :
    (Fence.quotes.escaped ++ t).replace Fence.quotes.mark Fence.quotes.escaped =
      Fence.quotes.escaped ++ t.replace Fence.quotes.mark Fence.quotes.escaped := by
  have hlast : ¬Fence.quotes.mark <+: '"' :: t := fun hp => h (List.cons_prefix_cons.1 hp).2
  simp only [Fence.escaped_quotes, List.cons_append, List.nil_append]
  iterate 5
    rw [replace_cons_of_not (by simp [Fence.mark_quotes])]
  rw [replace_cons_of_not hlast]

/-- Where an escaped fence is written for a character, the text has the escaped fence there, and no
two quotes follow it. -/
theorem exists_of_escaped_prefix
    (h : Fence.quotes.escaped <+: c :: t.replace Fence.quotes.mark Fence.quotes.escaped) :
    ∃ after, c :: t = Fence.quotes.escaped ++ after ∧ ¬['"', '"'] <+: after := by
  obtain ⟨rest, hrest⟩ := h
  have hshape : Fence.quotes.escaped ++ rest =
      '\\' :: '"' :: '\\' :: '"' :: '\\' :: '"' :: rest := rfl
  rw [hshape] at hrest
  obtain ⟨rfl, hfirst⟩ := List.cons.inj hrest
  obtain ⟨t, rfl, hsecond⟩ := exists_of_replace_eq_pair hfirst.symm
  obtain ⟨t, rfl, hthird⟩ := exists_of_replace_eq_pair hsecond
  obtain ⟨t, rfl, hp, -⟩ := exists_of_replace_eq_quote hthird
  exact ⟨t, rfl, fun hpair => hp (List.cons_prefix_cons.2 ⟨rfl, hpair⟩)⟩

/-! ### Reading -/

@[simp] theorem reread_nil : reread [] = [] := rfl

theorem reread_mark_append : reread (Fence.quotes.mark ++ t) = Fence.quotes.mark ++ reread t := by
  rw [reread, replace_append Fence.mark_ne_nil, replace_append Fence.escaped_ne_nil, reread]

theorem reread_escaped_append (h : ¬['"', '"'] <+: t) :
    reread (Fence.quotes.escaped ++ t) = Fence.quotes.mark ++ reread t := by
  rw [reread, replace_escaped_append h, replace_append Fence.escaped_ne_nil, reread]

theorem reread_cons (hmark : ¬Fence.quotes.mark <+: c :: t)
    (hescaped : ∀ after, c :: t = Fence.quotes.escaped ++ after → ['"', '"'] <+: after) :
    reread (c :: t) = c :: reread t := by
  have hnot : ¬Fence.quotes.escaped <+: c :: t.replace Fence.quotes.mark Fence.quotes.escaped := by
    intro h
    obtain ⟨after, hafter, hpair⟩ := exists_of_escaped_prefix h
    exact hpair (hescaped after hafter)
  rw [reread, replace_cons_of_not hmark, replace_cons_of_not hnot, reread]

/-- A text is read back as it was written just when it is legible. -/
theorem reread_eq_self_iff : reread t = t ↔ Legible t := by
  induction hn : t.length using Nat.strongRecOn generalizing t with
  | ind n ih =>
    cases t with
    | nil => exact ⟨fun _ => legible_nil, fun _ => rfl⟩
    | cons c t =>
      rw [List.length_cons] at hn
      by_cases hmark : Fence.quotes.mark <+: c :: t
      · obtain ⟨rest, hrest⟩ := hmark
        have hlength : rest.length < n := by
          have h := congrArg List.length hrest
          rw [List.length_append, Fence.mark_quotes] at h
          simp only [List.length_cons, List.length_nil] at h
          omega
        rw [← hrest, reread_mark_append, legible_mark_append_iff, List.append_cancel_left_eq]
        exact ih rest.length hlength rfl
      by_cases hescaped : ∀ after, c :: t = Fence.quotes.escaped ++ after → ['"', '"'] <+: after
      · rw [reread_cons hmark hescaped, legible_cons_iff, List.cons_inj_right]
        exact (ih t.length (by omega) rfl).trans (and_iff_right hescaped).symm
      · -- the escaped fence is read as a fence
        rw [not_forall] at hescaped
        obtain ⟨after, hescaped⟩ := hescaped
        obtain ⟨hafter, hpair⟩ := Classical.not_imp.1 hescaped
        rw [hafter, reread_escaped_append hpair]
        refine ⟨fun h => ?_, fun h => absurd (h [] after rfl) hpair⟩
        rw [Fence.mark_quotes, Fence.escaped_quotes] at h
        simp at h

/-! ### Lines -/

theorem lines_reread (t : Text) : lines (reread t) = (lines t).map reread := by
  have hmark : '\n' ∉ Fence.quotes.mark := by decide
  have hescaped : '\n' ∉ Fence.quotes.escaped := by decide
  rw [reread, lines_replace Fence.escaped_ne_nil hescaped hmark, lines_replace Fence.mark_ne_nil hmark hescaped,
    List.map_map]
  rfl

end Text

end Gherkin
