import Gherkin.Line.Classify
import Gherkin.Proofs.Text.Trim

/-! What the kind of a line says about its text, and that indentation does not change it. -/

namespace Gherkin

variable {v : Vocabulary} {t : Text} {k : LineKind}

namespace Vocabulary

theorem header?_eq_some (h : v.header? t = some k) :
    ∃ block keyword, ∃ rest : Text, (block, keyword) ∈ v.headers ∧ t = keyword ++ ':' :: rest ∧
      k = .header block keyword rest.trim := by
  obtain ⟨⟨block, keyword⟩, hmem, hk⟩ := List.exists_of_findSome?_eq_some h
  obtain ⟨rest, hrest, rfl⟩ := Option.map_eq_some_iff.1 hk
  refine ⟨block, keyword, rest, hmem, ?_, rfl⟩
  simpa using Text.after?_eq_some_iff.1 hrest

theorem step?_eq_some (h : v.step? t = some k) :
    ∃ keyword, ∃ rest : Text, keyword ∈ v.steps ∧ t = keyword ++ rest ∧ k = .step keyword rest.trim := by
  obtain ⟨keyword, hmem, hk⟩ := List.exists_of_findSome?_eq_some h
  obtain ⟨rest, hrest, rfl⟩ := Option.map_eq_some_iff.1 hk
  exact ⟨keyword, rest, hmem, Text.after?_eq_some_iff.1 hrest, rfl⟩

end Vocabulary

theorem fence?_eq_some (h : fence? t = some k) :
    ∃ fence, ∃ rest : Text, t = fence.mark ++ rest ∧ k = .fence fence rest.trim := by
  obtain ⟨fence, -, hk⟩ := List.exists_of_findSome?_eq_some h
  obtain ⟨rest, hrest, rfl⟩ := Option.map_eq_some_iff.1 hk
  exact ⟨fence, rest, Text.after?_eq_some_iff.1 hrest, rfl⟩

namespace Vocabulary

/-- What a line can be that is not blank and starts neither with a number sign nor with an at
sign. -/
theorem kindOf_of_cons {c : Char} {cs : Text} (h : t.trim = c :: cs) (hash : c ≠ '#')
    (hat : c ≠ '@') :
    v.kindOf t = ((((v.header? t.trim).or (v.step? t.trimStart)).or (fence? t.trim)).getD
      (if c = '|' then .row else .other)) := by
  unfold kindOf
  split
  · next hd => simp [hd] at h
  · next hd => exact absurd (List.cons.inj (h.symm.trans hd)).1 hash
  · next hd => exact absurd (List.cons.inj (h.symm.trans hd)).1 hat
  · next hd =>
    rw [hd] at h ⊢
    obtain ⟨rfl, rfl⟩ := List.cons.inj h
    rfl

/-- What the kind of a line says about its text. -/
def Fits (v : Vocabulary) (t : Text) : LineKind → Prop
  | .blank => t.trim = []
  | .comment => (∃ cs, t.trim = '#' :: cs) ∧ languageCode? t.trim = none
  | .language code => languageCode? t.trim = some code
  | .tags => ∃ cs, t.trim = '@' :: cs
  | .header block keyword name =>
    ∃ rest : Text, (block, keyword) ∈ v.headers ∧ t.trim = keyword ++ ':' :: rest ∧ name = rest.trim
  | .step keyword text =>
    ∃ rest : Text, keyword ∈ v.steps ∧ t.trimStart = keyword ++ rest ∧ text = rest.trim
  | .fence fence contentType =>
    ∃ rest : Text, t.trim = fence.mark ++ rest ∧ contentType = rest.trim
  | .row => ∃ cs, t.trim = '|' :: cs
  | .other => True

theorem fits_kindOf (v : Vocabulary) (t : Text) : v.Fits t (v.kindOf t) := by
  unfold kindOf
  split
  · next ht => exact ht
  · next cs ht =>
    cases hcode : languageCode? ('#' :: cs) with
    | some code =>
      show languageCode? t.trim = some code
      rw [ht, hcode]
    | none => exact ⟨⟨cs, ht⟩, by rw [ht, hcode]⟩
  · next cs ht => exact ⟨_, ht⟩
  · next c cs _ _ ht =>
    cases hheader : v.header? (c :: cs) with
    | some k =>
      obtain ⟨block, keyword, rest, hmem, heq, rfl⟩ := header?_eq_some hheader
      exact ⟨rest, hmem, ht.trans heq, rfl⟩
    | none =>
      cases hstep : v.step? t.trimStart with
      | some k =>
        obtain ⟨keyword, rest, hmem, heq, rfl⟩ := step?_eq_some hstep
        exact ⟨rest, hmem, heq, rfl⟩
      | none =>
        cases hfence : fence? (c :: cs) with
        | some k =>
          obtain ⟨fence, rest, heq, rfl⟩ := fence?_eq_some hfence
          exact ⟨rest, ht.trans heq, rfl⟩
        | none =>
          by_cases hc : c = '|'
          · rw [if_pos hc]
            exact ⟨cs, hc ▸ ht⟩
          · rw [if_neg hc]
            trivial

theorem kindOf_eq_blank_iff : v.kindOf t = .blank ↔ t.trim = [] := by
  constructor
  · intro h
    have hfits := fits_kindOf v t
    rwa [h] at hfits
  · intro h
    rw [kindOf, h]

/-- Blanks in front of a line do not change its kind. -/
theorem kindOf_append_of_blank {s : Text} (h : ∀ c ∈ s, Text.isBlank c) (t : Text) :
    v.kindOf (s ++ t) = v.kindOf t := by
  rw [kindOf, kindOf, Text.trim_append_of_blank h, Text.trimStart_append_of_blank h]

end Vocabulary

end Gherkin
