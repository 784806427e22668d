import Gherkin.Proofs.Line.StepLine

/-! The wildcard in the dialects. A dialect that lists it among its step keywords makes a step of
every line that begins with it and a space; in a dialect that does not, such a line is free text. No
keyword goes on after an asterisk in any other way. -/

namespace Gherkin

namespace Dialect

/-- The dialects without the wildcard. -/
def unstarred : List Text := ["en-tx".toList, "sl".toList]

/-- What the keywords of a dialect have to do with the wildcard. -/
structure Starring (code : Text) (d : Dialect) : Prop where
  header : ∀ h ∈ d.headerKeywords, ¬wildcard <+: h.2
  step : ∀ k ∈ d.stepKeywords, wildcard <+: k → k = wildcard ++ [' ']
  listed : wildcard ++ [' '] ∈ d.stepKeywords ↔ code ∉ unstarred

instance (code : Text) (d : Dialect) : Decidable (Starring code d) :=
  decidable_of_iff
    ((∀ h ∈ d.headerKeywords, ¬wildcard <+: h.2) ∧
      (∀ k ∈ d.stepKeywords, wildcard <+: k → k = wildcard ++ [' ']) ∧
      (wildcard ++ [' '] ∈ d.stepKeywords ↔ code ∉ unstarred))
    ⟨fun h => ⟨h.1, h.2.1, h.2.2⟩, fun h => ⟨h.header, h.step, h.listed⟩⟩

theorem starring_table : ∀ e ∈ table, Starring e.1 e.2 := by
  unfold table
  repeat' refine List.forall_mem_cons.2 ⟨?_, ?_⟩
  case' refine_2 => exact List.forall_mem_nil _
  all_goals
    dsimp only
    apply of_spells (P := Starring _) fun _ _ _ h => ⟨h.header, h.step, h.listed⟩
    iterate 10
      · repeat constructor
    decide +kernel

variable {code : Text} {d : Dialect}

theorem starring_of_get? (h : get? code = some d) : Starring code d :=
  starring_table _ (mem_table_of_get? h)

end Dialect

/-! ### Lines that begin with the wildcard -/

namespace Vocabulary

variable {code : Text} {d : Dialect} (hcode : Dialect.get? code = some d)

include hcode

theorem header?_star (cs : Text) : d.vocabulary.header? ('*' :: cs) = none := by
  rw [Option.eq_none_iff_forall_ne_some]
  intro k hk
  obtain ⟨block, keyword, rest, hmem, heq, -⟩ := header?_eq_some hk
  rw [Dialect.mem_vocabulary_headers] at hmem
  obtain ⟨c, keyword, rfl, -⟩ :=
    ((Dialect.sound_of_get? hcode).header _ hmem).1.exists_cons
  obtain ⟨rfl, -⟩ := List.cons.inj heq
  exact (Dialect.starring_of_get? hcode).header _ hmem ⟨keyword, rfl⟩

/-- The wildcard is the only step keyword that such a line can begin with. -/
theorem eq_wildcard_of_starts {k cs : Text} (hk : k ∈ d.stepKeywords) (h : k <+: '*' :: cs) :
    k = Dialect.wildcard ++ [' '] := by
  obtain ⟨c, keyword, rfl, -⟩ := ((Dialect.sound_of_get? hcode).step _ hk).exists_cons
  obtain ⟨rfl, -⟩ := List.cons_prefix_cons.1 h
  exact (Dialect.starring_of_get? hcode).step _ hk ⟨keyword, rfl⟩

theorem kindOf_star_eq (cs : Text) :
    d.vocabulary.kindOf ('*' :: cs) = (d.vocabulary.step? ('*' :: cs)).getD .other := by
  obtain ⟨ds, hds⟩ := Text.trim_cons_of_not (c := '*') (by decide) cs
  have hfence : fence? ('*' :: ds) = none := by
    simp [fence?, Fence.mark, Text.after?]
  rw [kindOf_of_cons hds (by decide) (by decide), hds, Text.trimStart_cons_of_not (by decide),
    header?_star hcode, hfence]
  cases d.vocabulary.step? ('*' :: cs) <;> rfl

/-- Where the wildcard is listed, it makes a step of the line. -/
theorem kindOf_star (h : code ∉ Dialect.unstarred) (text : Text) :
    d.vocabulary.kindOf ('*' :: ' ' :: text) = .step (Dialect.wildcard ++ [' ']) text.trim := by
  have hlisted := (Dialect.starring_of_get? hcode).listed.2 h
  obtain ⟨k, hk⟩ := Option.isSome_iff_exists.1 (isSome_step?_iff.2 ⟨_, hlisted, text, rfl⟩)
  obtain ⟨keyword, rest, hmem, heq, rfl, -⟩ := step?_longest hk
  obtain rfl := eq_wildcard_of_starts hcode hmem ⟨rest, heq.symm⟩
  obtain ⟨-, htail⟩ := List.cons.inj heq
  obtain ⟨-, rfl⟩ := List.cons.inj htail
  have hstep : d.vocabulary.step? ('*' :: ' ' :: text) =
      some (.step (Dialect.wildcard ++ [' ']) text.trim) := hk
  rw [kindOf_star_eq hcode, hstep]
  rfl

/-- Where it is not, the line has no meaning of its own. -/
theorem kindOf_star_other (h : code ∈ Dialect.unstarred) (cs : Text) :
    d.vocabulary.kindOf ('*' :: cs) = .other := by
  have hnone : d.vocabulary.step? ('*' :: cs) = none := by
    rw [← Option.not_isSome_iff_eq_none, isSome_step?_iff]
    rintro ⟨k, hk, hprefix⟩
    have hlisted := (Dialect.starring_of_get? hcode).listed.1
      (eq_wildcard_of_starts hcode hk hprefix ▸ hk)
    exact hlisted h
  rw [kindOf_star_eq hcode, hnone]
  rfl

end Vocabulary

end Gherkin
