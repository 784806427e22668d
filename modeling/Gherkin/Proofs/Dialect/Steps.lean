import Mathlib.Data.List.Nodup
import Gherkin.Proofs.Dialect.Table
import Gherkin.Proofs.Text.Order

/-! The step keywords of the dialects beside one another. They are tried longest first. No two differ
in their trailing blanks alone, none holds a carriage return, and none together with a space is the
beginning of a header or begins with one. In most dialects a keyword has one trailing space at most,
and no other keyword goes on after it and a space. -/

namespace Gherkin.Dialect

/-- How the step keywords of a dialect stand to one another and to its headers. -/
structure Separate (d : Dialect) : Prop where
  header : ∀ k ∈ d.stepKeywords, ∀ h ∈ d.headerKeywords,
    ¬k.trim ++ [' '] <+: h.2 ++ [':'] ∧ ¬h.2 ++ [':'] <+: k.trim ++ [' ']
  trim : (d.stepKeywords.map Text.trim).Nodup
  line : ∀ k ∈ d.stepKeywords, '\r' ∉ k

/-- No step keyword has more than one trailing space, and none goes on after another one and a
space. -/
def Uncrossed (d : Dialect) : Prop :=
  ∀ k ∈ d.stepKeywords, k <+: k.trim ++ [' '] ∧
    ∀ k' ∈ d.stepKeywords, k.trim ++ [' '] <+: k' → k' <+: k.trim ++ [' ']

instance (d : Dialect) : Decidable d.Separate :=
  decidable_of_iff
    ((∀ k ∈ d.stepKeywords, ∀ h ∈ d.headerKeywords,
        ¬k.trim ++ [' '] <+: h.2 ++ [':'] ∧ ¬h.2 ++ [':'] <+: k.trim ++ [' ']) ∧
      (d.stepKeywords.map Text.trim).Nodup ∧
      ∀ k ∈ d.stepKeywords, '\r' ∉ k)
    ⟨fun h => ⟨h.1, h.2.1, h.2.2⟩, fun h => ⟨h.header, h.trim, h.line⟩⟩

instance (d : Dialect) : Decidable d.Uncrossed :=
  inferInstanceAs (Decidable (∀ k ∈ d.stepKeywords, k <+: k.trim ++ [' '] ∧
    ∀ k' ∈ d.stepKeywords, k.trim ++ [' '] <+: k' → k' <+: k.trim ++ [' ']))

/-! ### The table -/

/-- The dialects in which a step keyword has two trailing spaces, or goes on after another one and a
space. -/
def crossed : List Text :=
  ["cs".toList, "en-old".toList, "fr".toList, "ht".toList, "sk".toList, "ta".toList]

theorem separate_table : ∀ e ∈ table, e.2.Separate ∧ (e.2.Uncrossed ∨ e.1 ∈ crossed) := by
  unfold table
  repeat' refine List.forall_mem_cons.2 ⟨?_, ?_⟩
  case' refine_2 => exact List.forall_mem_nil _
  all_goals
    dsimp only
    apply of_spells (P := fun d => d.Separate ∧ (d.Uncrossed ∨ _ ∈ crossed))
      fun _ _ _ h => ⟨⟨h.1.header, h.1.trim, h.1.line⟩, h.2⟩
    iterate 10
      · repeat constructor
    decide +kernel

variable {code : Text} {d : Dialect}

theorem separate_of_get? (h : get? code = some d) : d.Separate :=
  (separate_table _ (mem_table_of_get? h)).1

theorem uncrossed_of_get? (h : get? code = some d) (hcode : code ∉ crossed) : d.Uncrossed :=
  (separate_table _ (mem_table_of_get? h)).2.resolve_right hcode

/-- Where keywords do not cross, none that a written line begins with goes on after the space. -/
theorem Uncrossed.written (h : d.Uncrossed) {k : Text} (hk : k ∈ d.stepKeywords) (text : Text) :
    k <+: k.trim ++ [' '] ∧
      ∀ k' ∈ d.stepKeywords, k' <+: k.trim ++ ' ' :: text → k' <+: k.trim ++ [' '] := by
  obtain ⟨hall, hnone⟩ := h k hk
  have hspace : k.trim ++ [' '] <+: k.trim ++ ' ' :: text :=
    ⟨text, by rw [List.append_assoc, List.singleton_append]⟩
  refine ⟨hall, fun k' hk' hprefix => ?_⟩
  exact (List.prefix_or_prefix_of_prefix hprefix hspace).elim id (hnone k' hk')

/-! ### The order of the keywords -/

theorem pairwise_stepKeywords (d : Dialect) :
    d.stepKeywords.Pairwise fun k k' => k'.length ≤ k.length :=
  ((pairwise_sortBy Text.longerThenLeq_total Text.longerThenLeq_trans _).sublist
    (dropRepeats_sublist _)).imp Text.length_le_of_longerThenLeq

end Gherkin.Dialect
