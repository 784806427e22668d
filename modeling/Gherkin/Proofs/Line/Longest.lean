import Gherkin.Proofs.Dialect.Steps
import Gherkin.Proofs.Line.Classify

/-! Lines by the keywords that they begin with, for any keywords that a dialect may have. The
keywords are sorted by their length, so the first that fits is the longest, however they overlap and
as often as they are listed. -/

namespace Gherkin

variable {d : Dialect} {t : Text} {k : LineKind}

/-! ### The keywords of a dialect -/

namespace Dialect

/-- The keywords of a block. -/
def keywordsOf (d : Dialect) : Block → List Text
  | .feature => d.feature
  | .background => d.background
  | .scenario => d.scenario
  | .outline => d.outline
  | .examples => d.examples

/-- The keywords of steps, as they are listed. -/
def stepsListed (d : Dialect) : List Text := d.givens ++ d.whens ++ d.thens ++ d.ands ++ d.buts

/-- A text that begins with a keyword of some block and a colon. -/
def BeginsBlock (d : Dialect) (t : Text) : Prop :=
  ∃ block, ∃ keyword ∈ d.keywordsOf block, keyword ++ [':'] <+: t

/-- A text that begins with a step keyword. -/
def BeginsStep (d : Dialect) (t : Text) : Prop := ∃ keyword ∈ d.stepsListed, keyword <+: t

theorem mem_vocabulary_headers_iff {block : Block} {keyword : Text} :
    (block, keyword) ∈ d.vocabulary.headers ↔ keyword ∈ d.keywordsOf block :=
  mem_sortBy.trans mem_headerKeywords

theorem pairwise_headers (d : Dialect) :
    d.vocabulary.headers.Pairwise fun h h' => h'.2.length ≤ h.2.length := by
  have htotal : ∀ a b : Block × Text, Text.longerFirst a.2 b.2 ∨ Text.longerFirst b.2 a.2 := by
    intro a b
    simpa [Text.longerFirst] using Nat.le_total b.2.length a.2.length
  have htrans : ∀ a b c : Block × Text, Text.longerFirst a.2 b.2 → Text.longerFirst b.2 c.2 →
      Text.longerFirst a.2 c.2 := by
    intro a b c hab hbc
    simp only [Text.longerFirst, decide_eq_true_eq] at hab hbc ⊢
    exact hbc.trans hab
  exact (pairwise_sortBy htotal htrans d.headerKeywords).imp fun h => of_decide_eq_true h

end Dialect

/-! ### The longest keyword -/

/-- In a list that is sorted by size, the first item that fits is the largest of those that fit. -/
theorem exists_largest_of_findSome? {α β : Type} (size : α → ℕ) {f : α → Option β} {xs : List α}
    {b : β} (hsorted : xs.Pairwise fun x y => size y ≤ size x) (h : xs.findSome? f = some b) :
    ∃ x ∈ xs, f x = some b ∧ ∀ y ∈ xs, (f y).isSome → size y ≤ size x := by
  obtain ⟨before, x, after, rfl, hx, hbefore⟩ := List.findSome?_eq_some_iff.1 h
  refine ⟨x, List.mem_append_right _ List.mem_cons_self, hx, fun y hy hsome => ?_⟩
  rcases List.mem_append.1 hy with hy | hy
  · rw [hbefore y hy] at hsome
    cases hsome
  · obtain ⟨-, hrest, -⟩ := List.pairwise_append.1 hsorted
    rcases List.mem_cons.1 hy with rfl | hy
    · exact Nat.le_refl _
    · exact (List.pairwise_cons.1 hrest).1 y hy

namespace Vocabulary

theorem isSome_after?_iff {start : Text} {f : Text → LineKind} :
    ((Text.after? start t).map f).isSome ↔ start <+: t := by
  rw [Option.isSome_map, Option.isSome_iff_exists]
  exact exists_congr fun rest => Text.after?_eq_some_iff.trans eq_comm

theorem isSome_step?_iff : (d.vocabulary.step? t).isSome ↔ ∃ k ∈ d.stepKeywords, k <+: t := by
  rw [step?, List.isSome_findSome?, List.any_eq_true]
  exact exists_congr fun k => and_congr_right fun _ => isSome_after?_iff

/-- The keyword of a step is the longest that the line begins with. -/
theorem step?_longest (h : d.vocabulary.step? t = some k) :
    ∃ keyword rest, keyword ∈ d.stepKeywords ∧ t = keyword ++ rest ∧ k = .step keyword rest.trim ∧
      ∀ k' ∈ d.stepKeywords, k' <+: t → k'.length ≤ keyword.length := by
  obtain ⟨keyword, hmem, hkeyword, hlongest⟩ :=
    exists_largest_of_findSome? List.length d.pairwise_stepKeywords h
  obtain ⟨rest, hrest, rfl⟩ := Option.map_eq_some_iff.1 hkeyword
  exact ⟨keyword, rest, hmem, Text.after?_eq_some_iff.1 hrest, rfl,
    fun k' hk' hprefix => hlongest k' hk' (isSome_after?_iff.2 hprefix)⟩

theorem isSome_header?_iff : (d.vocabulary.header? t).isSome ↔ d.BeginsBlock t := by
  rw [header?, List.isSome_findSome?, List.any_eq_true]
  simp only [isSome_after?_iff, Prod.exists, Dialect.mem_vocabulary_headers_iff]
  rfl

/-- The keyword of a header is the longest that the line begins with. -/
theorem header?_longest (h : d.vocabulary.header? t = some k) :
    ∃ block keyword rest, keyword ∈ d.keywordsOf block ∧ t = keyword ++ ':' :: rest ∧
      k = .header block keyword (Text.trim rest) ∧
      ∀ b, ∀ k' ∈ d.keywordsOf b, k' ++ [':'] <+: t → k'.length ≤ keyword.length := by
  obtain ⟨⟨block, keyword⟩, hmem, hkeyword, hlongest⟩ :=
    exists_largest_of_findSome? (fun h => h.2.length) d.pairwise_headers h
  obtain ⟨rest, hrest, rfl⟩ := Option.map_eq_some_iff.1 hkeyword
  refine ⟨block, keyword, rest, Dialect.mem_vocabulary_headers_iff.1 hmem, ?_, rfl,
    fun b k' hk' hprefix => ?_⟩
  · rw [Text.after?_eq_some_iff.1 hrest, List.append_assoc, List.singleton_append]
  · exact hlongest (b, k') (Dialect.mem_vocabulary_headers_iff.2 hk') (isSome_after?_iff.2 hprefix)

end Vocabulary

/-! ### Fences -/

theorem fence?_mark_append (fence : Fence) (rest : Text) :
    fence? (fence.mark ++ rest) = some (.fence fence rest.trim) := by
  cases fence <;> simp [fence?, Fence.mark, Text.after?]

theorem fence?_eq_none (h : ∀ fence : Fence, ¬fence.mark <+: t) : fence? t = none := by
  rw [Option.eq_none_iff_forall_ne_some]
  intro k hk
  obtain ⟨fence, rest, rfl, -⟩ := fence?_eq_some hk
  exact h fence (List.prefix_append _ _)

/-! ### The kind of a line -/

namespace Vocabulary

/-- The kind of a line that is not blank and neither a comment nor a line of tags. A line that
begins with a block keyword and a colon is the header of the longest such keyword. Any other that
begins, indentation aside, with a step keyword is a step of the longest such keyword. What is left
is told by a fence or a pipe at its start. -/
theorem kindOf_by_keywords (d : Dialect) (hne : t.trim ≠ [])
    (hsign : ∀ c ∈ t.trim.head?, c ≠ '#' ∧ c ≠ '@') :
    (d.BeginsBlock t.trim → ∃ block keyword rest,
      d.vocabulary.kindOf t = .header block keyword (Text.trim rest) ∧
      keyword ∈ d.keywordsOf block ∧ t.trim = keyword ++ ':' :: rest ∧
      ∀ b, ∀ k ∈ d.keywordsOf b, k ++ [':'] <+: t.trim → k.length ≤ keyword.length) ∧
    (¬d.BeginsBlock t.trim → d.BeginsStep t.trimStart → ∃ keyword rest,
      d.vocabulary.kindOf t = .step keyword (Text.trim rest) ∧
      keyword ∈ d.stepsListed ∧ t.trimStart = keyword ++ rest ∧
      ∀ k ∈ d.stepsListed, k <+: t.trimStart → k.length ≤ keyword.length) ∧
    (¬d.BeginsBlock t.trim → ¬d.BeginsStep t.trimStart →
      (∀ (fence : Fence) (rest : Text), t.trim = fence.mark ++ rest →
        d.vocabulary.kindOf t = .fence fence rest.trim) ∧
      ((∀ fence : Fence, ¬fence.mark <+: t.trim) →
        d.vocabulary.kindOf t = if t.trim.head? = some '|' then .row else .other)) := by
  obtain ⟨c, cs, htrim⟩ := List.exists_cons_of_ne_nil hne
  obtain ⟨hash, hat⟩ := hsign c (by rw [htrim]; rfl)
  have hkind := kindOf_of_cons (v := d.vocabulary) htrim hash hat
  have hpipe : (if c = '|' then LineKind.row else .other) =
      if t.trim.head? = some '|' then .row else .other := by
    rw [htrim]
    simp
  rw [hpipe] at hkind
  have hnoHeader (h : ¬d.BeginsBlock t.trim) : d.vocabulary.header? t.trim = none := by
    rwa [← Option.not_isSome_iff_eq_none, isSome_header?_iff]
  have hsteps : (d.vocabulary.step? t.trimStart).isSome ↔ d.BeginsStep t.trimStart := by
    rw [isSome_step?_iff]
    exact exists_congr fun k => and_congr_left fun _ => Dialect.mem_stepKeywords
  refine ⟨fun hblock => ?_, fun hblock hstep => ?_, fun hblock hstep => ⟨fun fence rest hmark => ?_,
    fun hfence => ?_⟩⟩
  · obtain ⟨k, hk⟩ := Option.isSome_iff_exists.1 (isSome_header?_iff.2 hblock)
    obtain ⟨block, keyword, rest, hmem, heq, rfl, hlongest⟩ := header?_longest hk
    rw [hk] at hkind
    exact ⟨block, keyword, rest, hkind, hmem, heq, hlongest⟩
  · obtain ⟨k, hk⟩ := Option.isSome_iff_exists.1 (hsteps.2 hstep)
    obtain ⟨keyword, rest, hmem, heq, rfl, hlongest⟩ := step?_longest hk
    rw [hnoHeader hblock, hk] at hkind
    exact ⟨keyword, rest, hkind, Dialect.mem_stepKeywords.1 hmem, heq,
      fun k hk => hlongest k (Dialect.mem_stepKeywords.2 hk)⟩
  all_goals
    have hnoStep : d.vocabulary.step? t.trimStart = none := by
      rwa [← Option.not_isSome_iff_eq_none, hsteps]
    rw [hnoHeader hblock, hnoStep] at hkind
  · rw [hmark, fence?_mark_append] at hkind
    exact hkind
  · rw [fence?_eq_none hfence] at hkind
    exact hkind

/-- Keywords that begin one another, hold colons and are listed more than once. -/
theorem kindOf_by_keywords_overlap :
    let d : Dialect :=
      { name := [], native := [], feature := ["A".toList], background := []
        scenario := ["A".toList, "A: B".toList], outline := ["A: B".toList, "A: B".toList]
        examples := [], givens := ["* ".toList, "* a ".toList], whens := ["* a ".toList]
        thens := [], ands := [], buts := [[]] }
    let t : Text := "\tA: B: c ".toList
    let t' : Text := " * a b".toList
    (t.trim ≠ [] ∧ (∀ c ∈ t.trim.head?, c ≠ '#' ∧ c ≠ '@') ∧ d.BeginsBlock t.trim ∧
      ∃ block keyword rest, d.vocabulary.kindOf t = .header block keyword (Text.trim rest) ∧
        keyword ∈ d.keywordsOf block ∧ t.trim = keyword ++ ':' :: rest ∧
        ∀ b, ∀ k ∈ d.keywordsOf b, k ++ [':'] <+: t.trim → k.length ≤ keyword.length) ∧
    (t'.trim ≠ [] ∧ (∀ c ∈ t'.trim.head?, c ≠ '#' ∧ c ≠ '@') ∧ ¬d.BeginsBlock t'.trim ∧
      d.BeginsStep t'.trimStart ∧
      ∃ keyword rest, d.vocabulary.kindOf t' = .step keyword (Text.trim rest) ∧
        keyword ∈ d.stepsListed ∧ t'.trimStart = keyword ++ rest ∧
        ∀ k ∈ d.stepsListed, k <+: t'.trimStart → k.length ≤ keyword.length) := by
  intro d t t'
  have hne : t.trim ≠ [] := by decide
  have hne' : t'.trim ≠ [] := by decide
  have hsign : ∀ c ∈ t.trim.head?, c ≠ '#' ∧ c ≠ '@' := by
    rintro c ⟨⟩
    decide
  have hsign' : ∀ c ∈ t'.trim.head?, c ≠ '#' ∧ c ≠ '@' := by
    rintro c ⟨⟩
    decide
  have hblock : d.BeginsBlock t.trim := ⟨.outline, "A: B".toList, by decide, by decide⟩
  have hblock' : ¬d.BeginsBlock t'.trim := by
    rintro ⟨block, k, hk, hprefix⟩
    revert k
    cases block <;> decide
  have hstep : d.BeginsStep t'.trimStart := ⟨"* a ".toList, by decide, by decide⟩
  exact ⟨⟨hne, hsign, hblock, (kindOf_by_keywords d hne hsign).1 hblock⟩, hne', hsign', hblock',
    hstep, (kindOf_by_keywords d hne' hsign').2.1 hblock' hstep⟩

end Vocabulary

end Gherkin
