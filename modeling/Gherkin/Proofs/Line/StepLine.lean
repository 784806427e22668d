import Gherkin.Layout.Render
import Gherkin.Proofs.Line.Kinds
import Gherkin.Proofs.Line.Longest

/-! The line that a step is written on: its keyword without blanks, one space and its text. Read
again, it is a step with the longest keyword that it begins with. That is the keyword it was written
for, unless this one has two trailing spaces in its dialect, of which only one is written, or the
text begins with what makes a longer keyword of it. Proved: these are the only ways in which a line
is not what was written, and in most dialects there are none. -/

namespace Gherkin

variable {d : Dialect} {keyword text : Text}

namespace Text

/-- A keyword is what trimming leaves of it and some blanks. -/
theorem IsKeyword.exists_trim_append (h : keyword.IsKeyword) :
    ∃ s, (∀ c ∈ s, isBlank c) ∧ keyword = keyword.trim ++ s := by
  obtain ⟨c, cs, hcons, hblank, -⟩ := h.exists_cons
  have hstart : keyword.trimStart = keyword := by
    rw [hcons]
    exact trimStart_cons_of_not hblank cs
  rw [trim, hstart]
  exact exists_append_trimEnd keyword

/-- What trimming leaves of a keyword starts as the keyword does. -/
theorem IsKeyword.exists_trim_cons (h : keyword.IsKeyword) :
    ∃ c cs, keyword.trim = c :: cs ∧ isBlank c = false ∧ c ∉ ['#', '@', '"', '|'] := by
  obtain ⟨c, cs, rfl, hblank, hnot⟩ := h.exists_cons
  obtain ⟨ds, hds⟩ := trim_cons_of_not hblank cs
  exact ⟨c, ds, hds, hblank, hnot⟩

theorem IsKeyword.trimStart_append_trim (h : keyword.IsKeyword) (t : Text) :
    trimStart (keyword.trim ++ t) = keyword.trim ++ t := by
  obtain ⟨c, cs, hcons, hblank, -⟩ := h.exists_trim_cons
  rw [hcons]
  exact trimStart_cons_of_not hblank _

/-- Of the blanks before a trimmed text, one space is all that can begin a written line. -/
theorem prefix_space_of_blank {s : Text} (hs : ∀ c ∈ s, isBlank c) (htext : text.trim = text)
    (h : s <+: ' ' :: text) : s <+: [' '] := by
  cases s with
  | nil => exact List.nil_prefix
  | cons b s =>
    obtain ⟨rfl, hrest⟩ := List.cons_prefix_cons.1 h
    cases s with
    | nil => exact List.prefix_refl _
    | cons b s =>
      obtain ⟨rest, rfl⟩ := hrest
      have hstart := (trim_eq_self_iff.1 htext).1
      rw [trimStart_eq_self_iff] at hstart
      have hblank : isBlank b := hs b (List.mem_cons_of_mem _ List.mem_cons_self)
      exact absurd hblank (by rw [hstart b rfl]; decide)

end Text

namespace Vocabulary

/-- A line that is a step with a keyword, blanks aside, and a text. -/
def IsStep (v : Vocabulary) (line keyword text : Text) : Prop :=
  ∃ k, v.kindOf line = .step k text ∧ k.trim = keyword

/-- A line that is a step is read by its keywords. -/
theorem step?_of_kindOf {v : Vocabulary} {t : Text} (h : v.kindOf t = .step keyword text) :
    v.step? t.trimStart = some (.step keyword text) := by
  unfold kindOf at h
  split at h
  · cases h
  · split at h <;> cases h
  · cases h
  · next c cs _ _ _ =>
    cases hheader : v.header? (c :: cs) with
    | some k =>
      obtain ⟨_, _, _, -, -, rfl⟩ := header?_eq_some hheader
      simp [hheader] at h
    | none =>
      cases hstep : v.step? t.trimStart with
      | some k => simpa [hheader, hstep] using h
      | none =>
        cases hfence : fence? (c :: cs) with
        | some k =>
          obtain ⟨_, _, -, rfl⟩ := fence?_eq_some hfence
          simp [hheader, hstep, hfence] at h
        | none =>
          simp only [hheader, hstep, hfence, Option.or_none, Option.getD_none] at h
          split at h <;> cases h

/-! ### Carriage returns -/

theorem kindOf_congr {v : Vocabulary} {s t : Text} (htrim : s.trim = t.trim)
    (hstep : v.step? s.trimStart = v.step? t.trimStart) : v.kindOf s = v.kindOf t := by
  unfold kindOf
  rw [htrim, hstep]

theorem step?_append_return (hs : d.Separate) (t : Text) :
    d.vocabulary.step? (t ++ ['\r']) = d.vocabulary.step? t := by
  have hblank : ∀ c ∈ ['\r'], Text.isBlank c := List.forall_mem_singleton.2 rfl
  have hkeyword : ∀ k ∈ d.stepKeywords,
      (Text.after? k (t ++ ['\r'])).map (fun rest => LineKind.step k rest.trim) =
        (Text.after? k t).map fun rest => .step k rest.trim := by
    intro k hk
    cases hrest : Text.after? k t with
    | some rest =>
      rw [Text.after?_eq_some_iff.1 hrest, List.append_assoc, Text.after?_append, Option.map_some,
        Text.trim_append_right_of_blank hblank, Option.map_some]
    | none =>
      cases hlong : Text.after? k (t ++ ['\r']) with
      | none => rfl
      | some rest =>
        have heq := Text.after?_eq_some_iff.1 hlong
        rcases List.eq_nil_or_concat rest with rfl | ⟨init, last, rfl⟩
        · -- the keyword would end in the carriage return
          rw [List.append_nil] at heq
          exact absurd (heq ▸ List.mem_append_right _ List.mem_cons_self) (hs.line k hk)
        · rw [List.concat_eq_append, ← List.append_assoc] at heq
          obtain ⟨ht, -⟩ := List.append_inj' heq rfl
          rw [ht, Text.after?_append] at hrest
          cases hrest
  rw [step?, step?, ← List.head?_filterMap, ← List.head?_filterMap]
  exact congrArg List.head? (List.filterMap_congr hkeyword)

/-- A carriage return at the end of a line does not change its kind. -/
theorem kindOf_dropReturn (hs : d.Separate) (t : Text) :
    d.vocabulary.kindOf (Text.dropReturn t) = d.vocabulary.kindOf t := by
  unfold Text.dropReturn
  split
  · next hlast =>
    obtain ⟨init, rfl⟩ := List.getLast?_eq_some_iff.1 hlast
    have hblank : ∀ c ∈ ['\r'], Text.isBlank c := List.forall_mem_singleton.2 rfl
    rw [List.dropLast_concat]
    refine kindOf_congr (Text.trim_append_right_of_blank hblank init).symm ?_
    rw [Text.trimStart, Text.trimStart, List.dropWhile_append]
    split
    · next hempty => rw [List.isEmpty_iff.1 hempty]; rfl
    · exact (step?_append_return hs _).symm
  · rfl

/-! ### Written lines -/

variable (hd : d.Sound) (hs : d.Separate)

include hd hs

/-- No written line is a header. -/
theorem header?_written (hk : keyword ∈ d.stepKeywords) (text : Text) :
    d.vocabulary.header? (Text.trim (keyword.trim ++ ' ' :: text)) = none := by
  cases hheader : d.vocabulary.header? (Text.trim (keyword.trim ++ ' ' :: text)) with
  | none => rfl
  | some k =>
    obtain ⟨block, h, rest, hmem, htrim, -⟩ := header?_eq_some hheader
    obtain ⟨hnot, hnot'⟩ := hs.header _ hk _ (Dialect.mem_vocabulary_headers.1 hmem)
    have hprefix : h ++ [':'] <+: keyword.trim ++ ' ' :: text := by
      have hline := Text.trimEnd_prefix (Text.trimStart (keyword.trim ++ ' ' :: text))
      rw [← Text.trim, (hd.step _ hk).trimStart_append_trim, htrim] at hline
      refine List.IsPrefix.trans ⟨rest, ?_⟩ hline
      rw [List.append_assoc, List.singleton_append]
    have hspace : keyword.trim ++ [' '] <+: keyword.trim ++ ' ' :: text :=
      ⟨text, by rw [List.append_assoc, List.singleton_append]⟩
    rcases List.prefix_or_prefix_of_prefix hspace hprefix with h | h
    · exact absurd h hnot
    · exact absurd h hnot'

theorem kindOf_written (hk : keyword ∈ d.stepKeywords) {k : LineKind}
    (h : d.vocabulary.step? (keyword.trim ++ ' ' :: text) = some k) :
    d.vocabulary.kindOf (keyword.trim ++ ' ' :: text) = k := by
  obtain ⟨c, cs, hcons, hblank, hnot⟩ := (hd.step _ hk).exists_trim_cons
  obtain ⟨ds, hds⟩ := Text.trim_cons_of_not hblank (cs ++ ' ' :: text)
  rw [← List.cons_append, ← hcons] at hds
  rw [kindOf_of_cons hds (by rintro rfl; simp at hnot) (by rintro rfl; simp at hnot),
    header?_written hd hs hk, (hd.step _ hk).trimStart_append_trim, h]
  rfl

/-- A written line is the step that it was written for just when its keyword is there with all its
blanks, and no keyword that the line begins with goes on after the space. -/
theorem isStep_written_iff (hk : keyword ∈ d.stepKeywords) (htext : text.trim = text) :
    d.vocabulary.IsStep (keyword.trim ++ ' ' :: text) keyword.trim text ↔
      keyword <+: keyword.trim ++ [' '] ∧ ∀ k ∈ d.stepKeywords,
        k <+: keyword.trim ++ ' ' :: text → k <+: keyword.trim ++ [' '] := by
  have hspace : keyword.trim ++ [' '] <+: keyword.trim ++ ' ' :: text :=
    ⟨text, by rw [List.append_assoc, List.singleton_append]⟩
  have hself := (hd.step _ hk).trimStart_append_trim (' ' :: text)
  constructor
  · rintro ⟨k, hkind, htrim⟩
    obtain ⟨k, rest, hmem, hline, hkind, hlongest⟩ :=
      step?_longest (hself ▸ step?_of_kindOf hkind)
    obtain ⟨rfl, -⟩ := LineKind.step.inj hkind
    obtain rfl := List.inj_on_of_nodup_map hs.trim hmem hk htrim
    have hall : k <+: k.trim ++ [' '] := by
      obtain ⟨blanks, hblanks, heq⟩ := (hd.step _ hk).exists_trim_append
      have hprefix : k.trim ++ blanks <+: k.trim ++ ' ' :: text := heq ▸ ⟨rest, hline.symm⟩
      have hone := Text.prefix_space_of_blank hblanks htext
        ((List.prefix_append_right_inj _).1 hprefix)
      calc k = k.trim ++ blanks := heq
        _ <+: k.trim ++ [' '] := (List.prefix_append_right_inj _).2 hone
    refine ⟨hall, fun k' hk' hprefix => ?_⟩
    exact List.prefix_of_prefix_length_le hprefix hspace
      (Nat.le_trans (hlongest k' hk' hprefix) hall.length_le)
  · rintro ⟨hall, hbeyond⟩
    obtain ⟨kind, hstep⟩ := Option.isSome_iff_exists.1
      (isSome_step?_iff.2 ⟨keyword, hk, hall.trans hspace⟩)
    obtain ⟨k, rest, hmem, hline, rfl, hlongest⟩ := step?_longest hstep
    have hlength : keyword.trim.length ≤ k.length :=
      Nat.le_trans (Text.trim_sublist keyword).length_le (hlongest keyword hk (hall.trans hspace))
    -- the longest keyword is the one without blanks and at most the space
    have hprefix : k <+: keyword.trim ++ [' '] := hbeyond k hmem ⟨rest, hline.symm⟩
    obtain ⟨blanks, rfl⟩ :=
      List.prefix_of_prefix_length_le (List.prefix_append _ _) hprefix hlength
    have hblanks : ∀ c ∈ blanks, Text.isBlank c := by
      intro c hc
      have hmem := ((List.prefix_append_right_inj _).1 hprefix).subset hc
      rw [List.mem_singleton.1 hmem]
      rfl
    have hrest : ' ' :: text = blanks ++ rest := by
      rw [List.append_assoc] at hline
      exact List.append_cancel_left hline
    refine ⟨keyword.trim ++ blanks, ?_, ?_⟩
    · have hone : ∀ c ∈ [' '], Text.isBlank c := List.forall_mem_singleton.2 rfl
      have htrim : rest.trim = text := by
        rw [← Text.trim_append_of_blank hblanks, ← hrest, ← List.singleton_append,
          Text.trim_append_of_blank hone, htext]
      rw [kindOf_written hd hs hk hstep, htrim]
    · rw [Text.trim_append_right_of_blank hblanks, Text.trim_trim]

end Vocabulary

end Gherkin
