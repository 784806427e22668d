import Gherkin.Proofs.Line.Kinds

/-! Fences by their marks. No keyword of a dialect begins as a mark does, so in every dialect just the
lines that begin with a mark are fences. -/

open Gherkin.Document Gherkin.Document.Parser

namespace Gherkin

namespace Dialect

/-- No keyword begins with the sign of a fence. -/
structure Unfenced (d : Dialect) : Prop where
  header : ∀ h ∈ d.headerKeywords, h.2.head? ∉ [some '"', some '`']
  step : ∀ k ∈ d.stepKeywords, k.head? ∉ [some '"', some '`']

instance (d : Dialect) : Decidable d.Unfenced :=
  decidable_of_iff
    ((∀ h ∈ d.headerKeywords, h.2.head? ∉ [some '"', some '`']) ∧
      ∀ k ∈ d.stepKeywords, k.head? ∉ [some '"', some '`'])
    ⟨fun h => ⟨h.1, h.2⟩, fun h => ⟨h.header, h.step⟩⟩

theorem unfenced_table : ∀ e ∈ table, e.2.Unfenced := by
  unfold table
  repeat' refine List.forall_mem_cons.2 ⟨?_, ?_⟩
  case' refine_2 => exact List.forall_mem_nil _
  all_goals
    apply of_spells (P := Unfenced) fun _ _ _ h => ⟨h.header, h.step⟩
    iterate 10
      · repeat constructor
    decide +kernel

theorem unfenced_of_get? {code : Text} {d : Dialect} (h : get? code = some d) : d.Unfenced :=
  unfenced_table _ (mem_table_of_get? h)

end Dialect

variable {code : Text} {d : Dialect} {fence : Fence}

theorem Fence.exists_mark (fence : Fence) :
    ∃ c cs, fence.mark = c :: cs ∧ some c ∈ [some '"', some '`'] := by
  cases fence
  · exact ⟨'"', ['"', '"'], rfl, by simp⟩
  · exact ⟨'`', ['`', '`'], rfl, by simp⟩

/-- A line begins with one mark at most. -/
theorem Fence.eq_of_prefix {f g : Fence} {t : Text} (hf : f.mark <+: t) (hg : g.mark <+: t) :
    f = g := by
  have hlength : f.mark.length = g.mark.length := by cases f <;> cases g <;> rfl
  have hmark := (List.prefix_of_prefix_length_le hf hg hlength.le).eq_of_length hlength
  cases f <;> cases g <;> first | rfl | exact absurd hmark (by decide)

theorem fence?_of_prefix {t : Text} (h : fence.mark <+: t) :
    ∃ contentType, fence? t = some (.fence fence contentType) := by
  have hsome : ∃ k, fence? t = some k := by
    rw [← Option.isSome_iff_exists, fence?, List.findSome?_isSome_iff]
    obtain ⟨rest, hrest⟩ := h
    exact ⟨fence, by cases fence <;> simp, by rw [Text.after?_eq_some_iff.2 hrest.symm]; rfl⟩
  obtain ⟨k, hk⟩ := hsome
  obtain ⟨f, rest, rfl, rfl⟩ := fence?_eq_some hk
  obtain rfl := Fence.eq_of_prefix h (List.prefix_append f.mark rest)
  exact ⟨_, hk⟩

namespace Vocabulary

/-- A line is a fence in a dialect just if it begins with the mark. -/
theorem isFence_kindOf_iff (hcode : Dialect.get? code = some d) (fence : Fence) (t : Text) :
    isFence fence (d.vocabulary.kindOf t) ↔ fence.mark <+: t.trim := by
  have hd := Dialect.unfenced_of_get? hcode
  constructor
  · intro h
    have hfits := d.vocabulary.fits_kindOf t
    cases hk : d.vocabulary.kindOf t with
    | fence f contentType =>
      rw [hk] at h hfits
      obtain rfl : f = fence := of_decide_eq_true h
      obtain ⟨rest, htrim, -⟩ := hfits
      exact ⟨rest, htrim.symm⟩
    | _ => simp [hk, isFence] at h
  · intro h
    obtain ⟨contentType, hfence⟩ := fence?_of_prefix h
    obtain ⟨c, cs, hmark, hc⟩ := fence.exists_mark
    obtain ⟨rest, htrim⟩ := h
    rw [hmark, List.cons_append] at htrim
    obtain ⟨us, hus⟩ := Text.trimEnd_prefix t.trimStart
    have hstart : t.trimStart = c :: (cs ++ rest ++ us) := by
      rw [← hus, ← Text.trim, ← htrim, List.cons_append]
    have hheader : d.vocabulary.header? t.trim = none := by
      rw [Option.eq_none_iff_forall_ne_some]
      intro k hk
      obtain ⟨block, keyword, more, hmem, heq, -⟩ := header?_eq_some hk
      rw [Dialect.mem_vocabulary_headers] at hmem
      obtain ⟨b, bs, rfl, -⟩ := ((Dialect.sound_of_get? hcode).header _ hmem).1.exists_cons
      obtain ⟨rfl, -⟩ := List.cons.inj (htrim.trans heq)
      exact hd.header _ hmem hc
    have hstep : d.vocabulary.step? t.trimStart = none := by
      rw [Option.eq_none_iff_forall_ne_some]
      intro k hk
      obtain ⟨keyword, more, hmem, heq, -⟩ := step?_eq_some hk
      obtain ⟨b, bs, rfl, -⟩ := ((Dialect.sound_of_get? hcode).step _ hmem).exists_cons
      obtain ⟨rfl, -⟩ := List.cons.inj (hstart.symm.trans heq)
      exact hd.step _ hmem hc
    rw [kindOf_of_cons htrim.symm (by rintro rfl; simp at hc) (by rintro rfl; simp at hc), hheader,
      hstep, hfence]
    exact decide_eq_true rfl

end Vocabulary

end Gherkin
