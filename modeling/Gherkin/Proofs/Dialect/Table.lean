import Mathlib.Data.List.Forall2
import Gherkin.Line.Classify
import Gherkin.Snippet

/-! What holds of the keywords of every dialect. No keyword can be taken for the beginning of another
kind of line, header keywords hold no colon, and a header keyword belongs to one block only. All of
it is read off the table by evaluation, one dialect at a time. -/

namespace Gherkin

/-- A keyword starts with a character that starts no other kind of line, and fits on one line. -/
structure Text.IsKeyword (t : Text) : Prop where
  head : ∃ c ∈ t.head?, Text.isBlank c = false ∧ c ∉ ['#', '@', '"', '|']
  line : '\n' ∉ t

namespace Dialect

/-- What holds of the keywords of a dialect. -/
structure Sound (d : Dialect) : Prop where
  header : ∀ h ∈ d.headerKeywords, h.2.IsKeyword ∧ ':' ∉ h.2 ∧ h.2.trimEnd = h.2
  step : ∀ k ∈ d.stepKeywords, k.IsKeyword
  /-- No keyword introduces two blocks. -/
  block : ∀ h ∈ d.headerKeywords, ∀ h' ∈ d.headerKeywords, h.2 = h'.2 → h.1 = h'.1
  /-- Every block has a keyword. -/
  default : d.feature ≠ [] ∧ d.background ≠ [] ∧ d.scenario ≠ [] ∧ d.outline ≠ [] ∧ d.examples ≠ []
  /-- The given keyword makes a step of a line. -/
  given : '\n' ∉ d.givenKeyword ∧ ':' ∉ d.givenKeyword ∧
    ∃ k ∈ d.stepKeywords, k <+: d.givenKeyword ++ [' ', 'f']

instance (t : Text) : Decidable t.IsKeyword :=
  decidable_of_iff
    ((t.head?.any fun c => !Text.isBlank c && !(['#', '@', '"', '|'].contains c)) ∧ '\n' ∉ t)
    ⟨fun h => ⟨by simpa [Option.any_eq_true, and_assoc] using h.1, h.2⟩,
      fun h => ⟨by simpa [Option.any_eq_true, and_assoc] using h.head, h.line⟩⟩

instance (d : Dialect) : Decidable d.Sound :=
  decidable_of_iff
    ((∀ h ∈ d.headerKeywords, h.2.IsKeyword ∧ ':' ∉ h.2 ∧ h.2.trimEnd = h.2) ∧
      (∀ k ∈ d.stepKeywords, k.IsKeyword) ∧
      (∀ h ∈ d.headerKeywords, ∀ h' ∈ d.headerKeywords, h.2 = h'.2 → h.1 = h'.1) ∧
      (d.feature ≠ [] ∧ d.background ≠ [] ∧ d.scenario ≠ [] ∧ d.outline ≠ [] ∧ d.examples ≠ []) ∧
      '\n' ∉ d.givenKeyword ∧ ':' ∉ d.givenKeyword ∧
      ∃ k ∈ d.stepKeywords, k <+: d.givenKeyword ++ [' ', 'f'])
    ⟨fun h => ⟨h.1, h.2.1, h.2.2.1, h.2.2.2.1, h.2.2.2.2⟩,
      fun h => ⟨h.header, h.step, h.block, h.default, h.given⟩⟩

/-! ### The table -/

/-- The texts of words. -/
def Spells (words : List String) (texts : List Text) : Prop :=
  List.Forall₂ (fun word text => String.ofList text = word) words texts

theorem Spells.map_toList {words : List String} {texts : List Text} (h : Spells words texts) :
    words.map String.toList = texts := by
  induction h with
  | nil => rfl
  | cons hword _ ih => rw [List.map_cons, ih, ← hword, String.toList_ofList]

/-- What depends on the keywords of a dialect only may be shown with the texts of its words. -/
theorem of_spells {P : Dialect → Prop} (hP : ∀ d name native, P d → P { d with name, native })
    {name native : String}
    {feature background scenario outline examples givens whens thens ands buts : List String}
    {f b s o e g w t a u : List Text} (hf : Spells feature f) (hb : Spells background b)
    (hs : Spells scenario s) (ho : Spells outline o) (he : Spells examples e)
    (hg : Spells givens g) (hw : Spells whens w) (ht : Spells thens t) (ha : Spells ands a)
    (hu : Spells buts u) (h : P ⟨[], [], f, b, s, o, e, g, w, t, a, u⟩) :
    P (ofWords name native feature background scenario outline examples givens whens thens ands
      buts) := by
  rw [ofWords, hf.map_toList, hb.map_toList, hs.map_toList, ho.map_toList, he.map_toList,
    hg.map_toList, hw.map_toList, ht.map_toList, ha.map_toList, hu.map_toList]
  exact hP _ name.toList native.toList h

-- The texts are unified with the literals first, as decoding the words in the evaluation is slow.
theorem sound_table : ∀ e ∈ table, e.2.Sound := by
  unfold table
  repeat' refine List.forall_mem_cons.2 ⟨?_, ?_⟩
  case' refine_2 => exact List.forall_mem_nil _
  all_goals
    apply of_spells (P := Sound) fun d _ _ h => ⟨h.header, h.step, h.block, h.default, h.given⟩
    iterate 10
      · repeat constructor
    decide +kernel

theorem code_table : ∀ e ∈ table, e.1 ≠ [] ∧ ∀ c ∈ e.1, isCodeChar c := by
  have hall : ∀ e ∈ table, e.1 ≠ [] ∧ e.1.all isCodeChar := by decide +kernel
  exact fun e he => ⟨(hall e he).1, List.all_eq_true.1 (hall e he).2⟩

variable {code : Text} {d : Dialect}

theorem mem_table_of_get? (h : get? code = some d) : (code, d) ∈ table := by
  obtain ⟨before, after, htable, -⟩ := List.lookup_eq_some_iff.1 h
  rw [htable]
  exact List.mem_append_right _ List.mem_cons_self

theorem sound_of_get? (h : get? code = some d) : d.Sound := sound_table _ (mem_table_of_get? h)

/-! ### Default keywords -/

theorem headD_mem {α : Type} {xs : List α} (h : xs ≠ []) (a : α) : xs.headD a ∈ xs := by
  cases xs with
  | nil => exact absurd rfl h
  | cons x xs => exact List.mem_cons_self

theorem mem_headerKeywords {block : Block} {keyword : Text} :
    (block, keyword) ∈ d.headerKeywords ↔ keyword ∈ match block with
      | .feature => d.feature
      | .background => d.background
      | .scenario => d.scenario
      | .outline => d.outline
      | .examples => d.examples := by
  cases block <;> simp [headerKeywords]

/-- The keyword that a block without one is given. -/
def defaultKeyword (d : Dialect) : Block → Text
  | .feature => d.featureKeyword
  | .background => d.backgroundKeyword
  | .scenario => d.scenarioKeyword
  | .outline => d.outlineKeyword
  | .examples => d.examplesKeyword

theorem scenarioKeyword_mem (h : d.scenario ≠ []) : d.scenarioKeyword ∈ d.scenario := by
  unfold scenarioKeyword
  split
  · next first second rest hs =>
    rw [hs]
    split
    · exact List.mem_cons_of_mem _ List.mem_cons_self
    · exact List.mem_cons_self
  · exact headD_mem h _

/-- The keyword of a block is one of its keywords. -/
theorem Sound.defaultKeyword_mem (h : d.Sound) (block : Block) :
    (block, d.defaultKeyword block) ∈ d.headerKeywords := by
  obtain ⟨hf, hb, hs, ho, he⟩ := h.default
  rw [mem_headerKeywords]
  cases block with
  | feature => exact headD_mem hf _
  | background => exact headD_mem hb _
  | scenario => exact scenarioKeyword_mem hs
  | outline => exact headD_mem ho _
  | examples => exact headD_mem he _

end Dialect

end Gherkin
