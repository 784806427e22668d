import Gherkin.Proofs.Document.Grammar
import Gherkin.Proofs.Line.Classify

/-! Which texts are documents. The language header decides the dialect in which a text is read; the
text is a document when the dialect is known and its lines, every other language line taken for a
comment, form a sentence of the grammar. -/

namespace Gherkin.Document

/-! ### The language header -/

/-- The lines have a language header: it comes after nothing but blank lines and comments. -/
def Declares (ls : List Line) (number : ℕ) (code : Text) : Prop :=
  ∃ before l after, ls = before ++ l :: after ∧
    (∀ x ∈ before, x.kind = .blank ∨ x.kind = .comment) ∧ l.number = number ∧
    l.kind = .language code

theorem openingLanguage?_eq_some_iff {ls : List Line} {number : ℕ} {code : Text} :
    openingLanguage? ls = some (number, code) ↔ Declares ls number code := by
  constructor
  · intro h
    fun_induction openingLanguage? ls with
    | case1 => cases h
    | case2 l ls hl ih =>
      obtain ⟨before, m, after, rfl, hbefore, hm⟩ := ih h
      exact ⟨l :: before, m, after, rfl, List.forall_mem_cons.2 ⟨.inl hl, hbefore⟩, hm⟩
    | case3 l ls hl ih =>
      obtain ⟨before, m, after, rfl, hbefore, hm⟩ := ih h
      exact ⟨l :: before, m, after, rfl, List.forall_mem_cons.2 ⟨.inr hl, hbefore⟩, hm⟩
    | case4 l ls c hl =>
      obtain ⟨rfl, rfl⟩ := Prod.mk.inj (Option.some.inj h)
      exact ⟨[], l, ls, rfl, by simp, rfl, hl⟩
    | case5 => cases h
  · rintro ⟨before, l, after, rfl, hbefore, rfl, hl⟩
    induction before with
    | nil => simp [openingLanguage?, hl]
    | cons x before ih =>
      obtain ⟨hx, hbefore⟩ := List.forall_mem_cons.1 hbefore
      rw [List.cons_append, openingLanguage?]
      rcases hx with hx | hx <;> rw [hx] <;> exact ih hbefore

theorem openingLanguage?_eq_none_iff {ls : List Line} :
    openingLanguage? ls = none ↔ ∀ number code, ¬Declares ls number code := by
  rw [Option.eq_none_iff_forall_ne_some]
  constructor
  · intro h number code hd
    exact h _ (openingLanguage?_eq_some_iff.2 hd)
  · rintro h ⟨number, code⟩ hd
    exact h _ _ (openingLanguage?_eq_some_iff.1 hd)

/-- The dialect in which a text is read, with the number of its language header. -/
inductive ReadIn (fallback : Dialect) (source : Text) : Dialect → Option ℕ → Prop
  | undeclared (h : ∀ number code, ¬Declares (fallback.vocabulary.classify source) number code) :
    ReadIn fallback source fallback none
  | declared {number code d} (h : Declares (fallback.vocabulary.classify source) number code)
    (hd : Dialect.get? code = some d) : ReadIn fallback source d (some number)

/-! ### Lines of a text -/

theorem demote_of_ne {header : Option ℕ} {l : Line} (h : ∀ code, l.kind ≠ .language code) :
    demote header l = l := by
  unfold demote
  split
  · next code hk => exact absurd hk (h code)
  · rfl

theorem raw_demote (header : Option ℕ) (l : Line) : (demote header l).raw = l.raw := by
  unfold demote
  split
  · split <;> rfl
  · rfl

theorem kind_demote_eq_blank {header : Option ℕ} {l : Line} (h : (demote header l).kind = .blank) :
    l.kind = .blank := by
  unfold demote at h
  split at h
  · split at h
    · exact h
    · cases h
  · exact h

theorem number_demote (header : Option ℕ) (l : Line) : (demote header l).number = l.number := by
  unfold demote
  split
  · split <;> rfl
  · rfl

/-- Lines are counted from one, and none is left out. -/
theorem map_number_linesIn (d : Dialect) (header : Option ℕ) (source : Text) :
    (linesIn d header source).map Line.number = List.range' 1 source.lines.length := by
  rw [linesIn, Vocabulary.classify, List.map_map, List.range'_eq_map_range]
  refine List.ext_getElem (by simp) fun i hi _ => ?_
  simp [number_demote, Nat.add_comm]

/-- Later lines have greater numbers. -/
theorem pairwise_linesIn (d : Dialect) (header : Option ℕ) (source : Text) :
    (linesIn d header source).Pairwise (·.number < ·.number) := by
  rw [← List.pairwise_map, map_number_linesIn]
  exact List.pairwise_lt_range' 1

/-- Blank lines have nothing to show in a description. -/
theorem tidy_linesIn (d : Dialect) (header : Option ℕ) (source : Text) :
    Tidy (linesIn d header source) := by
  intro l hl hblank
  obtain ⟨m, hm, rfl⟩ := List.mem_map.1 hl
  rw [raw_demote]
  have hkind := kind_demote_eq_blank hblank
  obtain ⟨i, hi, rfl⟩ := List.mem_mapIdx.1 hm
  rw [Text.trimEnd_eq_nil_iff, ← Text.trim_eq_nil_iff]
  exact Vocabulary.kindOf_eq_blank_iff.1 hkind

/-- A text is a document in a dialect when its lines form a sentence. -/
theorem exists_document_iff (language : Text) (d : Dialect) (header : Option ℕ) (source : Text) :
    (∃ doc, Parser.document language (linesIn d header source) = .ok doc) ↔
      linesIn d header source ∈ Grammar.document := by
  rw [Grammar.mem_document_iff language]
  constructor
  · rintro ⟨doc, h⟩
    exact ⟨doc, reading_of_document h⟩
  · rintro ⟨doc, h⟩
    exact ⟨doc, document_of_reading h (tidy_linesIn d header source)⟩

/-- Just these texts are read: no language header names an unsupported language, and the lines are a
sentence of the grammar. -/
theorem exists_parse_iff {code source : Text} {fallback : Dialect}
    (h : Dialect.get? code = some fallback) :
    (∃ doc, parse code source = .ok doc) ↔
      (∀ number declared, Declares (fallback.vocabulary.classify source) number declared →
        (Dialect.get? declared).isSome) ∧
      ∃ d header, ReadIn fallback source d header ∧ linesIn d header source ∈ Grammar.document := by
  cases hopen : openingLanguage? (fallback.vocabulary.classify source) with
  | none =>
    have hnone := openingLanguage?_eq_none_iff.1 hopen
    have hparse : parse code source = Parser.document code (linesIn fallback none source) := by
      simp only [parse, h, hopen]
    rw [hparse, exists_document_iff]
    constructor
    · intro hmem
      exact ⟨fun n c hd => absurd hd (hnone n c), fallback, none, .undeclared hnone, hmem⟩
    · rintro ⟨-, d, header, hread, hmem⟩
      cases hread with
      | undeclared => exact hmem
      | declared hd => exact absurd hd (hnone _ _)
  | some opening =>
    obtain ⟨number, declared⟩ := opening
    have hsome := openingLanguage?_eq_some_iff.1 hopen
    have hunique : ∀ {n c}, Declares (fallback.vocabulary.classify source) n c →
        n = number ∧ c = declared := by
      intro n c hd
      rw [← openingLanguage?_eq_some_iff, hopen] at hd
      obtain ⟨rfl, rfl⟩ := Prod.mk.inj (Option.some.inj hd)
      exact ⟨rfl, rfl⟩
    cases hget : Dialect.get? declared with
    | none =>
      have hparse : parse code source = .error ⟨number, .unsupported declared⟩ := by
        simp only [parse, h, hopen, hget]
      constructor
      · rintro ⟨doc, hdoc⟩
        rw [hparse] at hdoc
        cases hdoc
      · rintro ⟨hsupported, -⟩
        have := hsupported number declared hsome
        rw [hget] at this
        cases this
    | some d =>
      have hparse : parse code source =
          Parser.document declared (linesIn d (some number) source) := by
        simp only [parse, h, hopen, hget]
      rw [hparse, exists_document_iff]
      constructor
      · intro hmem
        refine ⟨fun n c hd => ?_, d, some number, .declared hsome hget, hmem⟩
        obtain ⟨-, rfl⟩ := hunique hd
        rw [hget]
        rfl
      · rintro ⟨-, e, header, hread, hmem⟩
        cases hread with
        | undeclared hnone => exact absurd hsome (hnone _ _)
        | declared hd he =>
          obtain ⟨rfl, rfl⟩ := hunique hd
          obtain rfl := Option.some.inj (hget.symm.trans he)
          exact hmem

/-- A text is refused for the language it declares, or its lines are read in one dialect; and so is
any text that opens in the same way. -/
theorem parse_cases {code : Text} {fallback : Dialect} (h : Dialect.get? code = some fallback)
    (source : Text) :
    (∃ number declared, Declares (fallback.vocabulary.classify source) number declared ∧
      Dialect.get? declared = none ∧
      ∀ text, openingLanguage? (fallback.vocabulary.classify text) =
          openingLanguage? (fallback.vocabulary.classify source) →
        parse code text = .error ⟨number, .unsupported declared⟩) ∨
    ∃ language d header, ReadIn fallback source d header ∧ Dialect.get? language = some d ∧
      ∀ text, openingLanguage? (fallback.vocabulary.classify text) =
          openingLanguage? (fallback.vocabulary.classify source) →
        parse code text = Parser.document language (linesIn d header text) := by
  cases hopen : openingLanguage? (fallback.vocabulary.classify source) with
  | none =>
    refine .inr ⟨code, fallback, none, .undeclared (openingLanguage?_eq_none_iff.1 hopen), h, ?_⟩
    intro text htext
    simp only [parse, h, htext]
  | some opening =>
    obtain ⟨number, declared⟩ := opening
    have hdeclares := openingLanguage?_eq_some_iff.1 hopen
    cases hget : Dialect.get? declared with
    | none =>
      refine .inl ⟨number, declared, hdeclares, hget, fun text htext => ?_⟩
      simp only [parse, h, htext, hget]
    | some d =>
      refine .inr ⟨declared, d, some number, .declared hdeclares hget, hget, fun text htext => ?_⟩
      simp only [parse, h, htext, hget]

/-- What a text is read as is what its lines hold. -/
theorem reading_of_parse {code source : Text} {doc : Document} (h : parse code source = .ok doc) :
    ∃ fallback language d header, Dialect.get? code = some fallback ∧
      ReadIn fallback source d header ∧ Dialect.get? language = some d ∧
      Reading language (linesIn d header source) doc := by
  cases hcode : Dialect.get? code with
  | none => simp [parse, hcode] at h
  | some fallback =>
    obtain ⟨number, declared, -, -, hparse⟩ | ⟨language, d, header, hread, hget, hparse⟩ :=
      parse_cases hcode source
    · rw [hparse source rfl] at h
      cases h
    · rw [hparse source rfl] at h
      exact ⟨fallback, language, d, header, rfl, hread, hget, reading_of_document h⟩

/-- A tagged feature with a background, read in the default dialect. -/
theorem exists_parse_tagged :
    let source := "@a\nFeature: b\nBackground:\nGiven c".toList
    ∃ d header, ReadIn Dialect.english source d header ∧
      linesIn d header source ∈ Grammar.document := by
  intro source
  have hget : Dialect.get? Dialect.defaultCode = some Dialect.english := rfl
  have hok : (parse Dialect.defaultCode source).isOk = true := by decide +kernel
  have hread : ∃ doc, parse Dialect.defaultCode source = .ok doc := by
    cases hparse : parse Dialect.defaultCode source with
    | error e => simp [hparse, Except.isOk, Except.toBool] at hok
    | ok doc => exact ⟨doc, rfl⟩
  exact ((exists_parse_iff hget).1 hread).2

end Gherkin.Document
