import Gherkin.Proofs.Document.Account
import Gherkin.Proofs.Layout.Page

/-! The language of a text. Whether a text opens with a language header can be told without any
keyword, so every dialect finds the same header, and a text that has one is read alike whichever
dialect it is tried in first. A text without one is read in the default dialect: each line on its own,
with any language line for a comment. -/

open Gherkin.Document.Parser

namespace Gherkin

/-- A blank line, or a comment that is no language header. -/
def Text.IsIdle (t : Text) : Prop :=
  t.trim = [] ∨ t.trim.head? = some '#' ∧ languageCode? t.trim = none

variable {t source : Text} {v : Vocabulary} {number : ℕ} {code declared : Text}

namespace Vocabulary

theorem kindOf_eq_language_iff : v.kindOf t = .language code ↔ languageCode? t.trim = some code := by
  constructor
  · intro h
    have hfits := v.fits_kindOf t
    rwa [h] at hfits
  · intro h
    obtain ⟨cs, hcs⟩ := exists_of_languageCode? h
    rw [hcs] at h
    simp only [kindOf, hcs, h]

theorem kindOf_idle_iff : v.kindOf t = .blank ∨ v.kindOf t = .comment ↔ t.IsIdle := by
  constructor
  · rintro (h | h)
    · exact .inl (kindOf_eq_blank_iff.1 h)
    · have hfits := v.fits_kindOf t
      rw [h] at hfits
      obtain ⟨⟨cs, hcs⟩, hcode⟩ := hfits
      exact .inr ⟨by rw [hcs]; rfl, hcode⟩
  · rintro (h | ⟨hhash, hcode⟩)
    · exact .inl (kindOf_eq_blank_iff.2 h)
    · obtain ⟨cs, hcs⟩ := List.head?_eq_some_iff.1 hhash
      rw [hcs] at hcode
      exact .inr (by simp only [kindOf, hcs, hcode])

end Vocabulary

namespace Document

/-- Line `number` is a language header for `code`, and only blank lines and comments come before it. -/
def OpensIn (source : Text) (number : ℕ) (code : Text) : Prop :=
  ∃ before line after, source.lines = before ++ line :: after ∧ number = before.length + 1 ∧
    (∀ t ∈ before, t.IsIdle) ∧ languageCode? line.trim = some code

/-- The lines of a text in a vocabulary, where a language line is a comment like any other. -/
def plainLines (v : Vocabulary) (source : Text) : List Line :=
  source.lines.mapIdx fun i t => ⟨i + 1, Text.dropReturn t, v.plainKind (Text.dropReturn t)⟩

/-- The document of a text under a display name, which is told with a refusal. -/
def parseNamed (name code source : Text) : Except ParseError Document :=
  (parse code source).mapError fun e => ⟨e, name⟩

/-! ### The header -/

/-- In every vocabulary a text has the same language header. -/
theorem declares_iff : Declares (v.classify source) number code ↔ OpensIn source number code := by
  have hdrop (t : Text) : (Text.dropReturn t).IsIdle ↔ t.IsIdle := by
    rw [Text.IsIdle, Text.trim_dropReturn, Text.IsIdle]
  rw [Vocabulary.classify_eq]
  constructor
  · rintro ⟨before, l, after, heq, hbefore, rfl, hl⟩
    obtain ⟨first, rest, hlines, rfl, hrest⟩ := List.mapIdx_eq_append_iff.1 heq
    obtain ⟨line, more, rfl, rfl, -⟩ := List.mapIdx_eq_cons_iff.1 hrest
    refine ⟨first, line, more, hlines, by simp, fun t ht => ?_, ?_⟩
    · obtain ⟨i, hi, rfl⟩ := List.mem_iff_getElem.1 ht
      have hidle := hbefore _ (List.mem_mapIdx.2 ⟨i, hi, rfl⟩)
      exact (hdrop _).1 (Vocabulary.kindOf_idle_iff.1 hidle)
    · rw [← Text.trim_dropReturn]
      exact Vocabulary.kindOf_eq_language_iff.1 hl
  · rintro ⟨before, line, after, hlines, rfl, hbefore, hline⟩
    refine ⟨v.linesAt 0 before, _, _, by rw [hlines, Vocabulary.linesAt_append,
      Vocabulary.linesAt_cons], fun l hl => ?_, by simp, ?_⟩
    · obtain ⟨i, hi, rfl⟩ := List.mem_mapIdx.1 hl
      exact Vocabulary.kindOf_idle_iff.2 ((hdrop _).2 (hbefore _ (List.getElem_mem hi)))
    · rw [← Text.trim_dropReturn] at hline
      exact Vocabulary.kindOf_eq_language_iff.2 hline

theorem openingLanguage?_eq_some_iff_opensIn :
    openingLanguage? (v.classify source) = some (number, code) ↔ OpensIn source number code :=
  openingLanguage?_eq_some_iff.trans declares_iff

theorem openingLanguage?_eq_none_iff_opensIn :
    openingLanguage? (v.classify source) = none ↔ ∀ number code, ¬OpensIn source number code := by
  simp only [openingLanguage?_eq_none_iff, declares_iff]

/-- A header decides how a text is read, also when there is no such dialect. -/
theorem parse_of_opensIn {fallback : Dialect} (h : Dialect.get? code = some fallback)
    (hopen : OpensIn source number declared) :
    parse code source = (Dialect.get? declared).elim (.error ⟨number, .unsupported declared⟩)
      fun d => Parser.document declared (linesIn d (some number) source) := by
  have hheader := openingLanguage?_eq_some_iff_opensIn (v := fallback.vocabulary).2 hopen
  simp only [parse, h, hheader]
  cases Dialect.get? declared <;> rfl

/-! ### Language lines that are no header -/

theorem demote_none (v : Vocabulary) (n : ℕ) (t : Text) :
    demote none ⟨n, t, v.kindOf t⟩ = ⟨n, t, v.plainKind t⟩ := by
  unfold demote Vocabulary.plainKind
  cases v.kindOf t <;> rfl

theorem linesIn_none (d : Dialect) (source : Text) :
    linesIn d none source = plainLines d.vocabulary source := by
  rw [linesIn, Vocabulary.classify, plainLines]
  refine List.ext_getElem (by simp) fun i _ _ => ?_
  simp only [List.getElem_map, List.getElem_mapIdx, demote_none]

theorem parse_of_not_opensIn {fallback : Dialect} (h : Dialect.get? code = some fallback)
    (hopen : ∀ number declared, ¬OpensIn source number declared) :
    parse code source = Parser.document code (plainLines fallback.vocabulary source) := by
  have hheader := openingLanguage?_eq_none_iff_opensIn (v := fallback.vocabulary).2 hopen
  simp only [parse, h, hheader, linesIn_none]

/-! ### What is read -/

/-- A feature is in the language that its document was read in. -/
theorem language_of_document {language : Text} {ls : List Line} {doc : Document} {f : Feature}
    (h : Parser.document language ls = .ok doc) (hf : doc.feature = some f) :
    f.language = language := by
  cases reading_of_document h with
  | empty => cases hf
  | feature hread =>
    obtain rfl := Option.some.inj hf
    exact hread.language_eq

/-- The comment lines outside of doc strings are the comments of a document. -/
theorem comments_of_document {language : Text} {d : Dialect} {header : Option ℕ} {doc : Document}
    (h : Parser.document language (linesIn d header source) = .ok doc) :
    doc.comments =
      commentsOf (outside (linesIn d header source) (doc.events.filterMap Event.opening?)) := by
  obtain ⟨out, hledger⟩ := accounts_document (reading_of_document h)
  rw [hledger.comments, hledger.kept.eq_outside (pairwise_linesIn d header source)]

/-- A text with a language header is read or refused in the same way in whichever dialect it is
tried, and its feature is in the language of the header. A text without one is in the language it is
tried in: its language lines are classified as comments, and each is one of the comments of the
document unless a doc string holds it. -/
theorem parse_language {code' : Text} {d d' : Dialect} (h : Dialect.get? code = some d)
    (h' : Dialect.get? code' = some d') (name source : Text) :
    (∀ number declared, OpensIn source number declared →
      parseNamed name code source = parseNamed name code' source ∧
        ∀ doc f, parse code source = .ok doc → doc.feature = some f → f.language = declared) ∧
    ((∀ number declared, ¬OpensIn source number declared) →
      parse code source = Parser.document code (plainLines d.vocabulary source) ∧
        ∀ doc, parse code source = .ok doc →
          (∀ f, doc.feature = some f → f.language = code) ∧
          doc.comments = commentsOf
            (outside (plainLines d.vocabulary source) (doc.events.filterMap Event.opening?))) := by
  constructor
  · intro number declared hopen
    have hparse := parse_of_opensIn h hopen
    refine ⟨?_, fun doc f hdoc hf => ?_⟩
    · rw [parseNamed, parseNamed, hparse, parse_of_opensIn h' hopen]
    · rw [hparse] at hdoc
      cases hd : Dialect.get? declared with
      | none =>
        rw [hd] at hdoc
        cases hdoc
      | some e =>
        rw [hd] at hdoc
        exact language_of_document hdoc hf
  · intro hopen
    have hparse := parse_of_not_opensIn h hopen
    refine ⟨hparse, fun doc hdoc => ?_⟩
    rw [hparse] at hdoc
    refine ⟨fun f hf => language_of_document hdoc hf, ?_⟩
    rw [← linesIn_none] at hdoc ⊢
    exact comments_of_document hdoc

/-- A header between a comment and the feature, and a language line after a feature. -/
theorem parse_language_french :
    let headed := "# a\n #language:fr\nFonctionnalité: b".toList
    let plain := "Feature: b\n# language: fr".toList
    let english := Dialect.english.vocabulary
    (Dialect.get? "de".toList).isSome ∧
      (OpensIn headed 2 "fr".toList ∧
        parseNamed ['f'] Dialect.defaultCode headed = parseNamed ['f'] "de".toList headed ∧
        ∃ doc f, parse Dialect.defaultCode headed = .ok doc ∧ doc.feature = some f ∧
          f.language = "fr".toList) ∧
      (∀ number declared, ¬OpensIn plain number declared) ∧
        parse Dialect.defaultCode plain =
          Parser.document Dialect.defaultCode (plainLines english plain) ∧
        ∃ doc f, parse Dialect.defaultCode plain = .ok doc ∧ doc.feature = some f ∧
          f.language = Dialect.defaultCode ∧
          doc.comments = commentsOf
            (outside (plainLines english plain) (doc.events.filterMap Event.opening?)) := by
  intro headed plain english
  have hsome : (Dialect.get? "de".toList).isSome := by decide +kernel
  obtain ⟨german, hgerman⟩ := Option.isSome_iff_exists.1 hsome
  have henglish : Dialect.get? Dialect.defaultCode = some Dialect.english := rfl
  have hread (source : Text)
      (h : ((parse Dialect.defaultCode source).toOption.bind (·.feature)).isSome = true) :
      ∃ doc f, parse Dialect.defaultCode source = .ok doc ∧ doc.feature = some f := by
    obtain ⟨f, hf⟩ := Option.isSome_iff_exists.1 h
    obtain ⟨doc, hdoc, hf⟩ := Option.bind_eq_some_iff.1 hf
    cases hparse : parse Dialect.defaultCode source with
    | error e => simp [hparse, Except.toOption] at hdoc
    | ok doc' =>
      rw [hparse] at hdoc
      obtain rfl := Option.some.inj hdoc
      exact ⟨doc', f, rfl, hf⟩
  have hopen : OpensIn headed 2 "fr".toList := by
    rw [← openingLanguage?_eq_some_iff_opensIn (v := english)]
    decide +kernel
  have hclosed : ∀ number declared, ¬OpensIn plain number declared := by
    rw [← openingLanguage?_eq_none_iff_opensIn (v := english)]
    decide +kernel
  obtain ⟨hsame, hlanguage⟩ := (parse_language henglish hgerman ['f'] headed).1 _ _ hopen
  obtain ⟨doc, f, hdoc, hf⟩ := hread headed (by decide +kernel)
  obtain ⟨hparse, hdefault⟩ := (parse_language henglish hgerman ['f'] plain).2 hclosed
  obtain ⟨doc', f', hdoc', hf'⟩ := hread plain (by decide +kernel)
  obtain ⟨hcode, hcomments⟩ := hdefault doc' hdoc'
  exact ⟨hsome, ⟨hopen, hsame, doc, f, hdoc, hf, hlanguage doc f hdoc hf⟩, hclosed, hparse, doc', f',
    hdoc', hf', hcode f' hf', hcomments⟩

end Document

end Gherkin
