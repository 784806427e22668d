import Gherkin.Proofs.Document.Descent
import Gherkin.Proofs.Document.Lines
import Gherkin.Proofs.Layout.Page
import Gherkin.Proofs.Line.Kinds

/-! The line that a refusal names. The lines before it can be completed to a document by one more
line, whatever state they lead to; and unless the text just ended too early, no text that starts
with the lines up to it is a document. So a refusal names the first line at which there is no
completion left. -/

open Gherkin.Document.Parser

namespace Gherkin

namespace Document

open State

variable {s t : State} {last : ℕ} {ls : List Line} {e : Failure}

/-! ### Failures of the automaton -/

theorem Fails.not_accepts (h : Fails last s ls e) (ht : s.run ls = some t) : t.accepts = false := by
  induction h with
  | stuck hstep _ => simp [hstep] at ht
  | unclosed hstep _ hopen =>
    rw [run_cons, hstep, Option.bind_some, run_body _ hopen] at ht
    obtain rfl := Option.some.inj ht
    rfl
  | @unfinished s _ hs =>
    obtain rfl := Option.some.inj ht
    cases s <;> simp_all [collects, accepts]
  | later hstep _ ih =>
    rw [run_cons, hstep, Option.bind_some] at ht
    exact ih ht

/-- Lines `before` that the automaton takes, and a line `l` at which it fails. -/
structure Misfit (s : State) (e : Failure) (before : List Line) (l : Line) (t : State) : Prop where
  run : s.run before = some t
  number : e.line = l.number
  /-- The line says something about the structure. -/
  meaning : t.step l ≠ some (.opening false)
  /-- It is not inside a doc string. -/
  plain : ∀ block fence, t ≠ .docString block fence
  stuck : e.cause.isEarlyEnd = false → t.step l = none

theorem Fails.exists_misfit (h : Fails last s ls e) (hne : ls ≠ [])
    (hlast : ∀ l ∈ ls.getLast?, l.number = last) :
    ∃ before l after t, ls = before ++ l :: after ∧ Misfit s e before l t := by
  induction h with
  | @stuck s l rest cause hstep hcause =>
    refine ⟨[], l, rest, s, rfl, rfl, rfl, by simp [hstep], ?_, fun _ => hstep⟩
    rintro block fence rfl
    cases hstep
  | @unclosed s l rest block fence hstep hl hopen =>
    refine ⟨[], l, rest, s, rfl, rfl, rfl, by simp [hstep], ?_, fun hend => by cases hend⟩
    rintro block' fence' rfl
    by_cases hf : isFence fence' l.kind
    · simp [step, hf] at hstep
    · simp only [step, hf] at hstep
      obtain ⟨-, rfl⟩ := State.docString.inj (Option.some.inj hstep)
      exact hf hl
  | unfinished => exact absurd rfl hne
  | @later s t l rest e hstep hrest ih =>
    cases rest with
    | nil =>
      cases hrest with
      | unfinished ht =>
        refine ⟨[], l, [], s, rfl, rfl, (hlast l rfl).symm, ?_, ?_, fun hend => by cases hend⟩
        · rw [hstep]
          rintro heq
          obtain rfl := Option.some.inj heq
          cases ht
        · rintro block fence rfl
          by_cases hf : isFence fence l.kind <;> simp only [step, hf] at hstep <;>
            obtain rfl := Option.some.inj hstep <;> cases ht
    | cons m rest =>
      obtain ⟨before, k, after, u, hsplit, hmisfit⟩ := ih (by simp) (by simpa using hlast)
      refine ⟨l :: before, k, after, u, by rw [hsplit]; rfl, ?_, hmisfit.number, hmisfit.meaning,
        hmisfit.plain, hmisfit.stuck⟩
      rw [run_cons, hstep, Option.bind_some, hmisfit.run]

/-! ### Completions -/

theorem isLine_header {d : Dialect} (hd : d.Sound) (block : Block) :
    (Style.nameLine (d.defaultKeyword block) []).IsLine := by
  have hmem := hd.defaultKeyword_mem block
  obtain ⟨_, -, -, hend⟩ := Vocabulary.nameLine_eq (d.defaultKeyword block) Text.trim_nil
  refine Text.isLine_of_trimEnd ?_ hend
  simpa [Style.nameLine] using (hd.header _ hmem).1.line

theorem run_single {v : Vocabulary} {raw : Text} {k : LineKind} (hline : raw.IsLine)
    (hkind : v.kindOf raw = k) (hk : ∀ code, k ≠ .language code) (header : Option ℕ) (n : ℕ)
    (t : State) : t.run ((v.linesAt n [raw]).map (demote header)) = t.step ⟨n + 1, raw, k⟩ := by
  have hlines : v.linesAt n [raw] = [⟨n + 1, raw, k⟩] := by
    rw [Vocabulary.linesAt_cons, hline.dropReturn, hkind]
    rfl
  rw [hlines, List.map_singleton, demote_of_ne hk, run_cons]
  cases t.step ⟨n + 1, raw, k⟩ <;> rfl

/-- A line that completes a document, wherever it has come outside a doc string: the header that is
still owed, or else an empty line. -/
theorem exists_completion {d : Dialect} (hd : d.Sound) (header : Option ℕ)
    (ht : ∀ block fence, t ≠ .docString block fence) :
    ∃ raw : Text, '\n' ∉ raw ∧ ∀ n, ∃ u,
      t.run ((d.vocabulary.linesAt n [raw]).map (demote header)) = some u ∧ u.accepts := by
  have hblank : d.vocabulary.kindOf [] = .blank := Vocabulary.kindOf_eq_blank_iff.2 Text.trim_nil
  have hheader : ∀ block, d.vocabulary.kindOf (Style.nameLine (d.defaultKeyword block) []) =
      .header block (d.defaultKeyword block) [] := fun block =>
    Vocabulary.kindOf_nameLine hd (hd.defaultKeyword_mem block) Text.trim_nil
  cases t with
  | docString block fence => exact absurd rfl (ht block fence)
  | prose block =>
    refine ⟨[], by simp, fun n => ⟨.prose block, ?_, rfl⟩⟩
    rw [run_single .nil hblank (by simp)]
    rfl
  | body block table =>
    refine ⟨[], by simp, fun n => ⟨.body block table, ?_, rfl⟩⟩
    rw [run_single .nil hblank (by simp), step_trivia rfl rfl]
  | opening tagged =>
    cases tagged with
    | false =>
      refine ⟨[], by simp, fun n => ⟨.opening false, ?_, rfl⟩⟩
      rw [run_single .nil hblank (by simp), step_trivia rfl rfl]
    | true =>
      refine ⟨_, (isLine_header hd .feature).1, fun n => ⟨.prose .feature, ?_, rfl⟩⟩
      rw [run_single (isLine_header hd .feature) (hheader .feature) (by simp)]
      rfl
  | between stage tagged =>
    cases tagged with
    | false =>
      refine ⟨[], by simp, fun n => ⟨.between stage false, ?_, rfl⟩⟩
      rw [run_single .nil hblank (by simp), step_trivia rfl rfl]
    | true =>
      refine ⟨_, (isLine_header hd .scenario).1, fun n => ⟨.prose .scenario, ?_, rfl⟩⟩
      rw [run_single (isLine_header hd .scenario) (hheader .scenario) (by simp)]
      rfl

/-! ### Lines of a text -/

/-- Just the lines after which the automaton accepts are read. -/
theorem exists_document_of_run {language : Text} (h : (State.opening false).run ls = some t)
    (ht : t.accepts) : ∃ doc, document language ls = .ok doc := by
  have hdocument := completes_document language ls
  cases hparse : document language ls with
  | ok doc => exact ⟨doc, rfl⟩
  | error e =>
    rw [hparse] at hdocument
    have hnot := Fails.not_accepts hdocument h
    rw [ht] at hnot
    cases hnot

theorem run_of_document {language : Text} {doc : Document} (h : document language ls = .ok doc) :
    ∃ t, (State.opening false).run ls = some t := by
  have hdocument := completes_document language ls
  rw [h] at hdocument
  obtain ⟨t, hrun, -⟩ := hdocument
  exact ⟨t, hrun⟩

theorem trivia_of_idle {v : Vocabulary} {source : Text} {n : ℕ}
    (h : ∀ l ∈ (v.classify source).take n, isIdle l) (d : Dialect) (header : Option ℕ) :
    Trivia ((linesIn d header source).take n) := by
  rw [Vocabulary.classify_eq, ← Vocabulary.linesAt_take] at h
  rw [linesIn, Vocabulary.classify_eq, ← List.map_take, ← Vocabulary.linesAt_take]
  intro l hl
  obtain ⟨m, hm, rfl⟩ := List.mem_map.1 hl
  obtain ⟨hkind, hmem⟩ := Vocabulary.mem_linesAt hm v
  have hidle : v.kindOf m.raw = .blank ∨ v.kindOf m.raw = .comment := of_decide_eq_true (h _ hmem)
  have hsame : m.kind = v.kindOf m.raw := by
    rw [hkind]
    refine Vocabulary.kindOf_eq_of_isTrivia ?_
    rcases hidle with hk | hk <;> rw [hk] <;> rfl
  rw [← hsame] at hidle
  rw [demote_of_ne (by rcases hidle with hk | hk <;> simp [hk])]
  rcases hidle with hk | hk <;> rw [hk] <;> rfl

/-- A text of blank lines and comments is a document without a feature. -/
theorem exists_parse_of_idle {code source : Text} {fallback : Dialect}
    (hcode : Dialect.get? code = some fallback)
    (h : ∀ l ∈ fallback.vocabulary.classify source, isIdle l) :
    ∃ doc, parse code source = .ok doc := by
  have hnone : openingLanguage? (fallback.vocabulary.classify source) = none := by
    have hopen := openingLanguage?_of_idle h []
    rwa [List.append_nil] at hopen
  have ht : Trivia (linesIn fallback none source) := by
    have hfirst : ∀ l ∈ (fallback.vocabulary.classify source).take source.lines.length,
        isIdle l := fun l hl => h l (List.mem_of_mem_take hl)
    have hall := trivia_of_idle hfirst fallback none
    rwa [List.take_of_length_le (length_linesIn _ _ _).le] at hall
  refine ⟨⟨none, commentsOf (linesIn fallback none source)⟩, ?_⟩
  simp only [parse, hcode, hnone]
  exact document_of_reading (.empty ht) (tidy_linesIn fallback none source)

/-! ### Refusals -/

/-- A text that is refused for its structure has a first line at fault. -/
theorem exists_misfit_of_document {language : Text} {d : Dialect} {header : Option ℕ} {source : Text}
    (h : document language (linesIn d header source) = .error e) :
    ∃ n l t, n < source.lines.length ∧ e.line = n + 1 ∧
      (linesIn d header source).take (n + 1) = (linesIn d header source).take n ++ [l] ∧
      Misfit (.opening false) e ((linesIn d header source).take n) l t := by
  have hfails := completes_document language (linesIn d header source)
  rw [h] at hfails
  have hne : linesIn d header source ≠ [] := by
    rw [ne_eq, ← List.length_eq_zero_iff, length_linesIn, List.length_eq_zero_iff]
    exact Text.lines_ne_nil source
  have hlast : ∀ l ∈ (linesIn d header source).getLast?,
      l.number = (linesIn d header source).length := by
    intro l hl
    rw [List.getLast?_eq_getElem?] at hl
    have hpos := List.length_pos_of_ne_nil hne
    rw [number_of_linesIn hl]
    omega
  obtain ⟨before, l, after, t, hsplit, hmisfit⟩ := Fails.exists_misfit hfails hne hlast
  have htake : (linesIn d header source).take before.length = before := by
    rw [hsplit, List.take_left]
  have hget : (linesIn d header source)[before.length]? = some l := by
    rw [hsplit, List.getElem?_append_right le_rfl, Nat.sub_self]
    rfl
  have hlt : before.length < source.lines.length := by
    rw [← length_linesIn d header source, hsplit, List.length_append, List.length_cons]
    omega
  refine ⟨before.length, l, t, hlt, ?_, ?_, ?_⟩
  · rw [hmisfit.number, number_of_linesIn hget]
  · rw [List.take_add_one, hget]
    rfl
  · rwa [htake]

theorem lines_completed {source raw : Text} (hraw : '\n' ∉ raw) (n : ℕ) :
    (Text.unlines (source.lines.take n ++ [raw])).lines = source.lines.take n ++ [raw] := by
  have hline : ∀ t ∈ source.lines.take n ++ [raw], '\n' ∉ t := by
    refine List.forall_mem_append.2 ⟨fun t ht => ?_, List.forall_mem_singleton.2 hraw⟩
    exact Text.not_mem_lines (List.mem_of_mem_take ht)
  obtain ⟨t, ts, hcons⟩ := List.exists_cons_of_ne_nil
    (List.append_ne_nil_of_right_ne_nil (source.lines.take n) (List.cons_ne_nil raw []))
  rw [hcons] at hline ⊢
  exact Text.lines_unlines t ts hline

section

variable {code source : Text} {fallback : Dialect} (hcode : Dialect.get? code = some fallback)

include hcode

/-- Blank lines and comments are completed by an empty line. -/
theorem exists_completion_of_idle {n : ℕ}
    (h : ∀ l ∈ (fallback.vocabulary.classify source).take n, isIdle l) :
    ∃ text more doc, text.lines = source.lines.take n ++ more ∧ parse code text = .ok doc := by
  have hlines : (Text.unlines (source.lines.take n ++ [[]])).lines = source.lines.take n ++ [[]] :=
    lines_completed (by simp) n
  have hidle : ∀ l ∈ fallback.vocabulary.classify (Text.unlines (source.lines.take n ++ [[]])),
      isIdle l := by
    rw [Vocabulary.classify_eq, hlines, Vocabulary.linesAt_append, Vocabulary.linesAt_take,
      ← Vocabulary.classify_eq, Vocabulary.linesAt_cons]
    have hblank : fallback.vocabulary.kindOf (Text.dropReturn []) = .blank :=
      Vocabulary.kindOf_eq_blank_iff.2 Text.trim_nil
    rw [hblank]
    exact List.forall_mem_append.2 ⟨h, List.forall_mem_singleton.2 rfl⟩
  obtain ⟨doc, hdoc⟩ := exists_parse_of_idle hcode hidle
  exact ⟨_, _, doc, hlines, hdoc⟩

theorem first_misfit_of_unsupported {number : ℕ} {declared : Text}
    (hdeclares : Declares (fallback.vocabulary.classify source) number declared)
    (hparse : ∀ text, openingLanguage? (fallback.vocabulary.classify text) =
        openingLanguage? (fallback.vocabulary.classify source) →
      parse code text = .error ⟨number, .unsupported declared⟩) :
    (1 ≤ number ∧ number ≤ source.lines.length) ∧
      (∃ text more doc, text.lines = source.lines.take (number - 1) ++ more ∧
        parse code text = .ok doc) ∧
      ∀ text more, text.lines = source.lines.take number ++ more → ∀ doc, parse code text ≠ .ok doc := by
  obtain ⟨before, l, after, hsplit, hidle, rfl, hl⟩ := hdeclares
  have hget : (fallback.vocabulary.classify source)[before.length]? = some l := by
    rw [hsplit, List.getElem?_append_right le_rfl, Nat.sub_self]
    rfl
  have hnumber : l.number = before.length + 1 := by
    rw [Vocabulary.classify_eq] at hget
    rw [Vocabulary.number_of_linesAt hget, Nat.zero_add]
  have hlength : before.length + 1 ≤ source.lines.length := by
    rw [← Vocabulary.length_classify fallback.vocabulary source, hsplit, List.length_append,
      List.length_cons]
    omega
  refine ⟨by omega, ?_, fun text more hlines doc hdoc => ?_⟩
  · refine exists_completion_of_idle hcode fun x hx => ?_
    rw [hnumber, Nat.add_sub_cancel, hsplit, List.take_left] at hx
    exact decide_eq_true (hidle x hx)
  · have hmem : l ∈ (fallback.vocabulary.classify source).take l.number := by
      rw [hnumber, List.take_add_one, hget]
      simp
    have hopen := openingLanguage?_of_take hlines fallback.vocabulary
      ⟨l, hmem, by simp [isIdle, hl]⟩
    rw [hparse text hopen] at hdoc
    cases hdoc

theorem first_misfit_of_document {language : Text} {d : Dialect} {header : Option ℕ}
    (hd : d.Sound) (h : parse code source = .error e)
    (hparse : ∀ text, openingLanguage? (fallback.vocabulary.classify text) =
        openingLanguage? (fallback.vocabulary.classify source) →
      parse code text = document language (linesIn d header text)) :
    (1 ≤ e.line ∧ e.line ≤ source.lines.length) ∧
      (∃ text more doc, text.lines = source.lines.take (e.line - 1) ++ more ∧
        parse code text = .ok doc) ∧
      (e.cause.isEarlyEnd = false → ∀ text more, text.lines = source.lines.take e.line ++ more →
        ∀ doc, parse code text ≠ .ok doc) := by
  rw [hparse source rfl] at h
  obtain ⟨n, l, t, hn, hline, htake, hmisfit⟩ := exists_misfit_of_document h
  rw [hline, Nat.add_sub_cancel]
  refine ⟨by omega, ?_, fun hend text more hlines doc hdoc => ?_⟩
  · by_cases hidle : ∀ x ∈ (fallback.vocabulary.classify source).take n, isIdle x
    · exact exists_completion_of_idle hcode hidle
    · obtain ⟨raw, hraw, hcompletes⟩ := exists_completion hd header hmisfit.plain
      obtain ⟨u, hrun, hu⟩ := hcompletes n
      have hlines : (Text.unlines (source.lines.take n ++ [raw])).lines = _ := lines_completed hraw n
      have hsettled : ∃ x ∈ (fallback.vocabulary.classify source).take n, isIdle x = false := by
        simpa using hidle
      have hopen := openingLanguage?_of_take hlines fallback.vocabulary hsettled
      have hall : (State.opening false).run
          (linesIn d header (Text.unlines (source.lines.take n ++ [raw]))) = some u := by
        rw [linesIn_of_take hlines hn.le, run_append_of hmisfit.run, hrun]
      obtain ⟨doc, hdoc⟩ := exists_document_of_run hall hu
      exact ⟨_, _, doc, hlines, (hparse _ hopen).trans hdoc⟩
  · have hsettled : ∃ x ∈ (fallback.vocabulary.classify source).take (n + 1), isIdle x = false := by
      by_contra hnone
      have hidle : ∀ x ∈ (fallback.vocabulary.classify source).take (n + 1), isIdle x := by
        simpa using hnone
      have ht := trivia_of_idle hidle d header
      rw [htake] at ht
      obtain ⟨hbefore, hl⟩ := List.forall_mem_append.1 ht
      have hrun := hmisfit.run
      rw [run_trivia rfl hbefore] at hrun
      obtain rfl := Option.some.inj hrun
      exact hmisfit.meaning (step_trivia rfl (hl l (by simp)))
    rw [hparse text (openingLanguage?_of_take hlines fallback.vocabulary hsettled)] at hdoc
    obtain ⟨u, hrun⟩ := run_of_document hdoc
    rw [linesIn_of_take hlines hn, htake, List.append_assoc, run_append_of hmisfit.run,
      List.singleton_append, run_cons, hmisfit.stuck hend] at hrun
    cases hrun

/-- A refusal of a text names the first line with which it cannot be completed any more, or the one
at which it ended too early. The lines before it can be completed to a document. -/
theorem first_misfit (h : parse code source = .error e) :
    (1 ≤ e.line ∧ e.line ≤ source.lines.length) ∧
      (∃ text more doc, text.lines = source.lines.take (e.line - 1) ++ more ∧
        parse code text = .ok doc) ∧
      (e.cause.isEarlyEnd = false → ∀ text more, text.lines = source.lines.take e.line ++ more →
        ∀ doc, parse code text ≠ .ok doc) := by
  obtain ⟨number, declared, hdeclares, -, hparse⟩ | ⟨language, d, header, -, hget, hparse⟩ :=
    parse_cases hcode source
  · obtain rfl := Except.error.inj (h.symm.trans (hparse source rfl))
    obtain ⟨hline, hcompletes, hstuck⟩ := first_misfit_of_unsupported hcode hdeclares hparse
    exact ⟨hline, hcompletes, fun _ => hstuck⟩
  · exact first_misfit_of_document hcode (Dialect.sound_of_get? hget) h hparse

end

/-- Examples have no place right under a feature. -/
theorem first_misfit_examples :
    let source : Text := "Feature: a\nExamples: b\n|c|".toList
    ∃ e, parse Dialect.defaultCode source = .error e ∧ e.line = 2 ∧ e.cause.isEarlyEnd = false ∧
      ∀ text more, text.lines = source.lines.take 2 ++ more →
        ∀ doc, parse Dialect.defaultCode text ≠ .ok doc := by
  intro source
  have hline : (match parse Dialect.defaultCode source with
      | .error e => decide (e.line = 2) && !e.cause.isEarlyEnd
      | .ok _ => false) = true := by
    decide +kernel
  cases hparse : parse Dialect.defaultCode source with
  | ok doc =>
    rw [hparse] at hline
    cases hline
  | error e =>
    rw [hparse] at hline
    obtain ⟨htwo, hend⟩ : e.line = 2 ∧ e.cause.isEarlyEnd = false := by simpa using hline
    have hcode : Dialect.get? Dialect.defaultCode = some Dialect.english := rfl
    obtain ⟨-, -, hstuck⟩ := first_misfit hcode hparse
    rw [htwo] at hstuck
    exact ⟨e, rfl, htwo, hend, hstuck hend⟩

end Document

end Gherkin
