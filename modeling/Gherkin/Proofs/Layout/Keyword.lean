import Gherkin.Proofs.Layout.RoundTrip
import Gherkin.Proofs.Line.StepLine

/-! Steps that are read from a line, rendered, and read again. One space is written after the keyword,
whatever blanks stood there. Proved: the rendered line is the same step, keyword and text, just when
the keyword of the dialect has no second trailing space and the line begins with no keyword that goes
on after the space. This is so for every line in all but six dialects. -/

open Gherkin.Document

namespace Gherkin

variable {code line keyword text : Text} {d : Dialect}

/-- A line that is a step is read as the step. -/
theorem Step.exists_parse_line (hcode : Dialect.get? code = some d) (hline : '\n' ∉ line)
    (h : d.vocabulary.kindOf line = .step keyword text) :
    ∃ e, Step.parse code line = .ok e ∧ e.forget = { keyword := keyword.trim, text } := by
  have hd := Dialect.sound_of_get? hcode
  have hs := Dialect.separate_of_get? hcode
  let before := [Snippet.featureLine d, d.scenarioKeyword ++ [':']]
  have hframe := frames_step hd code
  have hbefore : Written d.vocabulary [] before
      ((d.vocabulary.linesAt 1 before).map (demote (some 1))) :=
    written_linesAt d.vocabulary (by simp) hframe.line
  -- the step is on the fourth line of the document around it
  let l : Line := ⟨4, Text.dropReturn line, .step keyword text⟩
  have hl : (d.vocabulary.linesAt 3 [line]).map (demote (some 1)) = [l] := by
    rw [Vocabulary.linesAt_cons, Vocabulary.kindOf_dropReturn hs, h, List.map_cons,
      demote_of_ne (by simp)]
    rfl
  have hstep : Reading.Step [l] ⟨l.location, keyword, text, none⟩ [] := .mk .nil rfl (.none .nil)
  obtain ⟨f, hf, hplain⟩ := hframe.reading Text.IsIndent.nil hbefore hstep
  have happend : d.vocabulary.linesAt 1 (before ++ [line]) =
      d.vocabulary.linesAt 1 before ++ d.vocabulary.linesAt 3 [line] :=
    Vocabulary.linesAt_append _ _ _ _
  rw [← hl, ← List.map_append, ← happend] at hf
  have hlines : ∀ t ∈ before ++ [line], '\n' ∉ t :=
    List.forall_mem_append.2 ⟨fun t ht => (hframe.line t ht).1, List.forall_mem_singleton.2 hline⟩
  have hwrap : Snippet.step.wrap code d line =
      Text.unlines (Snippet.languageLine code :: (before ++ [line])) := rfl
  refine readWith_of_parse Step.unplaced {} hcode ?_ hplain
  rw [hwrap]
  exact parse_languageLine hcode hcode hlines hf

/-- A step without a block is rendered to its line. -/
theorem Style.step_eq_line (s : Style) {e : Step} (hkeyword : e.keyword ≠ []) (hblock : e.block = none) :
    s.step e = e.keyword ++ ' ' :: e.text := by
  rw [Style.step, Style.keywordOr, if_neg hkeyword, hblock]
  exact Text.joinWith_singleton _

/-- The step that a line is read as is written with one space between its keyword and its text. -/
theorem Step.exists_render_line (hcode : Dialect.get? code = some d) (hline : '\n' ∉ line)
    (h : d.vocabulary.kindOf line = .step keyword text) (s : Style) :
    ∃ e, Step.parse code line = .ok e ∧ e.keyword = keyword.trim ∧ e.text = text ∧
      s.step e = keyword.trim ++ ' ' :: text := by
  obtain ⟨rest, hk, -, -⟩ : ∃ rest : Text, keyword ∈ d.stepKeywords ∧
      line.trimStart = keyword ++ rest ∧ text = rest.trim := by
    have hfits := Vocabulary.fits_kindOf d.vocabulary line
    rwa [h] at hfits
  obtain ⟨e, hparse, hforget⟩ := Step.exists_parse_line hcode hline h
  obtain ⟨c, cs, hcons, -⟩ := ((Dialect.sound_of_get? hcode).step _ hk).exists_trim_cons
  have hkeyword : e.keyword = keyword.trim := congrArg Step.keyword hforget
  have hsame : e.text = text := congrArg Step.text hforget
  have hblock : e.block = none := congrArg Step.block hforget
  have hne : e.keyword ≠ [] := by
    rw [hkeyword, hcons]
    exact List.cons_ne_nil _ _
  exact ⟨e, hparse, hkeyword, hsame, by rw [s.step_eq_line hne hblock, hkeyword, hsame]⟩

/-- The step that a line is read as is rendered to a line that is the same step, unless its keyword
has a second trailing space or the rendered line begins with a keyword that goes on after the
space. -/
theorem Step.isStep_render_iff (hcode : Dialect.get? code = some d) (hline : '\n' ∉ line)
    (h : d.vocabulary.kindOf line = .step keyword text) (s : Style) :
    ∃ e, Step.parse code line = .ok e ∧ e.keyword = keyword.trim ∧ e.text = text ∧
      (d.vocabulary.IsStep (s.step e) e.keyword e.text ↔
        keyword <+: keyword.trim ++ [' '] ∧ ∀ k ∈ d.stepKeywords,
          k <+: keyword.trim ++ ' ' :: text → k <+: keyword.trim ++ [' ']) ∧
      (code ∉ Dialect.crossed → d.vocabulary.IsStep (s.step e) e.keyword e.text) := by
  obtain ⟨rest, hk, -, htext⟩ : ∃ rest : Text, keyword ∈ d.stepKeywords ∧
      line.trimStart = keyword ++ rest ∧ text = rest.trim := by
    have hfits := Vocabulary.fits_kindOf d.vocabulary line
    rwa [h] at hfits
  have htrim : text.trim = text := by rw [htext, Text.trim_trim]
  obtain ⟨e, hparse, hkeyword, hsame, hrender⟩ := Step.exists_render_line hcode hline h s
  have hwritten : d.vocabulary.IsStep (s.step e) e.keyword e.text ↔
      d.vocabulary.IsStep (keyword.trim ++ ' ' :: text) keyword.trim text := by
    rw [hrender, hkeyword, hsame]
  have hiff := hwritten.trans (Vocabulary.isStep_written_iff (Dialect.sound_of_get? hcode)
    (Dialect.separate_of_get? hcode) hk htrim)
  exact ⟨e, hparse, hkeyword, hsame, hiff, fun hcrossed =>
    hiff.2 ((Dialect.uncrossed_of_get? hcode hcrossed).written hk text)⟩

/-- A French step whose keyword ends without a space is the same step when one is written. -/
theorem Step.isStep_render_elided :
    ∃ d, Dialect.get? "fr".toList = some d ∧
      d.vocabulary.kindOf "Sachant qu'il pleut".toList =
        .step "Sachant qu'".toList "il pleut".toList ∧
      ∃ e, Step.parse "fr".toList "Sachant qu'il pleut".toList = .ok e ∧
        d.vocabulary.IsStep (Style.step {} e) e.keyword e.text := by
  have hread : (Dialect.get? "fr".toList).map (fun d =>
      (d.vocabulary.kindOf "Sachant qu'il pleut".toList, decide (∀ k ∈ d.stepKeywords,
        k <+: Text.trim "Sachant qu'".toList ++ ' ' :: "il pleut".toList →
          k <+: Text.trim "Sachant qu'".toList ++ [' ']))) =
      some (.step "Sachant qu'".toList "il pleut".toList, true) := by
    decide +kernel
  obtain ⟨d, hcode, hd⟩ := Option.map_eq_some_iff.1 hread
  obtain ⟨hkind, hbeyond⟩ := Prod.mk.inj hd
  obtain ⟨e, hparse, -, -, hiff, -⟩ :=
    Step.isStep_render_iff hcode (by decide +kernel) hkind {}
  exact ⟨d, hcode, hkind, e, hparse, hiff.2 ⟨by decide +kernel, of_decide_eq_true hbeyond⟩⟩

/-- A step is lost when its line is of another kind or has another text. -/
theorem Step.not_isStep_render (hcode : Dialect.get? code = some d) (hline : '\n' ∉ line)
    (h : d.vocabulary.kindOf line = .step keyword text)
    (hother : ∀ k, d.vocabulary.kindOf (keyword.trim ++ ' ' :: text) ≠ .step k text) (s : Style) :
    ∃ e, Step.parse code line = .ok e ∧ ¬d.vocabulary.IsStep (s.step e) e.keyword e.text := by
  obtain ⟨e, hparse, -, htext, hrender⟩ := Step.exists_render_line hcode hline h s
  refine ⟨e, hparse, ?_⟩
  rintro ⟨k, hk, -⟩
  rw [hrender, htext] at hk
  exact hother k hk

/-- In French a text that begins as a longer keyword goes on becomes part of the keyword, and in
Tamil the second space of a keyword is lost, and the step with it. -/
theorem Step.render_is_other_step :
    (∃ d, Dialect.get? "fr".toList = some d ∧
      d.vocabulary.kindOf "Et  que x".toList = .step "Et ".toList "que x".toList ∧
      ∃ e, Step.parse "fr".toList "Et  que x".toList = .ok e ∧
        ¬d.vocabulary.IsStep (Style.step {} e) e.keyword e.text) ∧
      ∃ d, Dialect.get? "ta".toList = some d ∧
        d.vocabulary.kindOf "மேலும்  x".toList = .step "மேலும்  ".toList "x".toList ∧
        ∃ e, Step.parse "ta".toList "மேலும்  x".toList = .ok e ∧
          ¬d.vocabulary.IsStep (Style.step {} e) e.keyword e.text := by
  have hfrench : (Dialect.get? "fr".toList).map (fun d =>
      (d.vocabulary.kindOf "Et  que x".toList,
        d.vocabulary.kindOf (Text.trim "Et ".toList ++ ' ' :: "que x".toList))) =
      some (.step "Et ".toList "que x".toList, .step "Et que ".toList "x".toList) := by
    decide +kernel
  have htamil : (Dialect.get? "ta".toList).map (fun d =>
      (d.vocabulary.kindOf "மேலும்  x".toList,
        d.vocabulary.kindOf (Text.trim "மேலும்  ".toList ++ ' ' :: "x".toList))) =
      some (.step "மேலும்  ".toList "x".toList, .other) := by
    decide +kernel
  obtain ⟨french, hfr, hfrench⟩ := Option.map_eq_some_iff.1 hfrench
  obtain ⟨tamil, hta, htamil⟩ := Option.map_eq_some_iff.1 htamil
  obtain ⟨hread, hwritten⟩ := Prod.mk.inj hfrench
  obtain ⟨hread', hwritten'⟩ := Prod.mk.inj htamil
  have htext : "que x".toList ≠ "x".toList := by decide +kernel
  refine ⟨⟨french, hfr, hread, ?_⟩, tamil, hta, hread', ?_⟩
  · refine Step.not_isStep_render hfr (by decide +kernel) hread (fun k hk => ?_) {}
    rw [hwritten] at hk
    exact htext (LineKind.step.inj hk).2.symm
  · refine Step.not_isStep_render hta (by decide +kernel) hread' (fun k hk => ?_) {}
    rw [hwritten'] at hk
    cases hk

end Gherkin
