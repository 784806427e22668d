import Gherkin.Proofs.Document.Refusal
import Gherkin.Proofs.Element.Indent

/-! The line that is blamed when a text is refused as a node of its own. Tags and comments are read
with a feature header after the text; where the text has a feature of its own, that header is one too
many, and the line blamed is behind the text. In all other refusals it is a line of the text. -/

open Gherkin.Document Gherkin.Document.Parser

namespace Gherkin

namespace Document

open State

variable {s t u : State} {last : ℕ} {l : Line} {as bs : List Line} {e : Failure}

/-! ### One feature at most -/

/-- Whether a feature has begun, outside its doc strings. -/
def State.underway : State → Bool
  | opening _ | docString .. => false
  | _ => true

/-- No second feature is taken, -/
theorem State.step_feature (ht : t.underway) {keyword name : Text}
    (hl : l.kind = .header .feature keyword name) : t.step l = none := by
  cases t with
  | opening tagged | docString block fence => cases ht
  | prose block =>
    have hends : endsDescription block l.kind := by rw [hl]; rfl
    rw [step, if_pos hends]
    cases block <;> simp [pastStep, bodyStep, betweenStep, hl, LineKind.isTrivia]
  | body block table => cases table <;> simp [step, bodyStep, betweenStep, hl, LineKind.isTrivia]
  | between stage tagged => simp [step, betweenStep, hl, LineKind.isTrivia]

/-- but one more scenario is. -/
theorem State.step_scenario (ht : t.underway) {keyword name : Text}
    (hl : l.kind = .header .scenario keyword name) : t.step l = some (.prose .scenario) := by
  cases t with
  | opening tagged | docString block fence => cases ht
  | prose block =>
    have hends : endsDescription block l.kind := by rw [hl]; rfl
    rw [step, if_pos hends]
    cases block <;> simp [pastStep, bodyStep, betweenStep, hl, LineKind.isTrivia]
  | body block table => cases table <;> simp [step, bodyStep, betweenStep, hl, LineKind.isTrivia]
  | between stage tagged => simp [step, betweenStep, hl]

theorem State.underway_of_accepts (hl : ∃ keyword name, l.kind = .header .scenario keyword name)
    (ht : t.step l = some u) (hu : u.accepts) : t.underway := by
  obtain ⟨keyword, name, hl⟩ := hl
  cases t with
  | opening tagged => simp [step, openingStep, hl, LineKind.isTrivia] at ht
  | docString block fence =>
    rw [step, hl] at ht
    obtain rfl := Option.some.inj ht
    cases hu
  | prose | body | between => rfl

/-- The automaton fails at the first line that it has no step for. -/
theorem Fails.line_of_stuck (h : Fails last s (as ++ l :: bs) e) (hrun : s.run as = some t)
    (ht : t.step l = none) : e.line = l.number := by
  induction as generalizing s with
  | nil =>
    obtain rfl := Option.some.inj hrun
    cases h with
    | stuck => rfl
    | unclosed hstep | later hstep => cases ht.symm.trans hstep
  | cons m as ih =>
    obtain ⟨u, hu, hrun⟩ := Option.bind_eq_some_iff.1 hrun
    cases h with
    | stuck hstep => cases hstep.symm.trans hu
    | unclosed hstep _ hopen =>
      obtain rfl := Option.some.inj (hu.symm.trans hstep)
      rw [run_body _ fun k hk => hopen k (List.mem_append_left _ hk)] at hrun
      obtain rfl := Option.some.inj hrun
      cases ht
    | later hstep hrest =>
      obtain rfl := Option.some.inj (hu.symm.trans hstep)
      exact ih hrest hrun

/-- A feature header at the end is the line at fault just where a feature has begun before it. -/
theorem Fails.line_eq_iff {keyword name : Text} (h : Fails last s (as ++ [l]) e)
    (hl : l.kind = .header .feature keyword name) (hlast : l.number = last)
    (hbefore : ∀ m ∈ as, m.number ≠ last) :
    e.line = last ↔ ∃ t, s.run as = some t ∧ t.underway := by
  constructor
  · intro hline
    obtain ⟨before, m, after, t, hsplit, hmisfit⟩ := Fails.exists_misfit h (by simp) (by simp [hlast])
    have hmem : m ∉ as := fun hm => hbefore m hm (hmisfit.number.symm.trans hline)
    have hafter : after = [] := by
      rcases List.eq_nil_or_concat after with hnil | ⟨rest, k, hconcat⟩
      · exact hnil
      · rw [hconcat, List.concat_eq_append, ← List.cons_append, ← List.append_assoc] at hsplit
        obtain ⟨rfl, -⟩ := List.append_inj' hsplit rfl
        exact absurd (List.mem_append_right before List.mem_cons_self) hmem
    rw [hafter] at hsplit
    obtain ⟨rfl, hm⟩ := List.append_inj' hsplit rfl
    obtain rfl := List.singleton_inj.1 hm
    refine ⟨t, hmisfit.run, ?_⟩
    cases t with
    | docString block fence => exact absurd rfl (hmisfit.plain block fence)
    | opening tagged =>
      have hrun : s.run (as ++ [l]) = some (.prose .feature) := by
        rw [run_append_of hmisfit.run, run_cons, step, openingStep, hl]
        rfl
      cases h.not_accepts hrun
    | prose | body | between => rfl
  · rintro ⟨t, hrun, ht⟩
    rw [h.line_of_stuck hrun (step_feature ht hl), hlast]

/-- A document is refused at a line of its own. -/
theorem line_of_parse_error {code source : Text} {fallback : Dialect}
    (hcode : Dialect.get? code = some fallback) (h : parse code source = .error e) :
    1 ≤ e.line ∧ e.line ≤ source.lines.length := by
  obtain ⟨number, declared, hdeclares, -, hparse⟩ | ⟨language, d, header, -, hget, hparse⟩ :=
    parse_cases hcode source
  · obtain rfl := Except.error.inj (h.symm.trans (hparse source rfl))
    exact (first_misfit_of_unsupported hcode hdeclares hparse).1
  · exact (first_misfit_of_document hcode (Dialect.sound_of_get? hget) h hparse).1

end Document

/-! ### Lines around a text -/

namespace Snippet

variable {code source raw : Text} {d : Dialect}

/-- A text below the header of a language and above one more line. -/
def framed (code source raw : Text) : Text := Text.unlines [languageLine code, source, raw]

/-- The lines from the header of the language to the end of the text. -/
def leadLines (code : Text) (d : Dialect) (source : Text) : List Line :=
  (d.vocabulary.linesAt 0 (languageLine code :: source.lines)).map (demote (some 1))

theorem lines_framed (source : Text) (hcode : Dialect.get? code = some d) (hraw : '\n' ∉ raw) :
    (framed code source raw).lines = languageLine code :: (source.lines ++ [raw]) := by
  have hheader := Text.flatMap_lines_eq_self
    (List.forall_mem_singleton.2 (isLine_languageLine hcode).1)
  have hclose := Text.flatMap_lines_eq_self (List.forall_mem_singleton.2 hraw)
  rw [List.flatMap_singleton] at hheader hclose
  rw [framed, Text.lines_unlines_eq_flatMap (List.cons_ne_nil _ _), List.flatMap_cons,
    List.flatMap_cons, List.flatMap_singleton, hheader, hclose]
  rfl

theorem length_leadLines (code : Text) (d : Dialect) (source : Text) :
    (leadLines code d source).length = source.lines.length + 1 := by
  rw [leadLines, List.length_map, Vocabulary.length_linesAt, List.length_cons]

theorem number_leadLines {l : Line} (hl : l ∈ leadLines code d source) :
    1 ≤ l.number ∧ l.number ≤ source.lines.length + 1 := by
  obtain ⟨m, hm, rfl⟩ := List.mem_map.1 hl
  obtain ⟨i, hi⟩ := List.mem_iff_getElem?.1 hm
  obtain ⟨hlt, -⟩ := List.getElem?_eq_some_iff.1 hi
  rw [Vocabulary.length_linesAt, List.length_cons] at hlt
  rw [number_demote, Vocabulary.number_of_linesAt hi]
  omega

theorem parse_framed (source : Text) (hcode : Dialect.get? code = some d) (hraw : raw.IsLine) :
    ∃ l, l.number = source.lines.length + 2 ∧ l.kind = d.vocabulary.plainKind raw ∧
      Document.parse code (framed code source raw) =
        document code (leadLines code d source ++ [l]) := by
  have hlines := lines_framed source hcode hraw.1
  have hparse := parse_of_languageLine hcode hcode hlines
  rw [linesIn, Vocabulary.classify_eq, hlines, ← List.cons_append, Vocabulary.linesAt_append,
    List.map_append, Vocabulary.linesAt_cons _ _ raw, hraw.dropReturn] at hparse
  refine ⟨_, ?_, ?_, hparse⟩
  · rw [number_demote, List.length_cons, Nat.zero_add]
  · exact kind_demote rfl (by simp)

/-- A scenario may follow just where a feature has begun. -/
theorem exists_parse_scenario_iff (hcode : Dialect.get? code = some d) :
    (∃ doc, Document.parse code (framed code source (d.scenarioKeyword ++ [':'])) = .ok doc) ↔
      ∃ t, (State.opening false).run (leadLines code d source) = some t ∧ t.underway := by
  have hd := Dialect.sound_of_get? hcode
  have hkind : d.vocabulary.plainKind (d.scenarioKeyword ++ [':']) = _ :=
    Vocabulary.plainKind_nameLine hd .scenario Text.trim_nil
  obtain ⟨l, -, hl, hparse⟩ := parse_framed source hcode
    (show Text.IsLine (d.scenarioKeyword ++ [':']) from isLine_header hd .scenario)
  rw [hparse]
  rw [hkind] at hl
  constructor
  · rintro ⟨doc, hdoc⟩
    have hcomplete := completes_document code (leadLines code d source ++ [l])
    rw [hdoc] at hcomplete
    obtain ⟨u, hrun, hu⟩ := hcomplete
    rw [State.run_append] at hrun
    obtain ⟨t, ht, hstep⟩ := Option.bind_eq_some_iff.1 hrun
    obtain ⟨v, hv, hrest⟩ := Option.bind_eq_some_iff.1 hstep
    obtain rfl := Option.some.inj hrest
    exact ⟨t, ht, State.underway_of_accepts ⟨_, _, hl⟩ hv hu⟩
  · rintro ⟨t, hrun, ht⟩
    refine exists_document_of_run (t := .prose .scenario) ?_ rfl
    rw [State.run_append_of hrun, State.run_cons, State.step_scenario ht hl]
    rfl

/-- A feature after the text is at fault just where a feature has begun. -/
theorem parse_feature (source : Text) (hcode : Dialect.get? code = some d) :
    match Document.parse code (framed code source (featureLine d)) with
    | .error e => 1 ≤ e.line ∧ e.line ≤ source.lines.length + 2 ∧
        (e.line = source.lines.length + 2 ↔
          ∃ t, (State.opening false).run (leadLines code d source) = some t ∧ t.underway)
    | .ok _ => ¬∃ t, (State.opening false).run (leadLines code d source) = some t ∧ t.underway := by
  have hd := Dialect.sound_of_get? hcode
  obtain ⟨l, hnumber, hl, hparse⟩ := parse_framed source hcode
    (List.forall_mem_singleton.1 (holds_featureLine hd).line)
  rw [plainKind_featureLine hd] at hl
  rw [hparse]
  have hcomplete := completes_document code (leadLines code d source ++ [l])
  cases hdoc : document code (leadLines code d source ++ [l]) with
  | error e =>
    rw [hdoc] at hcomplete
    have hfails : Fails (leadLines code d source ++ [l]).length (.opening false)
      (leadLines code d source ++ [l]) e := hcomplete
    rw [List.length_append, length_leadLines, List.length_singleton] at hfails
    have hnumbers : ∀ m ∈ leadLines code d source ++ [l],
        1 ≤ m.number ∧ m.number ≤ source.lines.length + 2 := by
      refine List.forall_mem_append.2 ⟨fun m hm => ?_, List.forall_mem_singleton.2 (by omega)⟩
      have hm := number_leadLines hm
      omega
    obtain ⟨before, m, after, t, hsplit, hmisfit⟩ :=
      Fails.exists_misfit hfails (by simp) (by simp [hnumber])
    have hm := hnumbers m (by simp [hsplit])
    rw [← hmisfit.number] at hm
    refine ⟨hm.1, hm.2, Fails.line_eq_iff hfails hl hnumber fun m hm => ?_⟩
    have hm := number_leadLines hm
    omega
  | ok doc =>
    rw [hdoc] at hcomplete
    obtain ⟨u, hrun, -⟩ := hcomplete
    rintro ⟨t, ht, hunderway⟩
    rw [State.run_append_of ht, State.run_cons, State.step_feature hunderway hl] at hrun
    cases hrun

theorem length_lines_wrap (hcode : Dialect.get? code = some d) (k : Snippet) (source : Text) :
    (k.wrap code d source).lines.length =
      (k.opening code d).length + source.lines.length + (k.closing d).length := by
  by_cases hk : k = feature
  · have hwrap : feature.wrap code d source = source := @Text.joinWith_singleton '\n' source
    rw [hk, hwrap]
    exact (Nat.zero_add _).symm
  · rw [lines_wrap hcode hk, List.length_append, List.length_append, Nat.add_assoc]

/-- A refusal of the document around a text is passed on with its line counted from the text; a text
without the node is refused at its first line. -/
theorem read_eq_error {k : Snippet} {e : ParseError} (hcode : Dialect.get? code = some d)
    (h : k.read code source = .error e) :
    (∃ failure, Document.parse code (k.wrap code d source) = .error failure ∧
        e.line = max (failure.line - (k.opening code d).length) 1) ∨
      (e.line = 1 ∧ ∃ doc, Document.parse code (k.wrap code d source) = .ok doc) := by
  simp only [read, hcode, Document.read] at h
  cases hparse : Document.parse code (k.wrap code d source) with
  | error failure =>
    rw [hparse] at h
    obtain rfl := Except.error.inj h
    exact .inl ⟨failure, rfl, rfl⟩
  | ok doc =>
    rw [hparse] at h
    refine .inr ⟨?_, doc, rfl⟩
    dsimp only [Except.map] at h
    split at h
    · cases h
    · split at h
      · cases h
      · obtain rfl := Except.error.inj h
        rfl

/-- A text is refused at a line of its own, or else at the feature header that is put after a tag or
a comment: this happens just when a further scenario could follow the text, since the text then has
a feature already. -/
theorem blame_of_read {k : Snippet} {e : ParseError} (hcode : Dialect.get? code = some d)
    (h : k.read code source = .error e) :
    (1 ≤ e.line ∧ e.line ≤ source.lines.length + 1) ∧
      (source.lines.length < e.line ↔ (k = tag ∨ k = comment) ∧
        ∃ doc, Document.parse code (framed code source (d.scenarioKeyword ++ [':'])) = .ok doc) := by
  have hpos : 0 < source.lines.length := List.length_pos_of_ne_nil (Text.lines_ne_nil source)
  have hlines := length_lines_wrap hcode k source
  by_cases hk : k = tag ∨ k = comment
  · have hwrap : k.wrap code d source = framed code source (featureLine d) ∧
        (k.opening code d).length = 1 := by
      rcases hk with rfl | rfl <;> exact ⟨rfl, rfl⟩
    have hfeature := parse_feature source hcode
    rw [exists_parse_scenario_iff hcode]
    rcases read_eq_error hcode h with ⟨failure, hparse, hline⟩ | ⟨hline, doc, hparse⟩
    · rw [hwrap.1] at hparse
      rw [hparse] at hfeature
      obtain ⟨hone, hlast, hiff⟩ := hfeature
      rw [hline, hwrap.2, ← hiff]
      refine ⟨by omega, fun hlt => ⟨hk, by omega⟩, fun hand => by omega⟩
    · rw [hwrap.1] at hparse
      rw [hparse] at hfeature
      exact ⟨by omega, fun hlt => by omega, fun hand => absurd hand.2 hfeature⟩
  · have hclosing : (k.closing d).length = 0 := by
      cases k with
      | tag | comment => simp at hk
      | _ => rfl
    have hle : 1 ≤ e.line ∧ e.line ≤ source.lines.length := by
      rcases read_eq_error hcode h with ⟨failure, hparse, hline⟩ | ⟨hline, -⟩
      · have hbounds := Document.line_of_parse_error hcode hparse
        omega
      · omega
    exact ⟨by omega, fun hlt => by omega, fun hand => absurd hand.1 hk⟩

/-- The line that a text is refused at, if it is. -/
def refusedAt (k : Snippet) (code source : Text) : Option ℕ :=
  match k.read code source with
  | .error e => some e.line
  | .ok _ => none

theorem exists_error_of_refusedAt {k : Snippet} {n : ℕ} (h : k.refusedAt code source = some n) :
    ∃ e, k.read code source = .error e ∧ e.line = n := by
  unfold refusedAt at h
  split at h
  · next e he => exact ⟨e, he, Option.some.inj h⟩
  · cases h

/-- A doc string that is not closed is blamed on its fence. -/
theorem blame_of_read_fence :
    let source : Text := "Given a\n```\nb".toList
    ∃ e, step.read Dialect.defaultCode source = .error e ∧ e.line = 2 ∧
      (1 ≤ e.line ∧ e.line ≤ source.lines.length + 1) ∧
      (source.lines.length < e.line ↔ (step = tag ∨ step = comment) ∧
        ∃ doc, Document.parse Dialect.defaultCode
          (framed Dialect.defaultCode source (Dialect.english.scenarioKeyword ++ [':'])) =
            .ok doc) := by
  intro source
  obtain ⟨e, he, hline⟩ : ∃ e, step.read Dialect.defaultCode source = .error e ∧ e.line = 2 :=
    exists_error_of_refusedAt (by decide +kernel)
  exact ⟨e, he, hline, blame_of_read rfl he⟩

/-- A text of one line that is blamed on a second one. -/
theorem blame_behind_text :
    let source : Text := "Feature: a".toList
    ∃ e, tag.read Dialect.defaultCode source = .error e ∧ source.lines.length < e.line := by
  intro source
  obtain ⟨e, he, hline⟩ : ∃ e, tag.read Dialect.defaultCode source = .error e ∧ e.line = 2 :=
    exists_error_of_refusedAt (by decide +kernel)
  have hlength : source.lines.length = 1 := by decide +kernel
  exact ⟨e, he, by omega⟩

end Snippet

end Gherkin
