import Gherkin.Proofs.Document.Indent
import Gherkin.Proofs.Element.Extract
import Gherkin.Proofs.Layout.RoundTrip

/-! Indented texts are read alike. The lines of a text that is indented belong together as before,
also below the lines that a part of a feature is put behind, which are not indented with it. What is
taken out of the document has the same trace then. -/

open Gherkin.Document Gherkin.Document.Parser

namespace Gherkin

variable {w t t' code : Text} {d : Dialect}

/-! ### Lines of an indented text -/

theorem Vocabulary.kindOf_indented (v : Vocabulary) (hw : w.IsIndent) (h : Text.IndentedLine w t t') :
    v.kindOf t' = v.kindOf t := by
  cases h with
  | front => exact kindOf_append_of_blank hw.blank t
  | empty => rfl

namespace Line

variable {l l' : Line}

theorem Indented.demote (h : Indented w l l') (header : Option ℕ) :
    Indented w (Document.demote header l) (Document.demote header l') where
  number := by rw [number_demote, number_demote, h.number]
  kind := by
    unfold Document.demote
    rw [h.number, h.kind]
    cases hk : l.kind <;> simp only [h.kind, hk]
    split <;> simp only [h.kind, hk]
  raw := by
    rw [raw_demote, raw_demote]
    exact h.raw
  line := by
    rw [raw_demote]
    exact h.line
  blank hraw := by
    rw [raw_demote] at hraw
    rw [demote_of_ne (by simp [h.blank hraw]), h.blank hraw]

end Line

namespace Document

variable {ls ls' os : List Line}

theorem indented_linesAt (hw : w.IsSpacing) (v : Vocabulary) (n : ℕ) {ts ts' : List Text}
    (h : List.Forall₂ (Text.IndentedLine w) ts ts') (hline : ∀ t ∈ ts, '\n' ∉ t) :
    List.Forall₂ (Line.Indented w) (v.linesAt n ts) (v.linesAt n ts') := by
  induction h generalizing n with
  | nil => exact .nil
  | @cons t t' ts ts' ht _ ih =>
    obtain ⟨hhead, htail⟩ := List.forall_mem_cons.1 hline
    rw [Vocabulary.linesAt_cons, Vocabulary.linesAt_cons]
    refine .cons ⟨rfl, ?_, ht.dropReturn hw, fun hc => ?_, fun hraw => ?_⟩ (ih (n + 1) htail)
    · exact v.kindOf_indented hw.isIndent (ht.dropReturn hw)
    · exact hhead ((Text.dropReturn_prefix t).subset hc)
    · exact Vocabulary.kindOf_eq_blank_iff.2 (congrArg Text.trim hraw)

theorem indented_demote (h : List.Forall₂ (Line.Indented w) ls ls') (header : Option ℕ) :
    List.Forall₂ (Line.Indented w) (ls.map (demote header)) (ls'.map (demote header)) := by
  rw [List.forall₂_map_left_iff, List.forall₂_map_right_iff]
  exact h.imp fun _ _ hl => hl.demote header

theorem openingLanguage?_indented (h : List.Forall₂ (Line.Indented w) ls ls') :
    openingLanguage? ls' = openingLanguage? ls := by
  induction h with
  | nil => rfl
  | cons hl _ ih => rw [openingLanguage?, openingLanguage?, hl.kind, hl.number, ih]

/-- Lines that are indented, down to the headers that close the document. -/
inductive Shifted (w : Text) : List Line → List Line → Prop
  | close {closing : List Line}
    (h : ∀ l ∈ closing, ∃ block keyword name, l.kind = .header block keyword name) :
    Shifted w closing closing
  | cons {l l' : Line} {ls ls' : List Line} (head : Line.Indented w l l')
    (rest : Shifted w ls ls') : Shifted w (l :: ls) (l' :: ls')

namespace Shifted

theorem of_append {closing : List Line} (h : List.Forall₂ (Line.Indented w) ls ls')
    (hclose : ∀ l ∈ closing, ∃ block keyword name, l.kind = .header block keyword name) :
    Shifted w (ls ++ closing) (ls' ++ closing) := by
  induction h with
  | nil => exact .close hclose
  | cons head _ ih => exact .cons head ih

variable {p : LineKind → Bool}

/-- Just the headers that close the document are not indented. -/
theorem takeWhile (h : Shifted w ls ls')
    (hp : ∀ block keyword name, p (.header block keyword name) = false) :
    List.Forall₂ (Line.Indented w) (ls.takeWhile fun l => p l.kind)
      (ls'.takeWhile fun l => p l.kind) := by
  induction h with
  | @close ls h => cases ls with
    | nil => exact .nil
    | cons l ls =>
      obtain ⟨block, keyword, name, hl⟩ := h l List.mem_cons_self
      rw [List.takeWhile_cons, hl, hp]
      exact .nil
  | cons head _ ih =>
    rw [List.takeWhile_cons, List.takeWhile_cons, head.kind]
    split
    · exact .cons head ih
    · exact .nil

theorem dropWhile (h : Shifted w ls ls') (p : LineKind → Bool) :
    Shifted w (ls.dropWhile fun l => p l.kind) (ls'.dropWhile fun l => p l.kind) := by
  induction h with
  | close h => exact .close fun l hl => h l ((List.dropWhile_sublist _).subset hl)
  | cons head rest ih =>
    rw [List.dropWhile_cons, List.dropWhile_cons, head.kind]
    split
    · exact ih
    · exact .cons head rest

theorem level_described (hw : w.IsIndent) (block : Block) (h : Shifted w ls ls') :
    Level (described block ls) (described block ls') :=
  ⟨w, hw, takeWhile (p := fun k => !endsDescription block k) (h.dropWhile (· = .blank))
    fun _ _ _ => rfl⟩

/-- A doc string is closed by a line that is indented. -/
theorem content (h : Shifted w ls ls') {fence : Fence} (hclose : ∃ m ∈ ls, isFence fence m.kind) :
    List.Forall₂ (Line.Indented w) (content fence ls) (content fence ls') := by
  induction h with
  | close h =>
    obtain ⟨m, hm, hfence⟩ := hclose
    obtain ⟨block, keyword, name, hk⟩ := h m hm
    rw [hk] at hfence
    cases hfence
  | @cons l l' ls ls' head _ ih =>
    rw [Document.content, Document.content, List.takeWhile_cons, List.takeWhile_cons, head.kind]
    cases hl : isFence fence l.kind with
    | true => exact .nil
    | false =>
      obtain ⟨m, hm, hfence⟩ := hclose
      rcases List.mem_cons.1 hm with rfl | hm
      · rw [hl] at hfence
        cases hfence
      · exact .cons head (ih ⟨m, hm, hfence⟩)

theorem alike (hw : w.IsIndent) (h : Shifted w ls ls') : Alike ls ls' := by
  induction h with
  | @close closing h =>
    induction closing with
    | nil => exact .nil
    | cons l ls ih =>
      obtain ⟨⟨block, keyword, name, hl⟩, hrest⟩ := List.forall_mem_cons.1 h
      refine .cons ⟨rfl, rfl, rfl⟩ (fun block _ _ _ => ?_) (fun _ _ hk => ?_) (ih hrest)
      · exact (close hrest).level_described hw block
      · rw [hl] at hk
        cases hk
  | cons head rest ih =>
    refine .cons (head.same hw) (fun block _ _ _ => rest.level_described hw block)
      (fun fence contentType hk => ⟨w, hw, ?_, fun hclose => rest.content hclose⟩) ih
    exact head.indent hw (by simp [hk])

end Shifted

/-! ### Lines around a text -/

/-- Kinds of lines that stand in front of others: no doc string is open after them, and what stands
under the last header alone is its description. -/
structure Opens (ks : List LineKind) : Prop where
  fence : ∀ k ∈ ks, ∀ fence contentType, k ≠ .fence fence contentType
  chain : ks.IsChain fun k m => ∀ block keyword name, k = .header block keyword name →
    endsDescription block m

theorem described_of_ends {block : Block} {l : Line} (h : endsDescription block l.kind)
    (ls : List Line) : described block (l :: ls) = [] := by
  have hblank : l.kind ≠ .blank := by
    rintro hk
    rw [hk] at h
    cases h
  rw [described, List.dropWhile_cons_of_neg (by simpa using hblank),
    List.takeWhile_cons_of_neg (by simp [h])]

/-- The lines in front need not be indented with the others. -/
theorem Shifted.alike_append (hw : w.IsIndent) (h : Shifted w ls ls')
    (hopen : Opens (os.map Line.kind)) : Alike (os ++ ls) (os ++ ls') := by
  induction os with
  | nil => exact h.alike hw
  | cons l os ih =>
    obtain ⟨hfence, hchain⟩ := hopen
    rw [List.map_cons] at hfence hchain
    obtain ⟨hl, hfence⟩ := List.forall_mem_cons.1 hfence
    rw [List.cons_append, List.cons_append]
    refine .cons ⟨rfl, rfl, rfl⟩ (fun block keyword name hk => ?_)
      (fun fence contentType hk => absurd hk (hl fence contentType)) (ih ⟨hfence, hchain.of_cons⟩)
    cases os with
    | nil => exact h.level_described hw block
    | cons m os =>
      have hends := (List.isChain_cons_cons.1 hchain).1 block keyword name hk
      rw [List.cons_append, List.cons_append, described_of_ends hends, described_of_ends hends]
      exact ⟨[], .nil, .nil⟩

end Document

/-! ### Texts around a text -/

namespace Snippet

variable {k : Snippet}

/-- Every text that is not a feature of its own is put behind a language header and lines that do not
belong with it. -/
theorem exists_opening (hd : d.Sound) (code : Text) (hk : k ≠ feature) : ∃ before,
    k.opening code d = languageLine code :: before ∧ (∀ t ∈ before, t.IsLine) ∧
      Opens (.language code :: before.map d.vocabulary.plainKind) := by
  have hfeature := plainKind_featureLine hd
  cases k with
  | feature => exact absurd rfl hk
  | background | scenario | outline =>
    exact ⟨_, rfl, (frames_background hd code).line, by simp [hfeature], by simp [hfeature]⟩
  | «example» =>
    have houtline : d.vocabulary.plainKind (d.outlineKeyword ++ [':']) = _ :=
      Vocabulary.plainKind_nameLine hd .outline Text.trim_nil
    obtain ⟨keyword, text, hgiven⟩ := exists_plainKind_givenLine hd
    refine ⟨_, rfl, (frames_example hd code).line, ?_⟩
    simp only [List.map_cons, List.map_nil, hfeature, houtline, hgiven]
    refine ⟨by simp, .cons_cons (by simp) (.cons_cons (by simp [endsDescription])
      (.cons_cons ?_ (.singleton _)))⟩
    rintro block _ _ ⟨rfl, rfl, rfl⟩
    rfl
  | step =>
    have hscenario : d.vocabulary.plainKind (d.scenarioKeyword ++ [':']) = _ :=
      Vocabulary.plainKind_nameLine hd .scenario Text.trim_nil
    exact ⟨_, rfl, (frames_step hd code).line, by simp [hfeature, hscenario],
      by simp [hfeature, hscenario, endsDescription]⟩
  | tag | comment => exact ⟨[], rfl, by simp, by simp, by simp⟩

theorem closing_cases (k : Snippet) (d : Dialect) : k.closing d = [] ∨ k.closing d = [featureLine d] := by
  cases k <;> simp [closing]

/-- The lines of a text with others around it. -/
theorem lines_wrap (hcode : Dialect.get? code = some d) (hk : k ≠ feature) (source : Text) :
    (k.wrap code d source).lines = k.opening code d ++ (source.lines ++ k.closing d) := by
  have hd := Dialect.sound_of_get? hcode
  obtain ⟨before, hopening, hbefore, -⟩ := exists_opening hd code hk
  have hopen : ∀ t ∈ k.opening code d, '\n' ∉ t := by
    rw [hopening]
    exact List.forall_mem_cons.2 ⟨(isLine_languageLine hcode).1, fun t ht => (hbefore t ht).1⟩
  have hclose : ∀ t ∈ k.closing d, '\n' ∉ t := by
    rcases closing_cases k d with h | h <;> rw [h]
    · simp
    · exact fun t ht => ((holds_featureLine hd).line t ht).1
  rw [wrap, Text.lines_unlines_eq_flatMap (by simp), List.flatMap_append, List.flatMap_cons,
    Text.flatMap_lines_eq_self hopen, Text.flatMap_lines_eq_self hclose]

/-- The text is read in the dialect of the header in front of it. -/
theorem parse_wrap (hcode : Dialect.get? code = some d) (hk : k ≠ feature) (source : Text) :
    Document.parse code (k.wrap code d source) =
      Parser.document code (linesIn d (some 1) (k.wrap code d source)) := by
  obtain ⟨before, hopening, -⟩ := exists_opening (Dialect.sound_of_get? hcode) code hk
  have hfront : (k.wrap code d source).lines =
      languageLine code :: (before ++ (source.lines ++ k.closing d)) := by
    rw [lines_wrap hcode hk, hopening, List.cons_append]
  exact parse_of_languageLine hcode hcode hfront

theorem linesIn_wrap (hcode : Dialect.get? code = some d) (hk : k ≠ feature) (source : Text) :
    linesIn d (some 1) (k.wrap code d source) =
      (d.vocabulary.linesAt 0 (k.opening code d)).map (demote (some 1)) ++
        ((d.vocabulary.linesAt (k.opening code d).length source.lines).map (demote (some 1)) ++
          (d.vocabulary.linesAt ((k.opening code d).length + source.lines.length)
            (k.closing d)).map (demote (some 1))) := by
  rw [linesIn, Vocabulary.classify_eq, lines_wrap hcode hk, Vocabulary.linesAt_append,
    Vocabulary.linesAt_append, List.map_append, List.map_append, Nat.zero_add]

theorem kinds_opening (hcode : Dialect.get? code = some d) (hk : k ≠ feature) :
    Opens (((d.vocabulary.linesAt 0 (k.opening code d)).map (demote (some 1))).map Line.kind) := by
  obtain ⟨before, hopening, hbefore, hopens⟩ :=
    exists_opening (Dialect.sound_of_get? hcode) code hk
  have hwritten : Written d.vocabulary [] before
      ((d.vocabulary.linesAt 1 before).map (demote (some 1))) :=
    written_linesAt d.vocabulary (by simp) hbefore
  rw [hopening, linesAt_languageLine hcode, List.map_cons, List.map_cons, hwritten.map_kind]
  simpa [demote] using hopens

theorem kinds_closing (hd : d.Sound) (k : Snippet) {n : ℕ} (hn : 1 ≤ n) :
    ∀ l ∈ (d.vocabulary.linesAt n (k.closing d)).map (demote (some 1)),
      ∃ block keyword name, l.kind = .header block keyword name := by
  rcases closing_cases k d with hclosing | hclosing <;> rw [hclosing]
  · simp [Vocabulary.linesAt]
  · have hwritten : Written d.vocabulary [] [featureLine d]
        ((d.vocabulary.linesAt n [featureLine d]).map (demote (some 1))) :=
      written_linesAt d.vocabulary (by simpa using hn) (holds_featureLine hd).line
    intro l hl
    obtain ⟨t, ht, -, hkind⟩ := hwritten.exists_of_mem hl
    rw [List.mem_singleton.1 ht, plainKind_featureLine hd] at hkind
    exact ⟨_, _, _, hkind⟩

end Snippet

/-! ### Reading -/

variable (hw : w.IsSpacing) (h : Text.Indented w t t')

include hw h

theorem Document.indented_classify (v : Vocabulary) :
    List.Forall₂ (Line.Indented w) (v.classify t) (v.classify t') := by
  rw [Vocabulary.classify_eq, Vocabulary.classify_eq]
  exact indented_linesAt hw v 0 h fun _ hl => Text.not_mem_lines hl

theorem Document.parse_indented (n : ℕ) (code : Text) :
    (Document.parse code t').map (Document.traced n) =
      (Document.parse code t).map (Document.traced n) := by
  cases hcode : Dialect.get? code with
  | none => simp only [Document.parse, hcode]
  | some fallback =>
    have hopening := openingLanguage?_indented (indented_classify hw h fallback.vocabulary)
    obtain ⟨number, declared, -, -, hparse⟩ | ⟨language, d, header, -, -, hparse⟩ :=
      parse_cases hcode t
    · rw [hparse t rfl, hparse t' hopening]
    · rw [hparse t rfl, hparse t' hopening]
      have hlines : List.Forall₂ (Line.Indented w) (linesIn d header t) (linesIn d header t') :=
        indented_demote (indented_classify hw h d.vocabulary) header
      have hshift := Shifted.of_append hlines (List.forall_mem_nil _)
      rw [List.append_nil, List.append_nil] at hshift
      exact document_alike n language (hshift.alike hw.isIndent)

/-- The lines of a text, but not those around it, are indented. -/
theorem Snippet.parse_indented {k : Snippet} (n : ℕ) (hcode : Dialect.get? code = some d) :
    (Document.parse code (k.wrap code d t')).map (Document.traced n) =
      (Document.parse code (k.wrap code d t)).map (Document.traced n) := by
  by_cases hk : k = feature
  · have hwrap (u : Text) : k.wrap code d u = u := by
      rw [hk]
      exact @Text.joinWith_singleton '\n' u
    rw [hwrap, hwrap]
    exact Document.parse_indented hw h n code
  · have hindented := indented_demote (indented_linesAt hw d.vocabulary (k.opening code d).length h
      fun _ hl => Text.not_mem_lines hl) (some 1)
    have hclosing := kinds_closing (Dialect.sound_of_get? hcode) k
      (n := (k.opening code d).length + t.lines.length) (by
        have := List.length_pos_iff.2 (Text.lines_ne_nil t)
        omega)
    rw [parse_wrap hcode hk, parse_wrap hcode hk, linesIn_wrap hcode hk, linesIn_wrap hcode hk,
      ← h.length_eq]
    exact document_alike n code ((Shifted.of_append hindented hclosing).alike_append hw.isIndent
      (kinds_opening hcode hk))

/-- What is read from an indented text has the trace that it has without the indentation. -/
theorem Snippet.readWith_indented {α : Type} {k : Snippet} {ofData : Excerpt → Data → α}
    {trace : α → α} {view : ℕ → Option Gherkin.Feature × List Document.Comment → Option α}
    (hview : ∀ n, k.Traces ofData trace n (view n)) (absent : α) (code : Text) :
    (k.readWith ofData absent code t').map trace = (k.readWith ofData absent code t).map trace := by
  unfold readWith read
  cases hcode : Dialect.get? code with
  | none => rfl
  | some d =>
    simp only [Document.read]
    obtain ⟨e, he', he⟩ | ⟨doc', doc, hdoc', hdoc, htraced⟩ := cases_of_map_eq
      (parse_indented (k := k) hw h (k.opening code d).length hcode)
    · rw [he, he']
      rfl
    · rw [hdoc, hdoc']
      have hpart := (hview _ (.whole t') doc').trans
        ((congrArg _ htraced).trans (hview _ (.whole t) doc).symm)
      simp only [Except.map]
      cases hx : k.extract? (Normal.document doc.toData) with
      | none =>
        cases hx' : k.extract? (Normal.document doc'.toData) with
        | none => by_cases hk : k = feature <;> simp only [hk, if_true, if_false]
        | some x' => simp [hx, hx'] at hpart
      | some x =>
        cases hx' : k.extract? (Normal.document doc'.toData) with
        | none => simp [hx, hx'] at hpart
        | some x' =>
          rw [hx, hx'] at hpart
          exact congrArg Except.ok (Option.some.inj hpart)

theorem FeatureFile.parse_indented (code path : Text) :
    (FeatureFile.parse code path t').map FeatureFile.trace =
      (FeatureFile.parse code path t).map FeatureFile.trace := by
  unfold FeatureFile.parse Document.read
  obtain ⟨e, he', he⟩ | ⟨doc', doc, hdoc', hdoc, htraced⟩ :=
    cases_of_map_eq (Document.parse_indented hw h 0 code)
  · rw [he, he']
    rfl
  · rw [hdoc, hdoc']
    have hfeature := (Snippet.traces_feature 0 (.whole t') doc').trans
      ((congrArg Prod.fst htraced).trans (Snippet.traces_feature 0 (.whole t) doc).symm)
    simp only [Snippet.extract?, Data.lowerLines_zero] at hfeature
    simp only [Except.map, FeatureFile.trace, Option.map_map, Function.comp_def, hfeature]

omit hw h in
theorem Element.map_trace_congr {α : Type} {trace : α → α} {x x' : Except ParseError α}
    (make : α → Element) (h : x'.map trace = x.map trace)
    (hmake : ∀ a, (make a).trace = make (trace a)) :
    some ((x'.map make).map Element.trace) = some ((x.map make).map Element.trace) := by
  obtain ⟨e, rfl, rfl⟩ | ⟨a', a, rfl, rfl, ha⟩ := cases_of_map_eq h
  · rfl
  · exact congrArg (some ∘ Except.ok) (by rw [hmake, hmake, ha])

/-- Whatever is read from a text, an indented text is refused for the same reason, or what is read
from it has the same trace. -/
theorem Element.parse?_indented (k : Kind) (code path : Text) :
    (Element.parse? k code path t').map (Except.map Element.trace) =
      (Element.parse? k code path t).map (Except.map Element.trace) := by
  cases k with
  | directory => rfl
  | featureFile =>
    exact map_trace_congr .featureFile (FeatureFile.parse_indented hw h code path) fun _ => rfl
  | feature =>
    exact map_trace_congr .feature
      (Snippet.readWith_indented hw h Snippet.traces_feature {} code) fun _ => rfl
  | background =>
    exact map_trace_congr .background
      (Snippet.readWith_indented hw h Snippet.traces_background {} code) fun _ => rfl
  | scenario =>
    exact map_trace_congr .scenario
      (Snippet.readWith_indented hw h Snippet.traces_scenario {} code) fun _ => rfl
  | outline =>
    exact map_trace_congr .outline
      (Snippet.readWith_indented hw h Snippet.traces_outline {} code) fun _ => rfl
  | «example» =>
    exact map_trace_congr .example
      (Snippet.readWith_indented hw h Snippet.traces_example {} code) fun _ => rfl
  | step =>
    exact map_trace_congr .step
      (Snippet.readWith_indented hw h Snippet.traces_step {} code) fun _ => rfl
  | tag =>
    exact map_trace_congr .tag
      (Snippet.readWith_indented hw h Snippet.traces_tag {} code) fun _ => rfl
  | comment =>
    exact map_trace_congr .comment
      (Snippet.readWith_indented hw h Snippet.traces_comment {} code) fun _ => rfl

/-- Indenting a text changes nothing about how it is read. It is refused where and as it was, or it
gives an element that is equal to the other, has the same attributes, parts and lines, and renders
alike in every style. -/
theorem Element.parse_of_indented (k : Kind) (code path : Text) :
    (∀ e, Element.parse? k code path t' = some (.error e) ↔
      Element.parse? k code path t = some (.error e)) ∧
    ∀ x x', Element.parse? k code path t = some (.ok x) →
      Element.parse? k code path t' = some (.ok x') →
      x'.trace = x.trace ∧ x'.equal x ∧ ∀ s : Style, s.render x' = s.render x := by
  have hsame := Element.parse?_indented hw h k code path
  refine ⟨fun e => ?_, fun x x' hx hx' => ?_⟩
  · have hrefused (y : Option (Except ParseError Element)) :
        y.map (Except.map Element.trace) = some (.error e) ↔ y = some (.error e) := by
      rcases y with _ | _ | _ <;> simp [Except.map]
    rw [← hrefused, hsame, hrefused]
  · rw [hx, hx'] at hsame
    have htrace : x'.trace = x.trace := Except.ok.inj (Option.some.inj hsame)
    have hforget : x'.forget = x.forget := by
      rw [← x'.forget_trace, htrace, x.forget_trace]
    refine ⟨htrace, Element.equal_of_forget hforget, fun s => ?_⟩
    rw [← s.render_forget x', hforget, s.render_forget]

omit hw h

/-- A doc string with a line that stands before its fence. -/
theorem Element.parse_of_indented_docString :
    let w : Text := [' ', '\t']
    let t : Text := "Feature: a\nScenario: b\n* c\n  \"\"\"\n d\n\n  \"\"\"".toList
    let t' := Text.unlines (t.lines.map (w ++ ·))
    w.IsSpacing ∧ w.Indented t t' ∧
      ∃ x x', Element.parse? .feature Dialect.defaultCode [] t = some (.ok x) ∧
        Element.parse? .feature Dialect.defaultCode [] t' = some (.ok x') ∧
        x'.trace = x.trace ∧ x'.equal x ∧ ∀ s : Style, s.render x' = s.render x := by
  intro w t t'
  have hblank : ∀ c ∈ [' ', '\t'], c = ' ' ∨ c = '\t' := by simp
  have hw : w.IsSpacing := hblank
  have h : w.Indented t t' := hw.isIndent.indented t
  have hread {u : Text} (hok : (Feature.parse Dialect.defaultCode u).isOk = true) :
      ∃ x, Element.parse? .feature Dialect.defaultCode [] u = some (.ok x) := by
    cases hparse : Feature.parse Dialect.defaultCode u with
    | error e => simp [hparse, Except.isOk, Except.toBool] at hok
    | ok f => exact ⟨.feature f, by rw [Element.parse?, hparse]; rfl⟩
  obtain ⟨x, hx⟩ := hread (u := t) (by decide +kernel)
  obtain ⟨x', hx'⟩ := hread (u := t') (by decide +kernel)
  exact ⟨hw, h, x, x', hx, hx',
    (Element.parse_of_indented hw h .feature Dialect.defaultCode []).2 x x' hx hx'⟩

end Gherkin
