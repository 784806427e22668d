import Gherkin.Proofs.Document.Recount
import Gherkin.Proofs.Element.Indent
import Gherkin.Proofs.Element.Part

/-! Where the parts of a text's node come from. A node that is taken out of the document around a
text has no part on the lines that were put around it, since none of these is of a kind that such a
node or a part of it stands on. So with its lines counted from the text, each part shows what lines
of the text say. -/

open Gherkin.Document Gherkin.Document.Parser

namespace Gherkin

variable {code source : Text} {d : Dialect} {ls : List Line}

/-! ### Runs of lines -/

theorem exists_append_of_not_mem {as before more : List Line} {l : Line} {rest : List Line}
    (h : before ++ more = as ++ l :: rest) (hl : l ∉ before) :
    ∃ bs, as = before ++ bs ∧ more = bs ++ l :: rest := by
  rcases List.append_eq_append_iff.1 h with ⟨bs, rfl, rfl⟩ | ⟨bs, rfl, hrest⟩
  · exact ⟨bs, rfl, rfl⟩
  · cases bs with
    | nil => exact ⟨[], by simp, by simpa using hrest.symm⟩
    | cons m bs =>
      obtain ⟨rfl, -⟩ := List.cons.inj hrest
      simp at hl

/-- A run of lines between others that starts at none of these, if it does not go on to the ones
after. -/
theorem infix_of_between {before lines after : List Line} {l : Line} {body : List Line}
    (h : l :: body <:+: before ++ (lines ++ after)) (hbefore : l ∉ before) (hafter : l ∉ after)
    (hbody : after = [] ∨ body = []) : l :: body <:+: lines := by
  obtain ⟨as, bs, hsplit⟩ := h
  rw [List.append_assoc, List.cons_append] at hsplit
  obtain ⟨cs, -, hlines⟩ := exists_append_of_not_mem hsplit.symm hbefore
  rcases hbody with rfl | rfl
  · rw [List.append_nil] at hlines
    exact ⟨cs, bs, by rw [hlines, List.append_assoc, List.cons_append]⟩
  · obtain hmem : l ∈ lines ++ after := by simp [hlines]
    obtain ⟨cs, ds, rfl⟩ := List.append_of_mem ((List.mem_append.1 hmem).resolve_right hafter)
    exact isInfix_singleton cs ds

/-! ### Counting from the text -/

namespace Line

/-- The line, counted from `n` on and below every language header. -/
def lowered (n : ℕ) (l : Line) : Line := ⟨l.number - n, l.raw, l.kind.demoted⟩

theorem recounts_lowered (n : ℕ) : Recounts (lowered n) := ⟨fun _ => rfl, fun _ => rfl⟩

end Line

namespace Document

theorem demote_eq {header : Option ℕ} {l : Line} (h : some l.number ≠ header) :
    demote header l = ⟨l.number, l.raw, l.kind.demoted⟩ := by
  obtain ⟨number, raw, kind⟩ := l
  cases kind <;> simp_all [demote, LineKind.demoted]

theorem demoted_demoted (k : LineKind) : k.demoted.demoted = k.demoted := by cases k <;> rfl

/-- The lines of a text below a language header are its lines, counted on. -/
theorem map_lowered (d : Dialect) {n : ℕ} (hn : 1 ≤ n) (source : Text) :
    ((d.vocabulary.linesAt n source.lines).map (demote (some 1))).map (Line.lowered n) =
      linesIn d none source := by
  rw [linesIn, Vocabulary.classify_eq]
  refine List.ext_getElem (by simp) fun i hi _ => ?_
  simp only [List.getElem_map, Vocabulary.linesAt, List.getElem_mapIdx]
  rw [demote_eq (by simp; omega), demote_eq (by simp), Line.lowered, demoted_demoted]
  congr 1
  dsimp only
  omega

end Document

/-- What a line says about data does not depend on how it is counted. -/
theorem Data.Shows.map {g : Line → Line} (hg : Recounts g) {p : Data} (h : p.Shows ls) :
    p.Shows (ls.map g) := by
  cases h with
  | header hl hb htype hkeyword hname hdescription =>
    refine .header (hg.kind_of_ne hl (by simp)) (List.forall_mem_map.2 fun x hx => ?_) htype hkeyword
      hname (hdescription.trans ?_)
    · rw [hg.endsDescription_kind, hb x hx]
    · rw [hg.descriptionText_map]
  | step hl htype hkeyword htext =>
    exact .step (hg.kind_of_ne hl (by simp)) htype hkeyword htext
  | table hl htype => exact .table (hg.kind_of_ne hl (by simp)) htype
  | @row l p hl htype hcells =>
    have hvalues := congrArg (List.map some)
      (Cell.map_value_split_eq l.text l.location (g l).location)
    rw [List.map_map, List.map_map] at hvalues
    refine .row (hg.kind_of_ne hl (by simp)) htype (hcells.trans ?_)
    rw [hg.text]
    exact hvalues
  | @docString l body fence contentType p hl hb htype hcontentType hcontent =>
    refine .docString (hg.kind_of_ne hl (by simp)) (List.forall_mem_map.2 fun x hx => ?_) htype
      hcontentType (hcontent.trans ?_)
    · rw [hg.isFence_kind, hb x hx]
    · rw [hg.indent, hg.map_contentLine]
  | @tag l found t p hl hf ht htype hname =>
    obtain ⟨found', hfound, hnames⟩ := LocatedTag.exists_split_of_split hf (g l).location
    have hmem : t.name ∈ found'.map LocatedTag.name := hnames ▸ List.mem_map_of_mem ht
    obtain ⟨t', ht', hsame⟩ := List.mem_map.1 hmem
    rw [← hg.text l] at hfound
    exact .tag (hg.kind_of_ne hl (by simp)) hfound ht' htype (hname.trans hsame.symm)
  | @comment l p hl htype htext =>
    exact .comment (hg.kind_of_ne hl (by simp)) htype (htext.trans (hg.text l).symm)

namespace Snippet

variable {k : Snippet}

/-! ### Lines around a text -/

/-- The kinds of line that a node and its parts stand on. -/
def takes (k : Snippet) : LineKind → Bool
  | .header .background .. => k = background
  | .header .scenario .. => k = scenario
  | .header .outline .. => k = outline
  | .header .examples .. => k = outline ∨ k = .example
  | .step .. | .fence .. => k = background ∨ k = scenario ∨ k = outline ∨ k = step
  | .row => k = background ∨ k = scenario ∨ k = outline ∨ k = step ∨ k = .example
  | .tags => k = scenario ∨ k = outline ∨ k = .example ∨ k = tag
  | .comment => k = comment
  | _ => false

/-- The lines before a text are of other kinds than its node. -/
theorem takes_opening (hcode : Dialect.get? code = some d) (hk : k ≠ feature) :
    ∀ l ∈ (d.vocabulary.linesAt 0 (k.opening code d)).map (demote (some 1)),
      k.takes l.kind = false := by
  have hd := Dialect.sound_of_get? hcode
  obtain ⟨before, hopening, hbefore, -⟩ := exists_opening hd code hk
  have hwritten : Written d.vocabulary [] before
      ((d.vocabulary.linesAt 1 before).map (demote (some 1))) :=
    written_linesAt d.vocabulary (by simp) hbefore
  have hfeature := plainKind_featureLine hd
  have hplain : ∀ t ∈ before, k.takes (d.vocabulary.plainKind t) = false := by
    cases k with
    | feature => exact absurd rfl hk
    | background | scenario | outline =>
      obtain ⟨-, rfl⟩ := List.cons.inj hopening
      simp [hfeature, takes]
    | «example» =>
      have houtline : d.vocabulary.plainKind (d.outlineKeyword ++ [':']) = _ :=
        Vocabulary.plainKind_nameLine hd .outline Text.trim_nil
      obtain ⟨keyword, text, hgiven⟩ := exists_plainKind_givenLine hd
      obtain ⟨-, rfl⟩ := List.cons.inj hopening
      simp only [List.forall_mem_cons, hfeature, houtline, hgiven]
      simp [takes]
    | step =>
      have hscenario : d.vocabulary.plainKind (d.scenarioKeyword ++ [':']) = _ :=
        Vocabulary.plainKind_nameLine hd .scenario Text.trim_nil
      obtain ⟨-, rfl⟩ := List.cons.inj hopening
      simp [hfeature, hscenario, takes]
    | tag | comment =>
      obtain ⟨-, rfl⟩ := List.cons.inj hopening
      simp
  rw [hopening, linesAt_languageLine hcode, List.map_cons]
  refine List.forall_mem_cons.2 ⟨rfl, fun l hl => ?_⟩
  obtain ⟨t, ht, -, hkind⟩ := hwritten.exists_of_mem hl
  rw [hkind, hplain t ht]

theorem takes_closing (hd : d.Sound) (k : Snippet) {n : ℕ} (hn : 1 ≤ n) :
    ∀ l ∈ (d.vocabulary.linesAt n (k.closing d)).map (demote (some 1)),
      k.takes l.kind = false := by
  rcases closing_cases k d with hclosing | hclosing <;> rw [hclosing]
  · simp [Vocabulary.linesAt]
  · have hwritten : Written d.vocabulary [] [featureLine d]
        ((d.vocabulary.linesAt n [featureLine d]).map (demote (some 1))) :=
      written_linesAt d.vocabulary (by simpa using hn) (holds_featureLine hd).line
    intro l hl
    obtain ⟨t, ht, -, hkind⟩ := hwritten.exists_of_mem hl
    rw [List.mem_singleton.1 ht, plainKind_featureLine hd] at hkind
    rw [hkind]
    rfl

/-- Where lines follow a text, its node has no part with a description or a content. -/
theorem body_eq_nil {l : Line} {body : List Line} {p : Data} (hclosing : k.closing d ≠ [])
    (hl : k.takes l.kind) (h : p.Shows (l :: body)) : body = [] := by
  cases k with
  | tag | comment =>
    cases h with
    | @header _ _ block _ _ _ hkind => cases block <;> simp [hkind, takes] at hl
    | docString hkind => simp [hkind, takes] at hl
    | _ => rfl
  | _ => exact absurd rfl hclosing

/-! ### Taking a part out -/

/-- The nodes of a document's feature stand where those of the document do. -/
theorem standing_of_present {doc : Document} {node : Data} (h : Standing ls doc.nodes)
    (hnode : (Normal.document doc.toData).present? "feature" = some node) :
    ∃ f : Document.Feature, node = f.normal doc.comments ∧ Standing ls f.nodes := by
  rw [present?_feature] at hnode
  obtain ⟨f, hf, rfl⟩ := Option.map_eq_some_iff.1 hnode
  exact ⟨f, rfl, h.of_append.1.of_flatMap f (by simp [hf])⟩

theorem standing_firstTest {doc : Document} {node : Data} (h : Standing ls doc.nodes)
    (hfirst : firstTest? (Normal.document doc.toData) = some node) :
    (∃ x, node = Normal.scenario (Child.scenario x).toData ∧
        Standing ls (Child.scenario x).nodes) ∨
      ∃ x, node = Normal.outline (Child.outline x).toData ∧
        Standing ls (Child.outline x).nodes := by
  obtain ⟨feature, hfeature, htests⟩ := Option.bind_eq_some_iff.1 hfirst
  obtain ⟨f, rfl, hf⟩ := standing_of_present h hfeature
  rw [itemsAt_elements] at htests
  obtain ⟨c, hc, htest⟩ := List.mem_filterMap.1 (List.mem_of_head? htests)
  have hnodes := hf.of_append.2.of_cons.of_flatMap c hc
  rw [test?_toData] at htest
  cases c with
  | background => cases htest
  | scenario x => exact .inl ⟨x, (Option.some.inj htest).symm, hnodes⟩
  | outline x => exact .inr ⟨x, (Option.some.inj htest).symm, hnodes⟩

/-- The node is the normal form of one of the kind, with nodes that stand on these lines. -/
def Taken (ls : List Line) (node : Data) : Snippet → Prop
  | feature => False
  | background => ∃ b : Document.Background,
      node = Normal.background (Child.background b).toData ∧ Standing ls b.nodes
  | scenario => ∃ x : Document.Scenario,
      node = Normal.scenario (Child.scenario x).toData ∧ Standing ls (Child.scenario x).nodes
  | outline => ∃ x : Document.Outline,
      node = Normal.outline (Child.outline x).toData ∧ Standing ls (Child.outline x).nodes
  | .example => ∃ x : Document.Examples, node = Normal.examples x.toData ∧ Standing ls x.nodes
  | step => ∃ e : Document.Step, node = Normal.step e.toData ∧ Standing ls e.nodes
  | tag => ∃ t : LocatedTag, node = Normal.tag t.toData ∧ Standing ls [.tag t]
  | comment => ∃ c : Document.Comment, node = Normal.comment c.toData ∧ Standing ls [.comment c]

theorem taken_of_extract {doc : Document} {node : Data} (hk : k ≠ feature)
    (h : Standing ls doc.nodes) (hnode : k.extract? (Normal.document doc.toData) = some node) :
    k.Taken ls node := by
  cases k with
  | feature => exact absurd rfl hk
  | background =>
    obtain ⟨feature, hfeature, hnode⟩ := Option.bind_eq_some_iff.1 hnode
    obtain ⟨f, rfl, hf⟩ := standing_of_present h hfeature
    rw [field?_background] at hnode
    obtain ⟨b, hb, rfl⟩ := Option.map_eq_some_iff.1 hnode
    obtain ⟨c, hc, hcb⟩ := List.exists_of_findSome?_eq_some hb
    cases c with
    | background b' =>
      obtain rfl := Option.some.inj hcb
      exact ⟨b', rfl, hf.of_append.2.of_cons.of_flatMap _ (List.mem_reverse.1 hc)⟩
    | scenario | outline => cases hcb
  | scenario =>
    obtain ⟨hfirst, htype⟩ := Option.filter_eq_some_iff.1 hnode
    obtain hx | ⟨x, rfl, -⟩ := standing_firstTest h hfirst
    · exact hx
    · have hother : (Normal.outline (Child.outline x).toData).hasType "Scenario" = false :=
        (hasType_heading _ _ _ _).trans (by decide)
      exact absurd htype (by simp [hother])
  | outline =>
    obtain ⟨hfirst, htype⟩ := Option.filter_eq_some_iff.1 hnode
    obtain ⟨x, rfl, -⟩ | hx := standing_firstTest h hfirst
    · exact absurd htype (by simp [hasType_scenario])
    · exact hx
  | «example» =>
    obtain ⟨t, hfirst, hblock⟩ := Option.bind_eq_some_iff.1 hnode
    obtain ⟨x, rfl, hx⟩ | ⟨x, rfl, hx⟩ := standing_firstTest h hfirst
    · have hnone : (Normal.scenario (Child.scenario x).toData).itemsAt "examples" = [] := by
        simp [Normal.scenario, Data.itemsAt, Data.field, lookup_heading, headingKeys,
          List.lookup_cons, Data.items]
      rw [hnone] at hblock
      cases hblock
    · rw [itemsAt_examples] at hblock
      obtain ⟨e, he, rfl⟩ := List.mem_map.1 (List.mem_of_head? hblock)
      exact ⟨e, rfl, hx.of_append.2.of_cons.of_append.2.of_flatMap e he⟩
  | step =>
    obtain ⟨t, hfirst, hstep⟩ := Option.bind_eq_some_iff.1 hnode
    obtain ⟨x, rfl, hx⟩ | ⟨x, rfl, hx⟩ := standing_firstTest h hfirst
    · rw [itemsAt_steps] at hstep
      obtain ⟨e, he, rfl⟩ := List.mem_map.1 (List.mem_of_head? hstep)
      exact ⟨e, rfl, hx.of_append.2.of_cons.of_flatMap e he⟩
    · rw [itemsAt_steps_outline] at hstep
      obtain ⟨e, he, rfl⟩ := List.mem_map.1 (List.mem_of_head? hstep)
      exact ⟨e, rfl, hx.of_append.2.of_cons.of_append.1.of_flatMap e he⟩
  | tag =>
    obtain ⟨feature, hfeature, hnode⟩ := Option.bind_eq_some_iff.1 hnode
    obtain ⟨f, rfl, hf⟩ := standing_of_present h hfeature
    rw [itemsAt_tags_feature] at hnode
    obtain ⟨t, ht, rfl⟩ := List.mem_map.1 (List.mem_of_head? hnode)
    exact ⟨t, rfl, hf.of_append.1.of_mem (List.mem_map_of_mem ht)⟩
  | comment =>
    have hcomments : (Normal.document doc.toData).itemsAt "comments" =
        doc.comments.map fun c => Normal.comment c.toData := by
      simp [Normal.document, Normal.each, Document.toData, Data.itemsAt, Data.field,
        List.lookup_cons, Data.items]
    rw [extract?, hcomments] at hnode
    obtain ⟨c, hc, rfl⟩ := List.mem_map.1 (List.mem_of_getLast? hnode)
    exact ⟨c, rfl, h.of_append.2.of_mem (List.mem_map_of_mem hc)⟩

theorem Taken.isSome_line? {node : Data} (h : k.Taken ls node) : node.line?.isSome := by
  cases k with
  | feature => exact absurd h id
  | background =>
    obtain ⟨b, rfl, -⟩ := h
    rw [line?_background, Option.isSome_some]
  | scenario =>
    obtain ⟨x, rfl, -⟩ := h
    rw [line?_scenario, Option.isSome_some]
  | outline =>
    obtain ⟨x, rfl, -⟩ := h
    rw [line?_outline, Option.isSome_some]
  | «example» =>
    obtain ⟨x, rfl, -⟩ := h
    rw [line?_examples, Option.isSome_some]
  | step =>
    obtain ⟨e, rfl, -⟩ := h
    rw [line?_step, Option.isSome_some]
  | tag =>
    obtain ⟨t, rfl, -⟩ := h
    rw [line?_tag, Option.isSome_some]
  | comment =>
    obtain ⟨c, rfl, -⟩ := h
    rw [line?_comment, Option.isSome_some]

/-- The parts of the node stand on lines of kinds that it takes. -/
theorem Taken.each {node : Data} (h : k.Taken ls node) : Data.Each (Shown k.takes ls) node := by
  cases k with
  | feature => exact absurd h id
  | background =>
    obtain ⟨b, rfl, hb⟩ := h
    exact each_background (by simp [takes]) (by simp [takes]) (by simp [takes]) hb (by simp [takes])
  | scenario =>
    obtain ⟨x, rfl, hx⟩ := h
    exact each_scenario (by simp [takes]) (by simp [takes]) (by simp [takes]) hx (by simp [takes])
      (by simp [takes])
  | outline =>
    obtain ⟨x, rfl, hx⟩ := h
    exact each_outline (by simp [takes]) (by simp [takes]) (by simp [takes]) hx (by simp [takes])
      (by simp [takes]) (by simp [takes])
  | «example» =>
    obtain ⟨x, rfl, hx⟩ := h
    exact each_examples hx (by simp [takes]) (by simp [takes]) (by simp [takes])
  | step =>
    obtain ⟨e, rfl, he⟩ := h
    exact each_step (by simp [takes]) (by simp [takes]) (by simp [takes]) he
  | tag =>
    obtain ⟨t, rfl, ht⟩ := h
    have htags : Standing ls ([t].map .tag) := ht
    exact each_tags htags (by simp [takes]) t (List.mem_singleton_self t)
  | comment =>
    obtain ⟨c, rfl, hc⟩ := h
    exact each_comment hc (by simp [takes])

/-! ### Texts -/

theorem read_eq_ok {r : Option Data} (hcode : Dialect.get? code = some d) (hk : k ≠ feature)
    (h : k.read code source = .ok r) :
    ∃ doc node, Document.parse code (k.wrap code d source) = .ok doc ∧
      k.extract? (Normal.document doc.toData) = some node ∧
      r = some (node.lowerLines (k.opening code d).length) := by
  simp only [read, hcode, Document.read] at h
  cases hparse : Document.parse code (k.wrap code d source) with
  | error failure =>
    rw [hparse] at h
    cases h
  | ok doc =>
    rw [hparse] at h
    refine ⟨doc, ?_⟩
    dsimp only [Except.map] at h
    split at h
    · next node hnode => exact ⟨node, rfl, hnode, (Except.ok.inj h).symm⟩
    · rw [if_neg hk] at h
      cases h

/-- A line that a part stands on is one of the text, and the lines it shows too. -/
theorem infix_of_wrap {l : Line} {body : List Line} {p : Data} (hcode : Dialect.get? code = some d)
    (hk : k ≠ feature) (hblock : l :: body <:+: linesIn d (some 1) (k.wrap code d source))
    (htakes : k.takes l.kind) (hshows : p.Shows (l :: body)) :
    (l :: body).map (Line.lowered (k.opening code d).length) <:+: linesIn d none source := by
  have hd := Dialect.sound_of_get? hcode
  have hopening : 1 ≤ (k.opening code d).length := by
    obtain ⟨before, hopening, -⟩ := exists_opening hd code hk
    simp [hopening]
  rw [linesIn_wrap hcode hk] at hblock
  have hbetween := infix_of_between hblock
    (fun hmem => by simp [takes_opening hcode hk l hmem] at htakes)
    (fun hmem => by simp [takes_closing hd k (by omega) l hmem] at htakes) ?_
  · rw [← map_lowered d hopening source]
    exact hbetween.map _
  · rcases closing_cases k d with hclosing | hclosing
    · exact .inl (by simp [hclosing, Vocabulary.linesAt])
    · have hne : k.closing d ≠ [] := by simp [hclosing]
      exact .inr (body_eq_nil hne htakes hshows)

theorem demoted_of_takes {kind : LineKind} (h : k.takes kind) : kind.demoted = kind := by
  cases kind <;> simp_all [takes, LineKind.demoted]

/-- Every part of a node that a text is read as has its place at a line of the text, counted from the
first one, which is of a kind that the node or a part of it stands on, and shows what this line and
the lines after it say. -/
theorem shows_of_read {r : Option Data} (hcode : Dialect.get? code = some d) (hk : k ≠ feature)
    (h : k.read code source = .ok r) :
    ∃ node, r = some node ∧ node.line?.isSome ∧
      ∀ p, Data.Part p node → (p.field? "location").isSome →
        ∃ i l body, l :: body <+: (linesIn d none source).drop i ∧ i < source.lines.length ∧
          p.line? = some (i + 1) ∧ k.takes l.kind ∧ p.Shows (l :: body) := by
  obtain ⟨doc, node, hparse, hnode, rfl⟩ := read_eq_ok hcode hk h
  rw [parse_wrap hcode hk] at hparse
  have htaken := taken_of_extract hk (standing_document (reading_of_document hparse)) hnode
  refine ⟨_, rfl, ?_, htaken.each.lowerLines fun p hp => ?_⟩
  · rw [Data.line?_lowerLines, Option.isSome_map]
    exact htaken.isSome_line?
  · obtain ⟨l, body, hblock, htakes, hline, hshows⟩ := hp
    obtain ⟨i, hget, hdrop⟩ := exists_drop_of_isInfix (infix_of_wrap hcode hk hblock htakes hshows)
    have hi := (List.getElem?_eq_some_iff.1 hget).1
    rw [length_linesIn] at hi
    refine ⟨i, l.lowered _, body.map (Line.lowered _), hdrop, hi, ?_, ?_,
      (hshows.lowerLines _).map (Line.recounts_lowered _)⟩
    · rw [Data.line?_lowerLines, hline, ← number_of_linesIn hget]
      rfl
    · rwa [Line.lowered, demoted_of_takes htakes]

/-- The line that the node of a text has, if the text is read. -/
def placedAt (k : Snippet) (code source : Text) : Option ℕ :=
  (k.read code source).toOption.join.bind Data.line?

theorem exists_ok_of_placedAt {n : ℕ} (h : k.placedAt code source = some n) :
    ∃ node, k.read code source = .ok (some node) ∧ node.line? = some n := by
  unfold placedAt at h
  match hread : k.read code source with
  | .error e => simp [hread, Except.toOption] at h
  | .ok none => simp [hread, Except.toOption] at h
  | .ok (some node) =>
    rw [hread] at h
    exact ⟨node, rfl, h⟩

/-- Two blocks of examples, of which the first one is read, below a comment and a tag. -/
theorem shows_of_read_blocks :
    let source : Text := "# c
@t
 Examples: e

  d
  | p |
  | 1 |
Examples:
| q |".toList
    ∃ node, Snippet.example.read Dialect.defaultCode source = .ok (some node) ∧
      node.line? = some 3 ∧
      ∀ p, Data.Part p node → (p.field? "location").isSome →
        ∃ i l body, l :: body <+: (linesIn Dialect.english none source).drop i ∧
          i < source.lines.length ∧ p.line? = some (i + 1) ∧ Snippet.example.takes l.kind ∧
          p.Shows (l :: body) := by
  intro source
  obtain ⟨node, hread, hline⟩ : ∃ node,
      Snippet.example.read Dialect.defaultCode source = .ok (some node) ∧ node.line? = some 3 :=
    exists_ok_of_placedAt (by decide +kernel)
  obtain ⟨node', hnode, -, hparts⟩ := shows_of_read (d := Dialect.english) rfl (by decide) hread
  obtain rfl := Option.some.inj hnode
  exact ⟨node, hread, hline, hparts⟩

end Snippet

end Gherkin
