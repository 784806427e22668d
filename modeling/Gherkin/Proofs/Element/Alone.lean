import Gherkin.Proofs.Element.Essence
import Gherkin.Proofs.Document.Account
import Gherkin.Proofs.Element.Image
import Gherkin.Proofs.Element.Placed

/-! Elements on their own. The text of a part of a feature, read by itself in the dialect that the
feature was read in, gives an element that is equal to the part and renders alike. -/

open Gherkin.Document

namespace Gherkin

/-! ### Parts of a feature -/

/-- A background and its steps. -/
def Background.elements (b : Background) : List Element := .background b :: b.steps.map .step

/-- A test, its steps and its examples. -/
def Test.elements : Test → List Element
  | .scenario s => .scenario s :: s.steps.map .step
  | .outline o => .outline o :: (o.steps.map .step ++ o.examples.map .example)

/-- The parts of a feature, tags aside. -/
def Feature.elements (f : Feature) : List Element :=
  f.background.toList.flatMap Background.elements ++ f.tests.flatMap Test.elements ++
    f.comments.map .comment

def Element.origin? : Element → Option Origin
  | .directory _ | .featureFile _ => none
  | .feature f => f.origin
  | .background b => b.origin
  | .scenario s => s.origin
  | .outline o => o.origin
  | .example e => e.origin
  | .step s => s.origin
  | .tag t => t.origin
  | .comment c => c.origin

/-- The element's own text is read as the element, but for the origins. -/
def Element.StandsAlone (code : Text) (e : Element) : Prop :=
  ∃ o, e.origin? = some o ∧ ∀ path, ∃ r, Element.parse? e.kind code path o.text = some (.ok r) ∧
    r.forget = e.forget ∧ r.equal e

variable {code : Text} {d : Dialect} {header : Option ℕ} {source : Text} {e : Excerpt}

theorem Element.StandsAlone.of_read {α : Type} {x : Element} {o : Origin}
    {read : Except ParseError α} {make : α → Element} {r : α} (ho : x.origin? = some o)
    (hparse : ∀ path, Element.parse? x.kind code path o.text = some (read.map make))
    (hread : read = .ok r) (hforget : (make r).forget = x.forget) (hequal : (make r).equal x) :
    x.StandsAlone code := by
  refine ⟨o, ho, fun path => ⟨make r, ?_, hforget, hequal⟩⟩
  rw [hparse path, hread]
  rfl

theorem placed_tests {tests : List Child} {ls : List Line} {cs : List Document.Comment}
    {es : List Excerpt} (h : Reading.Many Reading.Test ls tests cs)
    (hes : List.Forall₂ (Placed d header source Reading.Block) tests es) :
    List.Forall₂ (Placed d header source Reading.Test) tests es := by
  induction h generalizing es with
  | nil =>
    rw [List.forall₂_nil_left_iff.1 hes]
    exact .nil
  | cons ht _ ih =>
    obtain ⟨part, parts, ⟨core, ⟨hcore, cs, hblock⟩, hspans⟩, hparts, rfl⟩ :=
      List.forall₂_cons_left_iff.1 hes
    refine .cons ⟨core, ⟨hcore, cs, ?_⟩, hspans⟩ (ih hparts)
    cases hblock with
    | background => cases ht
    | test h => exact h

/-- Every test is in the normal form of its feature. -/
theorem nodes_of_tests {tests : List Child} {ls : List Line} {cs : List Document.Comment}
    (h : Reading.Many Reading.Test ls tests cs) :
    (tests.filterMap fun c => Normal.test? c.toData) = tests.map Child.node := by
  induction h with
  | nil => rfl
  | cons ht _ ih => cases ht <;> rw [List.filterMap_cons, test?_toData, ih, List.map_cons] <;> rfl

/-- The blocks of a feature in normal form, with the lines they are read from: tests alone, or a
background and then tests. -/
theorem blocks_cases (comments : List Document.Comment) {f : Document.Feature} {ls : List Line}
    {cs : List Document.Comment} (h : Reading.Children ls f.children cs) :
    ((f.normal comments).present? "background" = none ∧
        (f.normal comments).itemsAt "elements" = f.children.map Child.node ∧
        Reading.Many Reading.Test ls f.children cs) ∨
      ∃ as b bs bcs tests tcs, ls = as ++ bs ∧ f.children = .background b :: tests ∧
        (f.normal comments).present? "background" = some (Child.background b).node ∧
        (f.normal comments).itemsAt "elements" = tests.map Child.node ∧
        Reading.Background as b bcs ∧ Reading.Many Reading.Test bs tests tcs := by
  rw [present?_background, itemsAt_elements]
  generalize f.children = children at h
  cases h with
  | tests h =>
    rw [(image_of_tests h).1, nodes_of_tests h]
    exact .inl ⟨rfl, rfl, h⟩
  | @background as b bcs bs tests tcs hb h =>
    rw [List.reverse_cons, List.findSome?_append, (image_of_tests h).1, List.filterMap_cons,
      test?_toData, nodes_of_tests h]
    exact .inr ⟨as, b, bs, bcs, tests, tcs, rfl, rfl, rfl, rfl, hb, h⟩

/-- The comments of a document are read from its comment lines. -/
theorem exists_of_mem_comments {language : Text} {doc : Document}
    (h : Reading language (linesIn d header source) doc) {c : Document.Comment}
    (hc : c ∈ doc.comments) :
    ∃ l ∈ linesIn d header source, l.kind = .comment ∧ c = Parser.commentOf l := by
  obtain ⟨out, hledger⟩ := accounts_document h
  rw [hledger.comments] at hc
  obtain ⟨l, hl, rfl⟩ := List.mem_map.1 hc
  obtain ⟨hout, hk⟩ := List.mem_filter.1 hl
  rw [hledger.kept.eq_outside (pairwise_linesIn d header source)] at hout
  exact ⟨l, List.mem_of_mem_filter hout, of_decide_eq_true hk, rfl⟩

/-! ### Placed elements -/

/-- The element is that of a node in an excerpt that reaches over a core of the node. -/
inductive Element.IsPlaced (d : Dialect) (header : Option ℕ) (source : Text) : Element → Prop
  | background {b e} (h : Placed d header source Reading.Background b e) :
    IsPlaced d header source (.background (Background.ofData e (Child.background b).node))
  | scenario {s e} (h : Placed d header source (fun ls s => Reading.Test ls (.scenario s)) s e) :
    IsPlaced d header source (.scenario (Scenario.ofData e (Child.scenario s).node))
  | outline {o e} (h : Placed d header source (fun ls o => Reading.Test ls (.outline o)) o e) :
    IsPlaced d header source (.outline (Outline.ofData e (Child.outline o).node))
  | step {s e} (h : Placed d header source Reading.Step s e) :
    IsPlaced d header source (.step (Step.ofData e (Normal.step s.toData)))
  | «example» {x e} (h : Placed d header source Reading.Examples x e) :
    IsPlaced d header source (.example (Example.ofData e (Normal.examples x.toData)))

theorem isPlaced_steps {data : Data} {later : List Data} {steps : List Document.Step}
    (hsteps : data.itemsAt "steps" = steps.map fun s => Normal.step s.toData)
    (h : List.Forall₂ (Placed d header source Reading.Step) steps
      ((e.splitAt ((steps.map fun s => Normal.step s.toData) ++ later)).take steps.length)) :
    ∀ x ∈ (Step.listOfData e data later).map Element.step, x.IsPlaced d header source := by
  intro x hx
  obtain ⟨s, hs, rfl⟩ := List.mem_map.1 hx
  rw [Step.listOfData, hsteps, List.zipWith_map_left] at hs
  obtain ⟨node, part, hplaced, rfl⟩ := exists_of_mem_zipWith h hs
  exact .step hplaced

theorem isPlaced_examples {data : Data} {blocks : List Document.Examples}
    (hblocks : data.itemsAt "examples" = blocks.map fun x => Normal.examples x.toData)
    (h : List.Forall₂ (Placed d header source Reading.Examples) blocks
      (e.splitAt (blocks.map fun x => Normal.examples x.toData))) :
    ∀ x ∈ ((data.itemsAt "examples").zipWith (fun node part => Example.ofData part node)
      (e.splitAt (data.itemsAt "examples"))).map Element.example, x.IsPlaced d header source := by
  intro x hx
  obtain ⟨y, hy, rfl⟩ := List.mem_map.1 hx
  rw [hblocks, List.zipWith_map_left] at hy
  rw [← List.take_of_length_le (l := e.splitAt _) (i := blocks.length)
    (by simp [length_splitAt])] at h
  obtain ⟨node, part, hplaced, rfl⟩ := exists_of_mem_zipWith h hy
  exact .example hplaced

/-- The steps of a background get the excerpts of their cores. -/
theorem placed_steps_background {b : Document.Background} {ls : List Line}
    {cs : List Document.Comment} (h : Reading.Background ls b cs)
    (hspans : e.Spans d header source ls) :
    List.Forall₂ (Placed d header source Reading.Step) b.steps
      ((e.splitAt ((b.steps.map fun s => Normal.step s.toData) ++ [])).take b.steps.length) := by
  cases h with
  | @mk hs ss head steps _ _ hh hsteps =>
    rw [← List.append_nil ss] at hspans
    exact hspans.placed pares_step begins_step hsteps (.nil .nil) .nil

theorem placed_steps_scenario {s : Document.Scenario} {ls : List Line} {cs : List Document.Comment}
    (h : Reading.Test ls (.scenario s) cs) (hspans : e.Spans d header source ls) :
    List.Forall₂ (Placed d header source Reading.Step) s.steps
      ((e.splitAt ((s.steps.map fun s => Normal.step s.toData) ++ [])).take s.steps.length) := by
  cases h with
  | @scenario ts hs ss found head steps _ _ _ htags hh hsteps =>
    have hparts : e.Spans d header source ((ts ++ hs) ++ (ss ++ [])) := by
      simpa using hspans
    exact hparts.placed pares_step begins_step hsteps (.nil .nil) .nil

/-- The steps and the examples of an outline get the excerpts of their cores. -/
theorem placed_parts_outline {o : Document.Outline} {ls : List Line} {cs : List Document.Comment}
    (h : Reading.Test ls (.outline o) cs) (hspans : e.Spans d header source ls) :
    List.Forall₂ (Placed d header source Reading.Step) o.steps
        ((e.splitAt ((o.steps.map fun s => Normal.step s.toData) ++
          o.examples.map fun x => Normal.examples x.toData)).take o.steps.length) ∧
      List.Forall₂ (Placed d header source Reading.Examples) o.examples
        (e.splitAt (o.examples.map fun x => Normal.examples x.toData)) := by
  cases h with
  | @outline ts hs ss es found head steps blocks _ _ _ _ htags hh hsteps hblocks =>
    have hparts : e.Spans d header source ((ts ++ hs) ++ (ss ++ es)) := by
      simpa using hspans
    have hlast : e.Spans d header source ((ts ++ (hs ++ ss)) ++ es) := by
      simpa using hspans
    obtain ⟨cores, hcores, hitems⟩ := exists_segmented pares_examples hblocks
      hlast.tidy.of_append_right
    have hbegin := beginAll_map begins_examples hitems fun core hmem =>
      hlast.ordered.of_sublist ((hcores.sublist core hmem).trans (List.sublist_append_right _ es))
    exact ⟨hparts.placed pares_step begins_step hsteps hcores hbegin,
      hlast.placed_last pares_examples begins_examples hblocks⟩

theorem isPlaced_background {b : Document.Background}
    (h : Placed d header source Reading.Background b e) :
    ∀ x ∈ (Background.ofData e (Child.background b).node).elements, x.IsPlaced d header source := by
  refine List.forall_mem_cons.2 ⟨.background h, ?_⟩
  obtain ⟨core, ⟨-, cs, hb⟩, hspans⟩ := h
  exact isPlaced_steps (itemsAt_steps_background _) (placed_steps_background hb hspans)

theorem isPlaced_test {c : Child} {t : Test} (h : Placed d header source Reading.Test c e)
    (ht : t = Test.ofData e c.node) : ∀ x ∈ t.elements, x.IsPlaced d header source := by
  obtain ⟨core, ⟨hcore, cs, hc⟩, hspans⟩ := h
  cases c with
  | background => cases hc
  | scenario s =>
    rw [Test.ofData, if_neg (by simp [Child.node, hasType_scenario])] at ht
    subst ht
    refine List.forall_mem_cons.2 ⟨.scenario ⟨_, ⟨hcore, _, hc⟩, hspans⟩, ?_⟩
    exact isPlaced_steps (itemsAt_steps _) (placed_steps_scenario hc hspans)
  | outline o =>
    rw [Test.ofData, if_pos (by simp [Child.node, hasType_outline])] at ht
    subst ht
    refine List.forall_mem_cons.2 ⟨.outline ⟨_, ⟨hcore, _, hc⟩, hspans⟩, ?_⟩
    obtain ⟨hsteps, hblocks⟩ := placed_parts_outline hc hspans
    rw [← itemsAt_examples] at hsteps
    exact List.forall_mem_append.2 ⟨isPlaced_steps (itemsAt_steps_outline _) hsteps,
      isPlaced_examples (itemsAt_examples _) hblocks⟩

theorem isPlaced_tests {tests : List Child} {es : List Excerpt}
    (h : List.Forall₂ (Placed d header source Reading.Test) tests es) :
    ∀ x ∈ ((tests.map Child.node).zipWith (fun node part => Test.ofData part node) es).flatMap
      Test.elements, x.IsPlaced d header source := by
  intro x hx
  obtain ⟨t, ht, hx⟩ := List.mem_flatMap.1 hx
  rw [List.zipWith_map_left] at ht
  rw [← List.take_of_length_le (l := es) (i := tests.length) h.length_eq.ge] at h
  obtain ⟨c, part, hplaced, rfl⟩ := exists_of_mem_zipWith h ht
  exact isPlaced_test hplaced rfl x hx

/-- Every block of a feature, and every part of one, is placed. -/
theorem isPlaced_feature {ls : List Line} {f : Document.Feature} {language : Text}
    {cs comments : List Document.Comment} (h : Reading.Feature language ls f cs)
    (hspans : e.Spans d header source ls) :
    ∀ x ∈ (Feature.ofData e (f.normal comments)).background.toList.flatMap Background.elements ++
      (Feature.ofData e (f.normal comments)).tests.flatMap Test.elements,
        x.IsPlaced d header source := by
  obtain ⟨before, blocks, bcs, hblocks, h⟩ : ∃ before blocks bcs,
      e.Spans d header source (before ++ blocks) ∧ Reading.Children blocks f.children bcs := by
    cases h with
    | @mk ts hs _ _ _ _ _ _ _ ht hh h => exact ⟨ts ++ hs, _, _, by simpa using hspans, h⟩
  obtain ⟨ds, hmany⟩ := blocks_of_children h
  have hplaced := hblocks.placed_last pares_block begins_block hmany
  obtain ⟨hnone, htests, h⟩ | ⟨as, b, bs, bcs, tests, tcs, -, hchildren, hfirst, htests, hb, h⟩ :=
    blocks_cases comments h
  · simp only [Feature.ofData, hnone, htests]
    exact isPlaced_tests (placed_tests h hplaced)
  · rw [hchildren] at hplaced
    obtain ⟨part, parts, hpart, hparts, hsplit⟩ := List.forall₂_cons_left_iff.1 hplaced
    have hbackground : Placed d header source Reading.Background b part := by
      obtain ⟨core, ⟨hcore, cs, hblock⟩, hspan⟩ := hpart
      refine ⟨core, ⟨hcore, cs, ?_⟩, hspan⟩
      cases hblock with
      | background h => exact h
      | test h => cases h
    rw [List.map_cons] at hsplit
    simp only [Feature.ofData, hfirst, htests, Option.toList_some, List.singleton_append, hsplit,
      List.zipWith_cons_cons, List.head?_cons, List.length_singleton, List.drop_succ_cons,
      List.drop_zero, List.flatMap_cons, List.flatMap_nil, List.append_nil]
    exact List.forall_mem_append.2
      ⟨isPlaced_background hbackground, isPlaced_tests (placed_tests h hparts)⟩

section Alone

variable (hcode : Dialect.get? code = some d)

include hcode

theorem Placed.step {s : Document.Step} (h : Placed d header source Reading.Step s e) :
    (Element.step (Step.ofData e (Normal.step s.toData))).StandsAlone code := by
  obtain ⟨r, hread, hr⟩ := h.exists_readWith (frames_step (Dialect.sound_of_get? hcode) code)
    recountable_step Step.unplaced {} hcode rfl rfl
  have hsame := hr.trans (step_plain e s).symm
  exact .of_read rfl (fun _ => rfl) hread (congrArg Element.step hsame)
    (Step.equal_of_forget hsame)

theorem Placed.example {x : Document.Examples} (h : Placed d header source Reading.Examples x e) :
    (Element.example (Example.ofData e (Normal.examples x.toData))).StandsAlone code := by
  obtain ⟨r, hread, hr⟩ := h.exists_readWith (frames_example (Dialect.sound_of_get? hcode) code)
    recountable_examples Example.unplaced {} hcode rfl rfl
  have hsame := hr.trans (examples_plain e x).symm
  exact .of_read rfl (fun _ => rfl) hread (congrArg Element.example hsame)
    (Example.equal_of_forget hsame)

theorem Placed.background {b : Document.Background}
    (h : Placed d header source Reading.Background b e) :
    (Element.background (Background.ofData e (Child.background b).node)).StandsAlone code := by
  obtain ⟨r, hread, hr⟩ := h.exists_readWith (frames_background (Dialect.sound_of_get? hcode) code)
    recountable_background Background.unplaced {} hcode rfl rfl
  have hsame := hr.trans (background_plain e b).symm
  exact .of_read rfl (fun _ => rfl) hread (congrArg Element.background hsame)
    (Step.allEqual_of_forget (congrArg (·.steps) hsame))

theorem Placed.scenario {s : Document.Scenario}
    (h : Placed d header source (fun ls s => Reading.Test ls (.scenario s)) s e) :
    (Element.scenario (Scenario.ofData e (Child.scenario s).node)).StandsAlone code := by
  obtain ⟨r, hread, hr⟩ := h.exists_readWith (frames_scenario (Dialect.sound_of_get? hcode) code)
    recountable_scenario Scenario.unplaced {} hcode rfl rfl
  have hsame := hr.trans (scenario_plain e s).symm
  exact .of_read rfl (fun _ => rfl) hread (congrArg Element.scenario hsame)
    (Step.allEqual_of_forget (congrArg (·.steps) hsame))

theorem Placed.outline {o : Document.Outline}
    (h : Placed d header source (fun ls o => Reading.Test ls (.outline o)) o e) :
    (Element.outline (Outline.ofData e (Child.outline o).node)).StandsAlone code := by
  obtain ⟨r, hread, hr⟩ := h.exists_readWith (frames_outline (Dialect.sound_of_get? hcode) code)
    recountable_outline Outline.unplaced {} hcode rfl rfl
  have hsame := hr.trans (outline_plain e o).symm
  exact .of_read rfl (fun _ => rfl) hread (congrArg Element.outline hsame)
    (Step.allEqual_of_forget (congrArg (·.steps) hsame))

/-- The text of a placed element is read as the element. -/
theorem Element.IsPlaced.standsAlone {x : Element} (h : x.IsPlaced d header source) :
    x.StandsAlone code := by
  cases h with
  | background h => exact h.background hcode
  | scenario h => exact h.scenario hcode
  | outline h => exact h.outline hcode
  | step h => exact h.step hcode
  | «example» h => exact h.example hcode

/-! ### Comments -/

/-- A comment on its own is the only comment of the document around it. -/
theorem exists_parse_wrap_comment {t : Text} {l : Line} (ht : '\n' ∉ t)
    (hl : (d.vocabulary.linesAt 1 [t]).map (demote (some 1)) = [l]) (hk : l.kind = .comment) :
    ∃ f, Document.parse code (Snippet.comment.wrap code d t) =
      .ok ⟨some f, [Parser.commentOf l]⟩ := by
  have hd := Dialect.sound_of_get? hcode
  have hw : Written d.vocabulary [] [Snippet.featureLine d]
      ((d.vocabulary.linesAt 2 [Snippet.featureLine d]).map (demote (some 1))) :=
    written_linesAt d.vocabulary (by simp) (holds_featureLine hd).line
  obtain ⟨head, hh, -⟩ := (holds_featureLine hd).reading Text.IsIndent.nil hw
  have hlead := hh.lead (Trivia.single (l := l) (by rw [hk]; rfl))
  have hread : Reading.Feature code ((d.vocabulary.linesAt 1 [t, Snippet.featureLine d]).map
      (demote (some 1))) ⟨head, [], code, []⟩ [Parser.commentOf l] := by
    have hfeature : Reading.Feature code ([] ++ (_ ++ [])) ⟨head, [], code, []⟩ _ :=
      .mk (.nil .nil) hlead (.tests (.nil .nil))
    rw [commentsOf_of_comment hk] at hfeature
    have hsplit := Vocabulary.linesAt_append d.vocabulary 1 [t] [Snippet.featureLine d]
    rw [List.singleton_append] at hsplit
    rw [hsplit, List.map_append, hl]
    simpa using hfeature
  have hlines : ∀ u ∈ [t, Snippet.featureLine d], '\n' ∉ u :=
    List.forall_mem_cons.2 ⟨ht, fun u hu => ((holds_featureLine hd).line u hu).1⟩
  exact ⟨_, parse_languageLine hcode hcode hlines hread⟩

/-- A comment's line is read as the comment. -/
theorem alone_comment {l : Line} (hl : l ∈ linesIn d header source) (hk : l.kind = .comment) :
    (Element.comment (Comment.ofData ((Excerpt.whole source).lineOf
      (Normal.comment (Parser.commentOf l).toData))
        (Normal.comment (Parser.commentOf l).toData))).StandsAlone code := by
  obtain ⟨n, ts, htext, -, hlines, hts⟩ := (spans_line hl).exists_text (List.cons_ne_nil _ _)
  obtain ⟨t, rfl⟩ : ∃ t, ts = [t] := by
    have hlen := congrArg List.length hts
    rw [List.length_map, Vocabulary.length_linesAt] at hlen
    exact List.length_eq_one_iff.1 hlen.symm
  obtain ⟨g, hg, hcount⟩ := exists_recounts d.vocabulary header n le_rfl [t]
  rw [← hts] at hcount
  obtain ⟨f, hparse⟩ := exists_parse_wrap_comment hcode (hlines t (List.mem_singleton_self t))
    hcount (hg.kind_of_ne hk (by simp))
  obtain ⟨r, hr, hforget⟩ := readWith_of_parse Comment.unplaced {} hcode hparse
    (plainOf_comment _ _)
  have hown : ((Excerpt.whole source).lineOf (Normal.comment (Parser.commentOf l).toData)).text =
      t := by
    rw [Excerpt.lineOf, line?_comment]
    exact htext.trans (Text.joinWith_singleton t)
  have hsame : (Parser.commentOf (g l)).text = (Parser.commentOf l).text := hg.text l
  have hcomment : r.forget = (Comment.ofData ((Excerpt.whole source).lineOf
      (Normal.comment (Parser.commentOf l).toData))
        (Normal.comment (Parser.commentOf l).toData)).forget := by
    rw [hforget, hsame, comment_plain]
  rw [← hown] at hr
  exact .of_read rfl (fun _ => rfl) hr (congrArg Element.comment hcomment)
    (Comment.equal_of_forget hcomment)

theorem alone_comments {language : Text} {f : Document.Feature} {cs : List Document.Comment}
    (h : Reading language (linesIn d header source) ⟨some f, cs⟩) :
    ∀ x ∈ (Feature.ofData (.whole source) (f.normal cs)).comments.map Element.comment,
      x.StandsAlone code := by
  intro x hx
  simp only [Feature.ofData, itemsAt_comments, List.map_map] at hx
  obtain ⟨c, hc, rfl⟩ := List.mem_map.1 hx
  obtain ⟨l, hl, hk, rfl⟩ := exists_of_mem_comments h hc
  exact alone_comment hcode hl hk

theorem alone_feature {ls : List Line} {f : Document.Feature} {cs comments : List Document.Comment}
    {language : Text} (h : Reading.Feature language ls f cs) (hspans : e.Spans d header source ls) :
    ∀ x ∈ (Feature.ofData e (f.normal comments)).background.toList.flatMap Background.elements ++
      (Feature.ofData e (f.normal comments)).tests.flatMap Test.elements, x.StandsAlone code :=
  fun x hx => (isPlaced_feature h hspans x hx).standsAlone hcode

end Alone

/-! ### Reading a feature -/

/-- A feature is read from the document that its text is. -/
theorem Feature.exists_of_parse {f : Feature} (h : Feature.parse code source = .ok f) :
    f = {} ∨ ∃ doc node, Document.parse code source = .ok doc ∧ doc.feature = some node ∧
      f = Feature.ofData (.whole source) (node.normal doc.comments) := by
  have hwrap : ∀ d, Snippet.feature.wrap code d source = source := fun _ =>
    @Text.joinWith_singleton '\n' source
  unfold Feature.parse Snippet.readWith Snippet.read at h
  cases hcode : Dialect.get? code with
  | none =>
    rw [hcode] at h
    cases h
  | some d =>
    simp only [hcode, hwrap, Document.read] at h
    cases hparse : Document.parse code source with
    | error e =>
      rw [hparse] at h
      cases h
    | ok doc =>
      have hextract : Snippet.feature.extract? (Normal.document doc.toData) =
          doc.feature.map (Document.Feature.normal doc.comments) := present?_feature doc
      simp only [hparse, Except.map, hextract] at h
      cases hfeature : doc.feature with
      | none =>
        rw [hfeature] at h
        exact .inl (Except.ok.inj h).symm
      | some node =>
        rw [hfeature] at h
        refine .inr ⟨doc, node, rfl, hfeature, ?_⟩
        have hf := (Except.ok.inj h).symm
        exact hf.trans (congrArg (Feature.ofData (.whole source)) (Data.lowerLines_zero _))

/-- So is the feature of a feature file. -/
theorem FeatureFile.exists_of_parse {path : Text} {file : FeatureFile}
    (h : FeatureFile.parse code path source = .ok file) :
    ∀ f ∈ file.feature, ∃ doc node, Document.parse code source = .ok doc ∧
      doc.feature = some node ∧ f = Feature.ofData (.whole source) (node.normal doc.comments) := by
  unfold FeatureFile.parse Document.read at h
  cases hparse : Document.parse code source with
  | error failure =>
    rw [hparse] at h
    cases h
  | ok doc =>
    rw [hparse] at h
    obtain rfl := Except.ok.inj h
    intro f hf
    obtain ⟨node, hnode, rfl⟩ := Option.map_eq_some_iff.1 hf
    rw [present?_feature] at hnode
    obtain ⟨tree, hfeature, rfl⟩ := Option.map_eq_some_iff.1 hnode
    exact ⟨doc, tree, rfl, hfeature, rfl⟩

/-- Every part of a feature, tags aside, stands on its own: its text, read in the dialect that the
feature was read in, gives an element that is equal to the part and renders as the part does. -/
theorem Feature.parse_part {code source : Text} {f : Feature}
    (h : Feature.parse code source = .ok f) {e : Element} (he : e ∈ f.elements) (path : Text) :
    ∃ o, e.origin? = some o ∧ ∃ r, Element.parse? e.kind f.language path o.text = some (.ok r) ∧
      r.equal e ∧ ∀ s : Style, s.render r = s.render e := by
  have halone : e.StandsAlone f.language := by
    rcases Feature.exists_of_parse h with rfl | ⟨doc, node, hparse, hfeature, rfl⟩
    · cases he
    · obtain ⟨-, language, d, header, -, -, hlanguage, hreading⟩ := Document.reading_of_parse hparse
      cases hreading with
      | empty => cases hfeature
      | @feature tree cs hread =>
        obtain rfl : tree = node := Option.some.inj hfeature
        have hcode : (Feature.ofData (.whole source) (tree.normal cs)).language = language := by
          have hplain := congrArg (·.language) (feature_plain (.whole source) cs tree)
          exact hplain.trans hread.language_eq
        rw [hcode]
        rcases List.mem_append.1 he with he | he
        · exact alone_feature hlanguage hread spans_whole e he
        · exact alone_comments hlanguage (.feature hread) e he
  obtain ⟨o, ho, hread⟩ := halone
  obtain ⟨r, hr, hforget, hequal⟩ := hread path
  refine ⟨o, ho, r, hr, hequal, fun s => ?_⟩
  rw [← s.render_forget r, hforget, s.render_forget]

/-- A step with a number sign in its doc string and a comment after it, read in a dialect that the
text declares. -/
theorem Feature.parse_part_step :
    ∃ f e o r, Feature.parse Dialect.defaultCode
        ("# language: de\nFunktionalität: f\n@b\nSzenariogrundriss: g\nAngenommen x\n".toList ++
          "\"\"\"\n# y\n\"\"\"\n# c\n@d\nBeispiele:\n|p|".toList) = .ok f ∧
      e ∈ f.elements ∧ e.origin? = some o ∧
      o.text = "Angenommen x\n\"\"\"\n# y\n\"\"\"".toList ∧
      Element.parse? e.kind f.language [] o.text = some (.ok r) ∧ r.equal e ∧
      ∀ s : Style, s.render r = s.render e := by
  generalize hsource :
    "# language: de\nFunktionalität: f\n@b\nSzenariogrundriss: g\nAngenommen x\n".toList ++
      "\"\"\"\n# y\n\"\"\"\n# c\n@d\nBeispiele:\n|p|".toList = source
  have hstep : ((Feature.parse Dialect.defaultCode source).toOption.bind (·.elements[1]?)).bind
      (fun e => e.origin?.map (·.text)) = some "Angenommen x\n\"\"\"\n# y\n\"\"\"".toList := by
    rw [← hsource]
    decide +kernel
  cases hparse : Feature.parse Dialect.defaultCode source with
  | error e => simp [hparse, Except.toOption] at hstep
  | ok f =>
    rw [hparse] at hstep
    obtain ⟨e, he, horigin⟩ := Option.bind_eq_some_iff.1 hstep
    obtain ⟨o, ho, htext⟩ := Option.map_eq_some_iff.1 horigin
    have hmem : e ∈ f.elements := List.mem_of_getElem? he
    obtain ⟨o', ho', r, hr, hequal, hrender⟩ := Feature.parse_part hparse hmem []
    obtain rfl : o' = o := Option.some.inj (ho'.symm.trans ho)
    exact ⟨f, e, o', r, rfl, hmem, ho', htext, hr, hequal, hrender⟩

end Gherkin
