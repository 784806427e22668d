import Gherkin.Element.Parse
import Gherkin.Proofs.Element.Essence
import Gherkin.Proofs.Element.Origins
import Gherkin.Proofs.Text.Indent
import Gherkin.Proofs.Text.Returns

/-! Texts with carriage returns at some of their line ends. Two cuts of a text meet here: lines are
recognised without the carriage return at their end, while an excerpt keeps it. So what is read is
the same node, and the origins made of the excerpts are the same but for carriage returns. -/

namespace Gherkin

variable {t t' : Text}

/-- An origin without the carriage returns of its text. -/
def Origin.withoutReturns (o : Origin) : Origin := { o with text := o.text.withoutReturns }

/-! ### Excerpts -/

namespace Excerpt

/-- The excerpt of the same lines without their carriage returns. -/
def withoutReturns (e : Excerpt) : Excerpt := { e with lines := e.lines.map Text.withoutReturns }

theorem withoutReturns_whole (t : Text) : (whole t).withoutReturns = whole t.withoutReturns := by
  simp only [whole, withoutReturns, Text.lines_withoutReturns, List.length_map]

theorem text_withoutReturns (e : Excerpt) : e.withoutReturns.text = e.text.withoutReturns := by
  rw [text.eq_1 e, apply_ite Text.withoutReturns, Text.withoutReturns_unlines, List.map_drop,
    List.map_take]
  rfl

theorem origin_withoutReturns (e : Excerpt) (d : Data) :
    e.withoutReturns.origin d = (e.origin d).map Origin.withoutReturns := by
  rw [origin, text_withoutReturns]
  rfl

theorem isIdle_withoutReturns (t : Text) : isIdle t.withoutReturns = isIdle t := by
  -- how the line goes on after its first character does not matter
  have hstart (s : Text) : isIdle s = s.trim.head?.all (· = '#') := by
    rw [isIdle]
    cases s.trim with
    | nil => rfl
    | cons c cs => by_cases hc : c = '#' <;> simp [hc]
  rw [hstart, hstart, Text.head?_trim_withoutReturns]

theorem lastKept_withoutReturns (lines : List Text) (first last : Nat) :
    lastKept (lines.map Text.withoutReturns) first last = lastKept lines first last := by
  have hline (n : Nat) : (lines.map Text.withoutReturns)[n]?.getD [] =
      (lines[n]?.getD []).withoutReturns := by
    rw [List.getElem?_map]
    cases lines[n]? <;> rfl
  induction last with
  | zero => rfl
  | succ n ih => rw [lastKept, lastKept, hline, isIdle_withoutReturns, ih]

theorem trimmed_withoutReturns (e : Excerpt) (first last : Nat) :
    e.withoutReturns.trimmed first last = (e.trimmed first last).withoutReturns := by
  simp only [trimmed, withoutReturns, lastKept_withoutReturns]

theorem split_withoutReturns (e : Excerpt) (starts : List Nat) :
    e.withoutReturns.split starts = (e.split starts).map withoutReturns := by
  induction starts with
  | nil => rfl
  | cons start rest ih => cases rest with
    | nil =>
      rw [split, split, trimmed_withoutReturns]
      rfl
    | cons next rest =>
      rw [split, split, trimmed_withoutReturns, ih]
      rfl

/-- Siblings are parted at the same lines. -/
theorem splitAt_withoutReturns (e : Excerpt) (nodes : List Data) :
    e.withoutReturns.splitAt nodes = (e.splitAt nodes).map withoutReturns :=
  e.split_withoutReturns _

theorem zipWith_map_withoutReturns {α : Type} {make : Excerpt → Data → α} {change : α → α}
    (h : ∀ e d, make e.withoutReturns d = change (make e d)) (nodes : List Data)
    (parts : List Excerpt) :
    nodes.zipWith (fun node part => make part node) (parts.map withoutReturns) =
      (nodes.zipWith (fun node part => make part node) parts).map change := by
  rw [List.zipWith_map_right, List.map_zipWith]
  simp only [h]

end Excerpt

/-! ### Elements -/

section OfData

variable (e : Excerpt) (d : Data)

theorem Tag.ofData_withoutReturns :
    Tag.ofData e.withoutReturns d = (Tag.ofData e d).mapOrigin Origin.withoutReturns := by
  rw [Tag.ofData, e.origin_withoutReturns]
  rfl

theorem Comment.ofData_withoutReturns :
    Comment.ofData e.withoutReturns d = (Comment.ofData e d).mapOrigin Origin.withoutReturns := by
  rw [Comment.ofData, e.origin_withoutReturns]
  rfl

theorem Step.ofData_withoutReturns :
    Step.ofData e.withoutReturns d = (Step.ofData e d).mapOrigin Origin.withoutReturns := by
  rw [Step.ofData, e.origin_withoutReturns]
  rfl

theorem Tag.listOfData_withoutReturns :
    Tag.listOfData e.withoutReturns d =
      (Tag.listOfData e d).map (Tag.mapOrigin Origin.withoutReturns) := by
  rw [Tag.listOfData, Tag.listOfData, List.map_map]
  exact List.map_congr_left fun t _ => Tag.ofData_withoutReturns (e.lineOf t) t

theorem Step.listOfData_withoutReturns (later : List Data) :
    Step.listOfData e.withoutReturns d later =
      (Step.listOfData e d later).map (Step.mapOrigin Origin.withoutReturns) := by
  rw [Step.listOfData, e.splitAt_withoutReturns]
  exact Excerpt.zipWith_map_withoutReturns Step.ofData_withoutReturns _ _

theorem Example.ofData_withoutReturns :
    Example.ofData e.withoutReturns d = (Example.ofData e d).mapOrigin Origin.withoutReturns := by
  rw [Example.ofData, e.origin_withoutReturns, Tag.listOfData_withoutReturns]
  rfl

theorem Background.ofData_withoutReturns :
    Background.ofData e.withoutReturns d =
      (Background.ofData e d).mapOrigin Origin.withoutReturns := by
  rw [Background.ofData, e.origin_withoutReturns, Step.listOfData_withoutReturns]
  rfl

theorem Scenario.ofData_withoutReturns :
    Scenario.ofData e.withoutReturns d = (Scenario.ofData e d).mapOrigin Origin.withoutReturns := by
  rw [Scenario.ofData, e.origin_withoutReturns, Tag.listOfData_withoutReturns,
    Step.listOfData_withoutReturns]
  rfl

theorem Outline.ofData_withoutReturns :
    Outline.ofData e.withoutReturns d = (Outline.ofData e d).mapOrigin Origin.withoutReturns := by
  rw [Outline.ofData, e.origin_withoutReturns, Tag.listOfData_withoutReturns,
    Step.listOfData_withoutReturns, e.splitAt_withoutReturns,
    Excerpt.zipWith_map_withoutReturns Example.ofData_withoutReturns]
  rfl

theorem Test.ofData_withoutReturns :
    Test.ofData e.withoutReturns d = (Test.ofData e d).mapOrigin Origin.withoutReturns := by
  rw [Test.ofData, Test.ofData]
  split
  · exact congrArg Test.outline (Outline.ofData_withoutReturns e d)
  · exact congrArg Test.scenario (Scenario.ofData_withoutReturns e d)

theorem Feature.ofData_withoutReturns :
    Feature.ofData e.withoutReturns d = (Feature.ofData e d).mapOrigin Origin.withoutReturns := by
  have hcomments :
      ((d.itemsAt "comments").map fun c => Comment.ofData (e.withoutReturns.lineOf c) c) =
        ((d.itemsAt "comments").map fun c => Comment.ofData (e.lineOf c) c).map
          (Comment.mapOrigin Origin.withoutReturns) := by
    rw [List.map_map]
    exact List.map_congr_left fun c _ => Comment.ofData_withoutReturns (e.lineOf c) c
  rw [Feature.ofData, e.origin_withoutReturns, Tag.listOfData_withoutReturns, hcomments,
    e.splitAt_withoutReturns, ← List.map_drop,
    Excerpt.zipWith_map_withoutReturns Background.ofData_withoutReturns,
    Excerpt.zipWith_map_withoutReturns Test.ofData_withoutReturns, List.head?_map]
  rfl

end OfData

/-! ### Reading -/

theorem Element.map_mapOrigin_congr {α : Type} {f : Origin → Origin} {x x' : Except ParseError α}
    {change : α → α} {make : α → Element} (hx : x = x'.map change)
    (hmake : ∀ a, (make a).mapOrigin f = make (change a)) :
    some (x.map make) = (some (x'.map make)).map (Except.map (Element.mapOrigin f)) := by
  rw [hx]
  cases x' with
  | error e => rfl
  | ok a => exact congrArg (some ∘ Except.ok) (hmake a).symm

section Lines

variable (h : t'.lines.map Text.dropReturn = t.lines.map Text.dropReturn)

include h

/-- Documents depend on the lines without the carriage returns at their ends. -/
theorem Document.parse_congr_lines (code : Text) :
    Document.parse code t' = Document.parse code t := by
  have hclassify (v : Vocabulary) : v.classify t' = v.classify t := by
    refine List.ext_getElem? fun i => ?_
    have hline : t'.lines[i]?.map Text.dropReturn = t.lines[i]?.map Text.dropReturn := by
      rw [← List.getElem?_map, h, List.getElem?_map]
    have hkind := congrArg (Option.map fun raw => (⟨i + 1, raw, v.kindOf raw⟩ : Line)) hline
    rw [Option.map_map, Option.map_map] at hkind
    rw [Vocabulary.classify, Vocabulary.classify, List.getElem?_mapIdx, List.getElem?_mapIdx]
    exact hkind
  simp only [parse, linesIn, hclassify]

theorem Snippet.read_congr_lines (k : Snippet) (code : Text) : k.read code t' = k.read code t := by
  have hwrap (d : Dialect) : (k.wrap code d t').lines.map Text.dropReturn =
      (k.wrap code d t).lines.map Text.dropReturn := by
    rw [wrap, wrap, Text.lines_unlines_eq_flatMap (by simp),
      Text.lines_unlines_eq_flatMap (by simp)]
    simp only [List.flatMap_append, List.flatMap_cons, List.map_append, h]
  simp only [read, Document.read, Document.parse_congr_lines (hwrap _)]

end Lines

section Returned

variable (ht : '\r' ∉ t) (h : Text.Returned t t')

include ht h

theorem Text.Returned.lines_eq : t'.lines.map Text.dropReturn = t.lines.map Text.dropReturn := by
  rw [h.map_dropReturn_lines ht, (Returned.refl t).map_dropReturn_lines ht]

theorem Excerpt.whole_of_returned : whole t = (whole t').withoutReturns := by
  rw [withoutReturns_whole, h.withoutReturns_eq ht]

theorem Snippet.readWith_returned {α : Type} {k : Snippet} {ofData : Excerpt → Data → α}
    {change : α → α} (hdata : ∀ e d, ofData e.withoutReturns d = change (ofData e d)) {absent : α}
    (habsent : change absent = absent) (code : Text) :
    k.readWith ofData absent code t = (k.readWith ofData absent code t').map change := by
  rw [readWith, readWith, read_congr_lines (h.lines_eq ht)]
  cases k.read code t with
  | error e => rfl
  | ok found => cases found with
    | none => exact congrArg Except.ok habsent.symm
    | some d =>
      refine congrArg Except.ok ?_
      rw [Excerpt.whole_of_returned ht h]
      exact hdata _ d

theorem FeatureFile.parse_returned (code path : Text) :
    FeatureFile.parse code path t =
      (FeatureFile.parse code path t').map (FeatureFile.mapOrigin Origin.withoutReturns) := by
  rw [FeatureFile.parse, FeatureFile.parse, Document.read, Document.read,
    Document.parse_congr_lines (h.lines_eq ht)]
  cases Document.parse code t with
  | error e => rfl
  | ok doc =>
    simp only [Except.map, mapOrigin, Option.map_map, Excerpt.whole_of_returned ht h]
    congr 3
    funext d
    exact Feature.ofData_withoutReturns _ d

/-- What is read is the same but for the carriage returns of source texts. -/
theorem Element.parse?_returned (k : Kind) (code path : Text) :
    Element.parse? k code path t =
      (Element.parse? k code path t').map
        (Except.map (Element.mapOrigin Origin.withoutReturns)) := by
  cases k with
  | directory => rfl
  | featureFile =>
    exact map_mapOrigin_congr (FeatureFile.parse_returned ht h code path) fun _ => rfl
  | feature =>
    exact map_mapOrigin_congr
      (Snippet.readWith_returned ht h Feature.ofData_withoutReturns rfl code) fun _ => rfl
  | background =>
    exact map_mapOrigin_congr
      (Snippet.readWith_returned ht h Background.ofData_withoutReturns rfl code) fun _ => rfl
  | scenario =>
    exact map_mapOrigin_congr
      (Snippet.readWith_returned ht h Scenario.ofData_withoutReturns rfl code) fun _ => rfl
  | outline =>
    exact map_mapOrigin_congr
      (Snippet.readWith_returned ht h Outline.ofData_withoutReturns rfl code) fun _ => rfl
  | «example» =>
    exact map_mapOrigin_congr
      (Snippet.readWith_returned ht h Example.ofData_withoutReturns rfl code) fun _ => rfl
  | step =>
    exact map_mapOrigin_congr
      (Snippet.readWith_returned ht h Step.ofData_withoutReturns rfl code) fun _ => rfl
  | tag =>
    exact map_mapOrigin_congr
      (Snippet.readWith_returned ht h Tag.ofData_withoutReturns rfl code) fun _ => rfl
  | comment =>
    exact map_mapOrigin_congr
      (Snippet.readWith_returned ht h Comment.ofData_withoutReturns rfl code) fun _ => rfl

/-- It does not matter which line ends have a carriage return. A text is refused for the same reason
with them, or it gives an element that is equal to the other and renders alike in every style; at
every level both have the same attributes, lines and data, and the same source texts once the
carriage returns are deleted. -/
theorem Element.parse_of_returned (k : Kind) (code path : Text) :
    (∀ e, Element.parse? k code path t' = some (.error e) ↔
      Element.parse? k code path t = some (.error e)) ∧
    ∀ x x', Element.parse? k code path t = some (.ok x) →
      Element.parse? k code path t' = some (.ok x') →
      x'.mapOrigin Origin.withoutReturns = x ∧ x'.equal x ∧
        ∀ s : Style, s.render x' = s.render x := by
  have hsame := Element.parse?_returned ht h k code path
  refine ⟨fun e => ?_, fun x x' hx hx' => ?_⟩
  · rw [hsame]
    rcases Element.parse? k code path t' with _ | _ | _ <;> simp [Except.map]
  · rw [hx, hx'] at hsame
    have horigins : x = x'.mapOrigin Origin.withoutReturns := Except.ok.inj (Option.some.inj hsame)
    have hforget : x'.forget = x.forget := by rw [horigins, x'.forget_mapOrigin]
    refine ⟨horigins.symm, Element.equal_of_forget hforget, fun s => ?_⟩
    rw [← s.render_forget x', hforget, s.render_forget]

end Returned

/-- The fences of a doc string end with a carriage return, the line between them does not. -/
theorem Element.parse_of_returned_docString :
    let front : Text := "@a\nFeature: b\nScenario: c\n* d\n \"\"\"".toList
    let content : Text := "  e\n \"\"\"".toList
    let comment : Text := "\n# f\n".toList
    let t := front ++ '\n' :: (content ++ '\n' :: comment)
    let t' := front ++ '\r' :: '\n' :: (content ++ '\r' :: '\n' :: comment)
    '\r' ∉ t ∧ Text.Returned t t' ∧
      ∃ x x', Element.parse? .feature Dialect.defaultCode [] t = some (.ok x) ∧
        Element.parse? .feature Dialect.defaultCode [] t' = some (.ok x') ∧
        x'.mapOrigin Origin.withoutReturns = x ∧ x'.equal x ∧
          ∀ s : Style, s.render x' = s.render x := by
  intro front content comment t t'
  have ht : '\r' ∉ t := by decide
  have h : Text.Returned t t' :=
    (Text.Returned.refl front).append (.feed ((Text.Returned.refl content).append
      (.feed (Text.Returned.refl comment))))
  have hok : (Feature.parse Dialect.defaultCode t').isOk = true := by decide +kernel
  cases hparse : Feature.parse Dialect.defaultCode t' with
  | error e =>
    rw [hparse] at hok
    cases hok
  | ok f =>
    have hx' : Element.parse? .feature Dialect.defaultCode [] t' = some (.ok (.feature f)) := by
      rw [Element.parse?, hparse]
      rfl
    have hx := Element.parse?_returned ht h .feature Dialect.defaultCode []
    rw [hx'] at hx
    exact ⟨ht, h, _, _, hx, hx',
      (Element.parse_of_returned ht h .feature Dialect.defaultCode []).2 _ _ hx hx'⟩

end Gherkin
