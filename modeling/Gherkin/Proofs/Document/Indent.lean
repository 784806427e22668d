import Gherkin.Proofs.Document.Completeness
import Gherkin.Proofs.Element.Image
import Gherkin.Proofs.Element.Trace
import Gherkin.Proofs.Line.Cells
import Gherkin.Proofs.Text.Indent

/-! Reading indented lines. Where a line stands shows in columns alone, but for the lines of a
description or of a doc string, of which only the depth against one another counts. So lines of
which those that belong together are indented alike are refused for the same reasons, or hold
nodes with the same traces. -/

open Gherkin.Document.Parser

namespace Gherkin

/-! ### Single lines -/

namespace Line

/-- The same line, if it stands elsewhere. -/
structure Same (l l' : Line) : Prop where
  number : l'.number = l.number
  kind : l'.kind = l.kind
  text : l'.text = l.text

/-- The line `l` with `w` in front. -/
structure Indented (w : Text) (l l' : Line) : Prop where
  number : l'.number = l.number
  kind : l'.kind = l.kind
  raw : Text.IndentedLine w l.raw l'.raw
  line : '\n' ∉ l.raw
  blank : l.raw = [] → l.kind = .blank

variable {l l' : Line} {w : Text}

theorem Indented.same (h : Indented w l l') (hw : w.IsIndent) : Same l l' :=
  ⟨h.number, h.kind, h.raw.trim hw⟩

theorem Same.commentOf (h : Same l l') : commentOf l' = commentOf l := by
  rw [Document.Parser.commentOf, Document.Parser.commentOf, h.number, h.text]

theorem Same.unexpected (h : Same l l') (expected : Expectation) :
    l'.unexpected expected = l.unexpected expected := by
  rw [Line.unexpected, Line.unexpected, h.number, h.text]

theorem Indented.indent (h : Indented w l l') (hw : w.IsIndent) (hl : l.kind ≠ .blank) :
    l'.indent = w.length + l.indent :=
  h.raw.indent hw fun hraw => hl (h.blank hraw)

/-- A line of a doc string is cut at the indentation of the opening fence. -/
theorem Indented.contentLine (h : Indented w l l') (hw : w.IsIndent) (indent : ℕ) (fence : Fence) :
    contentLine (w.length + indent) fence l' = contentLine indent fence l := by
  rw [Document.Parser.contentLine, Document.Parser.contentLine, h.raw.dropIndent hw]

end Line

namespace Document

/-! ### Lines that are indented alike -/

/-- Lines with the same blanks in front of each. -/
def Level (ls ls' : List Line) : Prop :=
  ∃ w, Text.IsIndent w ∧ List.Forall₂ (Line.Indented w) ls ls'

/-- The lines that are described under a header. -/
def described (block : Block) (ls : List Line) : List Line :=
  (ls.dropWhile (·.kind = .blank)).takeWhile fun l => !endsDescription block l.kind

/-- The lines up to the fence that closes a doc string. -/
def content (fence : Fence) (ls : List Line) : List Line :=
  ls.takeWhile fun l => !isFence fence l.kind

/-- Lines that stand elsewhere, of which those that belong together are indented alike. Nothing is
asked of the lines under a fence that no other closes. -/
inductive Alike : List Line → List Line → Prop
  | nil : Alike [] []
  | cons {l l' ls ls'} (same : Line.Same l l')
    (header : ∀ block keyword name, l.kind = .header block keyword name →
      Level (described block ls) (described block ls'))
    (fence : ∀ fence contentType, l.kind = .fence fence contentType →
      ∃ w, Text.IsIndent w ∧ l'.indent = w.length + l.indent ∧
        ((∃ m ∈ ls, isFence fence m.kind) →
          List.Forall₂ (Line.Indented w) (content fence ls) (content fence ls')))
    (rest : Alike ls ls') : Alike (l :: ls) (l' :: ls')

/-- What is read from the front of lines and of the same lines elsewhere: values that look the same,
and rests that are the same lines again. -/
structure Matches {α β : Type} (view : α → β) (p p' : Parsed α) : Prop where
  value : view p'.value = view p.value
  comments : p'.comments = p.comments
  rest : Alike p.rest p'.rest

/-- Reading both fails for the same reason, or the results match. -/
inductive Parallel {α β : Type} (view : α → β) : Outcome α → Outcome α → Prop
  | error (e : Failure) : Parallel view (.error e) (.error e)
  | ok {p p' : Parsed α} (h : Matches view p p') : Parallel view (.ok p) (.ok p')

variable {ls ls' : List Line} {l l' : Line} {α β γ δ : Type} {view : α → γ} {view' : β → δ}

theorem Parallel.map {x x' : Outcome α} {f f' : Parsed α → Parsed β} (h : Parallel view x x')
    (hf : ∀ p p', Matches view p p' → Matches view' (f p) (f' p')) :
    Parallel view' (x.map f) (x'.map f') := by
  cases h with
  | error e => exact .error e
  | ok h => exact .ok (hf _ _ h)

theorem Parallel.bind {x x' : Outcome α} {f f' : Parsed α → Outcome β} (h : Parallel view x x')
    (hf : ∀ p p', x = .ok p → Matches view p p' → Parallel view' (f p) (f' p')) :
    Parallel view' (x.bind f) (x'.bind f') := by
  cases h with
  | error e => exact .error e
  | ok h => exact hf _ _ rfl h

/-- Another line is passed on the way to what is read. -/
theorem Matches.comment {p p' : Parsed α} (h : Matches view p p') (hsame : Line.Same l l') :
    Matches view { p with comments := commentOf l :: p.comments }
      { p' with comments := commentOf l' :: p'.comments } :=
  ⟨h.value, by rw [hsame.commentOf, h.comments], h.rest⟩

theorem Alike.dropWhile (h : Alike ls ls') (p : LineKind → Bool) :
    Alike (ls.dropWhile fun l => p l.kind) (ls'.dropWhile fun l => p l.kind) := by
  induction h with
  | nil => exact .nil
  | @cons l l' ls ls' same header fence rest ih =>
    rw [List.dropWhile_cons, List.dropWhile_cons, same.kind]
    split
    · exact ih
    · exact .cons same header fence rest

theorem Alike.skipTrivia (h : Alike ls ls') :
    (skipTrivia ls').1 = (skipTrivia ls).1 ∧ Alike (skipTrivia ls).2 (skipTrivia ls').2 := by
  induction h with
  | nil => exact ⟨rfl, .nil⟩
  | @cons l l' ls ls' same header fence rest ih =>
    have hcons : Alike (l :: ls) (l' :: ls') := .cons same header fence rest
    cases hk : l.kind <;> simp only [Parser.skipTrivia, same.kind, hk]
    case blank => exact ih
    case language => exact ih
    case comment => exact ⟨by rw [ih.1, same.commentOf], ih.2⟩
    all_goals exact ⟨trivial, hcons⟩

/-- After the trivia nothing is left in either place, or the same line is met in both. -/
theorem Alike.skipTrivia_cases (h : Alike ls ls') :
    (∃ passed, Parser.skipTrivia ls = (passed, []) ∧ Parser.skipTrivia ls' = (passed, [])) ∨
    ∃ passed l l' rest rest', Parser.skipTrivia ls = (passed, l :: rest) ∧
      Parser.skipTrivia ls' = (passed, l' :: rest') ∧ Alike (l :: rest) (l' :: rest') := by
  obtain ⟨hpassed, hrest⟩ := h.skipTrivia
  generalize Parser.skipTrivia ls = x at hpassed hrest
  generalize Parser.skipTrivia ls' = x' at hpassed hrest
  obtain ⟨passed, left⟩ := x
  obtain ⟨passed', left'⟩ := x'
  obtain rfl : passed' = passed := hpassed
  cases hrest with
  | nil => exact .inl ⟨_, rfl, rfl⟩
  | cons same header fence rest =>
    exact .inr ⟨_, _, _, _, _, rfl, rfl, .cons same header fence rest⟩

/-! ### Lines of one kind -/

theorem cases_of_map_eq {ε : Type} {x : Except ε α} {y : Except ε β} {f : α → γ} {g : β → γ}
    (h : x.map f = y.map g) :
    (∃ e, x = .error e ∧ y = .error e) ∨ ∃ a b, x = .ok a ∧ y = .ok b ∧ f a = g b := by
  cases x with
  | error e => cases y with
    | error e' => exact .inl ⟨e, rfl, congrArg Except.error (Except.error.inj h).symm⟩
    | ok b => cases h
  | ok a => cases y with
    | error e' => cases h
    | ok b => exact .inr ⟨a, b, rfl, rfl, Except.ok.inj h⟩

theorem split_traced (n : ℕ) (t : Text) {start start' : Location} (h : start'.line = start.line) :
    (LocatedTag.split t start').map (List.map (LocatedTag.traced n)) =
      (LocatedTag.split t start).map (List.map (LocatedTag.traced n)) := by
  -- tags on one line are told by their names
  have hname : ∀ {start found}, LocatedTag.split t start = .ok found →
      found.map (LocatedTag.traced n) =
        (found.map LocatedTag.name).map fun name => ⟨name, Location.traced n start⟩ := by
    intro start found hfound
    rw [List.map_map]
    refine List.map_congr_left fun x hx => ?_
    rw [LocatedTag.traced, Location.traced, LocatedTag.line_of_splitFrom hfound x hx]
    rfl
  obtain ⟨e, he', he⟩ | ⟨found', found, hfound', hfound, hnames⟩ := cases_of_map_eq
    (LocatedTag.map_name_splitFrom start'.line start.line start'.column start.column t)
  · rw [LocatedTag.split, LocatedTag.split, he, he']
  · rw [← LocatedTag.split] at hfound hfound'
    rw [hfound, hfound']
    refine congrArg Except.ok ?_
    rw [hname hfound, hname hfound', hnames, Location.traced, Location.traced, h]

theorem tags_alike (n : ℕ) (h : Alike ls ls') :
    Parallel (List.map (LocatedTag.traced n)) (tags ls) (tags ls') := by
  induction h with
  | nil => exact .ok ⟨rfl, rfl, .nil⟩
  | @cons l l' ls ls' same header fence rest ih =>
    have hcons : Alike (l :: ls) (l' :: ls') := .cons same header fence rest
    cases hk : l.kind <;> simp only [tags, same.kind, hk]
    case blank => exact ih
    case language => exact ih
    case comment => exact ih.map fun p p' hp => hp.comment same
    case tags =>
      have hline : l'.location.line = l.location.line := same.number
      rw [same.text, same.number]
      obtain ⟨e, he', he⟩ | ⟨found', found, hfound', hfound, hview⟩ := cases_of_map_eq
        (split_traced n l.text hline)
      · simp only [he, he']
        exact .error _
      · simp only [hfound, hfound']
        refine ih.map fun p p' hp => ⟨?_, hp.comments, hp.rest⟩
        rw [List.map_append, List.map_append, hp.value, hview]
    all_goals exact .ok ⟨rfl, rfl, hcons⟩

/-- Tags and the line after them: they are refused, or nothing comes after them, or both are met in
both places. -/
theorem tags_cases (n : ℕ) (h : Alike ls ls') :
    (∃ e, tags ls = .error e ∧ tags ls' = .error e) ∨
    (∃ found found' passed, tags ls = .ok ⟨found, passed, []⟩ ∧
      tags ls' = .ok ⟨found', passed, []⟩) ∨
    ∃ found found' passed l l' rest rest', tags ls = .ok ⟨found, passed, l :: rest⟩ ∧
      tags ls' = .ok ⟨found', passed, l' :: rest'⟩ ∧
      found'.map (LocatedTag.traced n) = found.map (LocatedTag.traced n) ∧ Line.Same l l' ∧
      (∀ block keyword name, l.kind = .header block keyword name →
        Level (described block rest) (described block rest')) ∧ Alike rest rest' := by
  have htags := tags_alike n h
  generalize tags ls = x at htags
  generalize tags ls' = x' at htags
  cases htags with
  | error e => exact .inl ⟨e, rfl, rfl⟩
  | @ok p p' hp =>
    obtain ⟨found, passed, left⟩ := p
    obtain ⟨found', passed', left'⟩ := p'
    obtain ⟨hfound, rfl, hrest⟩ := hp
    cases hrest with
    | nil => exact .inr (.inl ⟨found, found', _, rfl, rfl⟩)
    | cons same header _ rest =>
      exact .inr (.inr ⟨found, found', _, _, _, _, _, rfl, rfl, hfound, same, header, rest⟩)

theorem rows_alike (width : Option ℕ) (h : Alike ls ls') :
    Parallel (List.map Row.plain) (rows width ls) (rows width ls') := by
  induction h generalizing width with
  | nil => exact .ok ⟨rfl, rfl, .nil⟩
  | @cons l l' ls ls' same header fence rest ih =>
    have hcons : Alike (l :: ls) (l' :: ls') := .cons same header fence rest
    cases hk : l.kind <;> simp only [rows, same.kind, hk]
    case blank => exact ih width
    case language => exact ih width
    case comment => exact (ih width).map fun p p' hp => hp.comment same
    case row =>
      have hvalues := Cell.map_value_split_eq l.text l'.location l.location
      have hlength : (Cell.split l.text l'.location).length =
          (Cell.split l.text l.location).length := by
        rw [← List.length_map (f := Cell.value), hvalues, List.length_map]
      rw [same.text, same.number, hlength]
      split
      · refine (ih _).map fun p p' hp => ⟨?_, hp.comments, hp.rest⟩
        rw [List.map_cons, List.map_cons, hp.value, Row.plain, Row.plain, hvalues]
      · exact .error _
    all_goals exact .ok ⟨rfl, rfl, hcons⟩

/-! ### Descriptions -/

theorem descriptionOf_descriptionText (ls : List Line) : descriptionOf (descriptionText ls) =
    Text.normalizeDescription (Text.unlines
      ((ls.map fun l => l.raw.trimEnd).reverse.dropWhile List.isEmpty).reverse) := by
  rw [descriptionOf_eq_normal, descriptionText]
  split
  · next h =>
    rw [h]
    rfl
  · rfl

/-- Lines that are indented alike say the same in a description. -/
theorem Level.descriptionOf_eq (h : Level ls ls') :
    descriptionOf (descriptionText ls') = descriptionOf (descriptionText ls) := by
  obtain ⟨w, hw, h⟩ := h
  have hshift : (ls'.map fun l => l.raw.trimEnd) =
      (ls.map fun l => l.raw.trimEnd).map (Text.shift w) := by
    induction h with
    | nil => rfl
    | cons hl _ ih => rw [List.map_cons, List.map_cons, List.map_cons, ih, hl.raw.trimEnd hw]
  have hmem : ∀ t ∈ ((ls.map fun l => l.raw.trimEnd).reverse.dropWhile List.isEmpty).reverse,
      ∃ l ∈ ls, t = l.raw.trimEnd := by
    intro t ht
    have hsub := (List.dropWhile_sublist List.isEmpty).subset (List.mem_reverse.1 ht)
    obtain ⟨l, hl, rfl⟩ := List.mem_map.1 (List.mem_reverse.1 hsub)
    exact ⟨l, hl, rfl⟩
  have hline : ∀ l ∈ ls, '\n' ∉ l.raw := by
    clear hmem hshift
    induction h with
    | nil => simp
    | cons hl _ ih => exact List.forall_mem_cons.2 ⟨hl.line, ih⟩
  rw [descriptionOf_descriptionText, descriptionOf_descriptionText, hshift, ← List.map_reverse,
    Text.dropWhile_isEmpty_map_shift, ← List.map_reverse]
  refine Text.normalizeDescription_shift (fun t ht => ?_) (fun t ht => ?_) hw.blank hw.line
  · obtain ⟨l, -, rfl⟩ := hmem t ht
    exact Text.trimEnd_trimEnd _
  · obtain ⟨l, hl, rfl⟩ := hmem t ht
    exact fun hc => hline l hl ((Text.trimEnd_sublist _).subset hc)

/-- What a heading becomes, and its line. -/
def Heading.seen (h : Heading) : Gherkin.Heading × ℕ := (h.plain, h.location.line)

theorem heading_alike {block : Block} (keyword name : Text) (same : Line.Same l l')
    (hbody : Level (described block ls) (described block ls')) :
    (heading l' block keyword name ls').seen = (heading l block keyword name ls).seen := by
  have hdescription : descriptionOf (description block ls').1 =
      descriptionOf (description block ls).1 := hbody.descriptionOf_eq
  simp only [heading, Heading.seen, Heading.plain, hdescription]
  exact congrArg _ same.number

theorem description_alike (block : Block) (h : Alike ls ls') :
    Alike (description block ls).2 (description block ls').2 := by
  rw [description_rest, description_rest]
  exact h.dropWhile fun k => !endsDescription block k

/-! ### Steps -/

theorem docString_alike {w : Text} (hw : w.IsIndent) (indent : ℕ) (fence : Fence)
    (h : Alike ls ls') (hcontent : (∃ m ∈ ls, isFence fence m.kind) →
      List.Forall₂ (Line.Indented w) (content fence ls) (content fence ls')) :
    Option.Rel (fun p p' => p'.1 = p.1 ∧ Alike p.2 p'.2) (docString indent fence ls)
      (docString (w.length + indent) fence ls') := by
  induction h with
  | nil => exact .none
  | @cons l l' ls ls' same _ _ rest ih =>
    rw [docString, docString, same.kind]
    by_cases hl : isFence fence l.kind
    · rw [if_pos hl, if_pos hl]
      exact .some ⟨rfl, rest⟩
    · have hstep : (∃ m ∈ ls, isFence fence m.kind) → Line.Indented w l l' ∧
          List.Forall₂ (Line.Indented w) (content fence ls) (content fence ls') := by
        rintro ⟨m, hm, hclose⟩
        have hall := hcontent ⟨m, List.mem_cons_of_mem _ hm, hclose⟩
        simpa [content, List.takeWhile_cons, same.kind, hl] using hall
      rw [if_neg hl, if_neg hl]
      have hmore := ih fun hclose => (hstep hclose).2
      by_cases hclose : ∃ m ∈ ls, isFence fence m.kind
      · rw [(hstep hclose).1.contentLine hw]
        generalize docString indent fence ls = x at hmore
        generalize docString (w.length + indent) fence ls' = x' at hmore
        cases hmore with
        | none => exact .none
        | some hp => exact .some ⟨congrArg (_ :: ·) hp.1, hp.2⟩
      · -- no fence closes the doc string, so it does not matter what its lines are
        have hnone : docString indent fence ls = none :=
          docString_eq_none_iff.2 (by simpa using hclose)
        rw [hnone] at hmore ⊢
        generalize docString (w.length + indent) fence ls' = x' at hmore
        cases hmore
        exact .none

theorem argument_alike (h : Alike ls ls') :
    Parallel (Option.map Argument.plain) (argument ls) (argument ls') := by
  rw [argument, argument]
  obtain ⟨passed, hs, hs'⟩ | ⟨passed, l, l', rest, rest', hs, hs', hcons⟩ := h.skipTrivia_cases
  · rw [hs, hs']
    exact .ok ⟨rfl, rfl, .nil⟩
  · rw [hs, hs']
    cases hcons with
    | cons same header hfence hrest =>
      have hcons : Alike (l :: rest) (l' :: rest') := .cons same header hfence hrest
      cases hk : l.kind <;> simp only [same.kind, hk]
      case row =>
        refine (rows_alike none hcons).map fun p p' hp => ⟨?_, ?_, hp.rest⟩
        · exact congrArg (fun rows => some (StepBlock.table rows)) hp.value
        · rw [hp.comments]
      case fence fence contentType =>
        obtain ⟨w, hw, hindent, hcontent⟩ := hfence fence contentType hk
        have hread := docString_alike hw l.indent fence hrest hcontent
        rw [hindent]
        generalize docString l.indent fence rest = x at hread
        generalize docString (w.length + l.indent) fence rest' = x' at hread
        cases hread with
        | none =>
          rw [same.number]
          exact .error _
        | some hp => exact .ok ⟨by simp only [Option.map_some, Argument.plain, hp.1], rfl, hp.2⟩
      all_goals exact .ok ⟨rfl, rfl, hcons⟩

theorem steps_alike (n : ℕ) (h : Alike ls ls') :
    Parallel (List.map (Step.traced n)) (steps ls) (steps ls') := by
  induction hlen : ls.length using Nat.strong_induction_on generalizing ls ls' with
  | _ size ih =>
    have hshort := length_skipTrivia ls
    obtain ⟨passed, hs, hs'⟩ | ⟨passed, l, l', rest, rest', hs, hs', hcons⟩ := h.skipTrivia_cases
    · rw [steps_of_nil hs, steps_of_nil hs']
      exact .ok ⟨rfl, rfl, .nil⟩
    · rw [hs] at hshort
      cases hcons with
      | cons same header fence hrest =>
        by_cases hl : ∃ keyword text, l.kind = .step keyword text
        · obtain ⟨keyword, text, hl⟩ := hl
          rw [steps_of_step hs hl, steps_of_step hs' (same.kind.trans hl)]
          refine (argument_alike hrest).bind fun arg arg' harg hmatch => ?_
          have hless : arg.rest.length < size := by
            have := length_argument harg
            simp only [List.length_cons] at hshort
            omega
          refine (ih _ hless hmatch.rest rfl).map fun p p' hp => ⟨?_, ?_, hp.rest⟩
          · have hvalue := hmatch.value
            simp only [List.map_cons, hp.value, Step.traced, Step.plain, hvalue, Location.traced,
              Line.location, same.number]
          · rw [hmatch.comments, hp.comments]
        · have hl : ∀ keyword text, l.kind ≠ .step keyword text := by simpa using hl
          rw [steps_of_other hs hl, steps_of_other hs' (same.kind ▸ hl)]
          exact .ok ⟨rfl, rfl, .cons same header fence hrest⟩

/-! ### Blocks -/

section Traced

variable {h h' : Heading} {found found' : List LocatedTag} {ss ss' : List Step}
  {blocks blocks' : List Examples} (n : ℕ) (hseen : h'.seen = h.seen)
  (htags : found'.map (LocatedTag.traced n) = found.map (LocatedTag.traced n))
  (hsteps : ss'.map (Step.traced n) = ss.map (Step.traced n))

include hseen

theorem Heading.plain_eq_of_seen : h'.plain = h.plain := congrArg Prod.fst hseen

theorem Heading.traced_eq_of_seen : h'.location.traced n = h.location.traced n := by
  have hline : h'.location.line = h.location.line := congrArg Prod.snd hseen
  rw [Location.traced, Location.traced, hline]

include hsteps

theorem Background.traced_congr : Background.traced n ⟨h', ss'⟩ = Background.traced n ⟨h, ss⟩ := by
  simp only [Background.traced, Background.plain, Heading.plain_eq_of_seen hseen,
    Heading.traced_eq_of_seen n hseen, hsteps]

include htags

theorem Scenario.traced_congr :
    Scenario.traced n ⟨h', found', ss'⟩ = Scenario.traced n ⟨h, found, ss⟩ := by
  simp only [Scenario.traced, Scenario.plain, Heading.plain_eq_of_seen hseen,
    Heading.traced_eq_of_seen n hseen, htags, hsteps]

theorem Outline.traced_congr
    (hblocks : blocks'.map (Examples.traced n) = blocks.map (Examples.traced n)) :
    Outline.traced n ⟨h', found', ss', blocks'⟩ = Outline.traced n ⟨h, found, ss, blocks⟩ := by
  simp only [Outline.traced, Outline.plain, Heading.plain_eq_of_seen hseen,
    Heading.traced_eq_of_seen n hseen, htags, hsteps, hblocks]

end Traced

theorem background_alike (n : ℕ) (keyword name : Text) (same : Line.Same l l')
    (hbody : Level (described .background ls) (described .background ls')) (h : Alike ls ls') :
    Parallel (Background.traced n) (background l keyword name ls)
      (background l' keyword name ls') := by
  refine (steps_alike n (description_alike .background h)).map fun p p' hp =>
    ⟨?_, hp.comments, hp.rest⟩
  exact Background.traced_congr n (heading_alike keyword name same hbody) hp.value

theorem examplesFollow_alike (h : Alike ls ls') : examplesFollow ls' = examplesFollow ls := by
  induction h with
  | nil => rfl
  | cons same _ _ _ ih =>
    rw [examplesFollow, examplesFollow, same.kind, ih]

theorem endsExamples_alike (h : Alike ls ls') : endsExamples ls' = endsExamples ls := by
  cases h with
  | nil => rfl
  | cons same => rw [endsExamples, endsExamples, same.kind, same.unexpected]

theorem Examples.traced_congr (n : ℕ) {h h' : Heading} {found found' : List LocatedTag}
    {table table' : List Row} (hseen : h'.seen = h.seen)
    (htags : found'.map (LocatedTag.traced n) = found.map (LocatedTag.traced n))
    (hrows : table'.map Row.plain = table.map Row.plain) :
    Examples.traced n ⟨h', found', table'.head?, table'.tail⟩ =
      Examples.traced n ⟨h, found, table.head?, table.tail⟩ := by
  have hall : ∀ table : List Row, (table.head?.toList ++ table.tail).map Row.plain =
      table.map Row.plain := fun table => by cases table <;> rfl
  simp only [Examples.traced, Examples.plain, Heading.plain_eq_of_seen hseen,
    Heading.traced_eq_of_seen n hseen, htags, hall, hrows]

theorem examples_alike (n last : ℕ) (h : Alike ls ls') :
    Parallel (Examples.traced n) (examples last ls) (examples last ls') := by
  unfold examples
  obtain ⟨e, ht, ht'⟩ | ⟨found, found', passed, ht, ht'⟩ |
    ⟨found, found', passed, l, l', ls, ls', ht, ht', hfound, same, header, rest⟩ := tags_cases n h
  · simp only [ht, ht']
    exact .error e
  · simp only [ht, ht']
    exact .error _
  · simp only [ht, ht', same.kind]
    split
    · next keyword name hk =>
      have hrows := rows_alike none (description_alike .examples rest)
      generalize rows none (description .examples ls).2 = x at hrows
      generalize rows none (description .examples ls').2 = x' at hrows
      cases hrows with
      | error e => exact .error e
      | ok hr =>
        simp only [endsExamples_alike hr.rest]
        split
        · exact .error _
        · refine .ok ⟨?_, congrArg (_ ++ ·) hr.comments, hr.rest⟩
          exact Examples.traced_congr n (heading_alike keyword name same (header _ _ _ hk)) hfound
            hr.value
    · rw [same.unexpected]
      exact .error _

theorem examplesBlocks_alike (n last : ℕ) (h : Alike ls ls') :
    Parallel (List.map (Examples.traced n)) (examplesBlocks last ls) (examplesBlocks last ls') := by
  induction hlen : ls.length using Nat.strong_induction_on generalizing ls ls' with
  | _ size ih =>
    have hshort := length_skipTrivia ls
    obtain ⟨hpassed, hrest⟩ := h.skipTrivia
    by_cases hf : examplesFollow (skipTrivia ls).2
    · have hf' : examplesFollow (skipTrivia ls').2 := by rwa [examplesFollow_alike hrest]
      rw [examplesBlocks_of_follow hf, examplesBlocks_of_follow hf', hpassed]
      refine (examples_alike n last hrest).bind fun block block' hblock hmatch => ?_
      have hless : block.rest.length < size := by
        have := length_examples hblock
        omega
      refine (ih _ hless hmatch.rest rfl).map fun p p' hp => ⟨?_, ?_, hp.rest⟩
      · rw [List.map_cons, List.map_cons, hmatch.value, hp.value]
      · rw [hmatch.comments, hp.comments]
    · have hf' : ¬examplesFollow (skipTrivia ls').2 := by rwa [examplesFollow_alike hrest]
      rw [examplesBlocks, if_neg hf, examplesBlocks, if_neg hf']
      exact .ok ⟨rfl, hpassed, hrest⟩

theorem test_alike (n last : ℕ) (h : Alike ls ls') :
    Parallel (Child.traced n) (test last ls) (test last ls') := by
  unfold test
  obtain ⟨e, ht, ht'⟩ | ⟨found, found', passed, ht, ht'⟩ |
    ⟨found, found', passed, l, l', ls, ls', ht, ht', hfound, same, header, rest⟩ := tags_cases n h
  · simp only [ht, ht']
    exact .error e
  · simp only [ht, ht']
    exact .error _
  · simp only [ht, ht', same.kind]
    split
    · next keyword name hk =>
      refine (steps_alike n (description_alike .scenario rest)).map fun p p' hp =>
        ⟨?_, congrArg (_ ++ ·) hp.comments, hp.rest⟩
      exact congrArg (Sum.inr ∘ Test.scenario) (Scenario.traced_congr n
        (heading_alike keyword name same (header _ _ _ hk)) hfound hp.value)
    · next keyword name hk =>
      have hsteps := steps_alike n (description_alike .outline rest)
      generalize steps (description .outline ls).2 = x at hsteps
      generalize steps (description .outline ls').2 = x' at hsteps
      cases hsteps with
      | error e => exact .error e
      | ok hs =>
        refine (examplesBlocks_alike n last hs.rest).map fun p p' hp => ⟨?_, ?_, hp.rest⟩
        · exact congrArg (Sum.inr ∘ Test.outline) (Outline.traced_congr n
            (heading_alike keyword name same (header _ _ _ hk)) hfound hs.value hp.value)
        · rw [hs.comments, hp.comments]
    · rw [same.number]
      exact .error _
    · rw [same.unexpected]
      exact .error _

/-! ### Documents -/

/-- What a refusal says of a line depends on the line and on the kind of the block before it. -/
theorem misplaced_alike (n : ℕ) {before before' : Option Child}
    (hbefore : before'.map (Child.traced n) = before.map (Child.traced n)) (same : Line.Same l l') :
    misplaced before' l' = misplaced before l := by
  unfold misplaced
  rw [same.kind, same.number, same.unexpected]
  generalize l.kind = k
  cases before with
  | none => cases before' with
    | none => rfl
    | some c' => cases hbefore
  | some c => cases before' with
    | none => cases hbefore
    | some c' =>
      have hc : c'.traced n = c.traced n := Option.some.inj hbefore
      -- blocks of different kinds have different traces
      cases c <;> cases c' <;> simp only [Child.traced, reduceCtorEq, Sum.inr.injEq] at hc
      all_goals cases k with
        | header block => cases block <;> rfl
        | _ => rfl

/-- The blocks of a feature and its comments, as far as they are traced. -/
def tracedBlocks (n : ℕ) (blocks : List Child × List Comment) :
    List (Gherkin.Background ⊕ Test) × List Comment :=
  (blocks.1.map (Child.traced n), blocks.2)

theorem tracedBlocks_cons (n : ℕ) {x x' : Except Failure (List Child × List Comment)}
    (h : x'.map (tracedBlocks n) = x.map (tracedBlocks n)) {c c' : Child}
    (hc : c'.traced n = c.traced n) (cs : List Comment) :
    (x'.map fun more => (c' :: more.1, cs ++ more.2)).map (tracedBlocks n) =
      (x.map fun more => (c :: more.1, cs ++ more.2)).map (tracedBlocks n) := by
  obtain ⟨e, rfl, rfl⟩ | ⟨a', a, rfl, rfl, ha⟩ := cases_of_map_eq h
  · rfl
  · obtain ⟨hblocks, hcomments⟩ := Prod.mk.inj ha
    exact congrArg Except.ok (Prod.ext (congrArg₂ List.cons hc hblocks)
      (congrArg (cs ++ ·) hcomments))

theorem children_alike (n last : ℕ) {before before' : Option Child} (h : Alike ls ls')
    (hbefore : before'.map (Child.traced n) = before.map (Child.traced n)) :
    (children last before' ls').map (tracedBlocks n) =
      (children last before ls).map (tracedBlocks n) := by
  induction hlen : ls.length using Nat.strong_induction_on generalizing ls ls' before before' with
  | _ size ih =>
    have hshort := length_skipTrivia ls
    obtain ⟨hpassed, hrest⟩ := h.skipTrivia
    generalize hs : (skipTrivia ls).2 = left at hrest
    generalize hs' : (skipTrivia ls').2 = left' at hrest
    rw [hs] at hshort
    cases hrest with
    | nil => rw [children_of_nil last before hs, children_of_nil last before' hs', hpassed]
    | @cons l l' more more' same header fence rest =>
      rw [children_of_cons hs, children_of_cons hs', same.kind, hpassed]
      by_cases hl : startsTest l.kind
      · have htest := test_alike n last (.cons same header fence rest)
        rw [if_pos hl, if_pos hl]
        generalize ht : test last (l :: more) = x at htest
        generalize test last (l' :: more') = x' at htest
        cases htest with
        | error e => rfl
        | @ok t t' hmatch =>
          have hless : t.rest.length < size := by
            have := length_test ht
            omega
          have hafter : (some t'.value).map (Child.traced n) = (some t.value).map (Child.traced n) :=
            congrArg some hmatch.value
          simp only [Except.bind, hmatch.comments]
          exact tracedBlocks_cons n (ih _ hless hmatch.rest hafter rfl) hmatch.value _
      · rw [if_neg hl, if_neg hl]
        by_cases hb : ∃ keyword name, l.kind = .header .background keyword name
        · obtain ⟨keyword, name, hk⟩ := hb
          rw [hk]
          cases before with
          | none => cases before' with
            | some b' => cases hbefore
            | none =>
              have hback := background_alike n keyword name same (header _ _ _ hk) rest
              simp only
              generalize hb : background l keyword name more = x at hback
              generalize background l' keyword name more' = x' at hback
              cases hback with
              | error e => rfl
              | @ok b b' hmatch =>
                have hless : b.rest.length < size := by
                  have := length_background hb
                  simp only [List.length_cons] at hshort
                  omega
                have hvalue : (Child.background b'.value).traced n =
                    (Child.background b.value).traced n := congrArg Sum.inl hmatch.value
                have hafter : (some (Child.background b'.value)).map (Child.traced n) =
                    (some (Child.background b.value)).map (Child.traced n) := congrArg some hvalue
                simp only [Except.bind, hmatch.comments]
                exact tracedBlocks_cons n (ih _ hless hmatch.rest hafter rfl) hvalue _
          | some b => cases before' with
            | none => cases hbefore
            | some b' => simp only [same.number]
        · split
          · next hk => exact absurd ⟨_, _, hk⟩ hb
          · next hk => exact absurd ⟨_, _, hk⟩ hb
          · split
            · next hk => exact absurd ⟨_, _, hk⟩ hb
            · next hk => exact absurd ⟨_, _, hk⟩ hb
            · rw [misplaced_alike n hbefore same]

/-- A feature as far as it is traced, and its comments. -/
def tracedFeature (n : ℕ) (f : Feature × List Comment) : Gherkin.Feature × List Comment :=
  (f.1.traced n [], f.2)

theorem feature_alike (n last : ℕ) (language : Text) (h : Alike ls ls') :
    (Parser.feature last language ls').map (tracedFeature n) =
      (Parser.feature last language ls).map (tracedFeature n) := by
  unfold Parser.feature
  obtain ⟨e, ht, ht'⟩ | ⟨found, found', passed, ht, ht'⟩ |
    ⟨found, found', passed, l, l', ls, ls', ht, ht', hfound, same, header, rest⟩ := tags_cases n h
  · simp only [ht, ht']
  · simp only [ht, ht']
  · simp only [ht, ht', same.kind]
    split
    · next keyword name hk =>
      have hseen := heading_alike keyword name same (header _ _ _ hk)
      obtain ⟨e, he', he⟩ | ⟨a', a, ha', ha, hblocks⟩ := cases_of_map_eq
        (children_alike n last (description_alike .feature rest)
          (rfl : Option.map (Child.traced n) none = _))
      · rw [he, he']
        rfl
      · obtain ⟨hchildren, hcomments⟩ := Prod.mk.inj hblocks
        rw [ha, ha']
        refine congrArg Except.ok (Prod.ext ?_ (congrArg (_ ++ ·) hcomments))
        simp only [tracedFeature, Feature.traced, Feature.plain, Heading.plain_eq_of_seen hseen,
          Heading.traced_eq_of_seen n hseen, hfound, hchildren]
    · have hnil : (found' = []) = (found = []) := by
        rw [← List.map_eq_nil_iff (f := LocatedTag.traced n), hfound, List.map_eq_nil_iff]
      simp only [same.unexpected, hnil]

theorem Alike.length_eq (h : Alike ls ls') : ls'.length = ls.length := by
  induction h with
  | nil => rfl
  | cons _ _ _ _ ih => rw [List.length_cons, List.length_cons, ih]

/-- A document is refused for the same reason when its lines stand elsewhere, or it has the same
trace. -/
theorem document_alike (n : ℕ) (language : Text) (h : Alike ls ls') :
    (Parser.document language ls').map (traced n) = (Parser.document language ls).map (traced n) := by
  rw [Parser.document, Parser.document, h.length_eq]
  obtain ⟨passed, hs, hs'⟩ | ⟨passed, l, l', rest, rest', hs, hs', hcons⟩ := h.skipTrivia_cases
  · rw [hs, hs']
  · rw [hs, hs']
    obtain ⟨e, he', he⟩ | ⟨f', f, hf', hf, hview⟩ :=
      cases_of_map_eq (feature_alike n ls.length language hcons)
    · simp only [he, he']
    · obtain ⟨hfeature, hcomments⟩ := Prod.mk.inj hview
      simp only [hf, hf', Except.map, traced, Option.map_some, hcomments]
      refine congrArg Except.ok (Prod.ext (congrArg some ?_) rfl)
      exact congrArg (fun x : Gherkin.Feature =>
        { x with comments := (passed ++ f.2).map (Comment.traced n) }) hfeature

end Document

end Gherkin
