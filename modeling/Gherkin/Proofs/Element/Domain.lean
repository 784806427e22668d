import Gherkin.Proofs.Element.Alone
import Gherkin.Proofs.Element.WellFormed
import Gherkin.Proofs.Line.Kinds
import Gherkin.Proofs.Text.Normal

/-! What every element that is read is like. Names, keywords, descriptions, tags, rows, content types
and comments are as rendering asks for, whichever text and dialect they were read from. -/

open Gherkin.Document

namespace Gherkin

/-! ### The domain of rendering -/

section Domain

variable (d : Dialect)

/-- A keyword of the block, a name that fits on the header line, and a description in normal form that
no line of its own ends. -/
structure Heading.InDomain (block : Block) (h : Heading) : Prop where
  keyword : (block, h.keyword) ∈ d.headerKeywords
  name : h.name.trim = h.name
  name_line : '\n' ∉ h.name
  description : Text.normalizeDescription h.description = h.description
  description_lines : ∀ l ∈ h.description.lines,
    Parser.endsDescription block (d.vocabulary.kindOf l) = false

def StepBlock.InDomain : StepBlock → Prop
  | table rows => rows ≠ [] ∧ IsTable rows
  | docString _ contentType => ∀ t ∈ contentType, IsContentType t

/-- A keyword of a step, less the blanks at its ends, and a text that fits on the line. -/
structure Step.InDomain (s : Step) : Prop where
  ne_nil : s.keyword ≠ []
  keyword : ∃ k ∈ d.stepKeywords, k.trim = s.keyword
  text : s.text.trim = s.text
  text_line : '\n' ∉ s.text
  block : ∀ b ∈ s.block, b.InDomain

structure Example.InDomain (e : Example) : Prop where
  heading : e.toHeading.InDomain d .examples
  tags : Tag.AllNamed e.tags
  rows : IsTable e.rows

structure Background.InDomain (b : Background) : Prop where
  heading : b.toHeading.InDomain d .background
  steps : ∀ s ∈ b.steps, s.InDomain d

structure Scenario.InDomain (s : Scenario) : Prop where
  heading : s.toHeading.InDomain d .scenario
  tags : Tag.AllNamed s.tags
  steps : ∀ x ∈ s.steps, x.InDomain d

structure Outline.InDomain (o : Outline) : Prop where
  heading : o.toHeading.InDomain d .outline
  tags : Tag.AllNamed o.tags
  steps : ∀ x ∈ o.steps, x.InDomain d
  examples : ∀ e ∈ o.examples, e.InDomain d

def Test.InDomain : Test → Prop
  | scenario s => s.InDomain d
  | outline o => o.InDomain d

/-- A feature all of whose parts can be rendered. -/
structure Feature.InDomain (f : Feature) : Prop where
  heading : f.toHeading.InDomain d .feature
  tags : Tag.AllNamed f.tags
  background : ∀ b ∈ f.background, b.InDomain d
  tests : ∀ t ∈ f.tests, t.InDomain d
  comments : ∀ c ∈ f.comments, c.Marked

end Domain

variable {d : Dialect}

/-! ### Origins do not matter -/

theorem Step.InDomain.of_forget {s : Step} (h : s.forget.InDomain d) : s.InDomain d :=
  ⟨h.ne_nil, h.keyword, h.text, h.text_line, h.block⟩

theorem Step.inDomain_of_forget {steps : List Step}
    (h : ∀ s ∈ steps.map Step.forget, s.InDomain d) : ∀ s ∈ steps, s.InDomain d :=
  fun s hs => .of_forget (h s.forget (List.mem_map_of_mem hs))

theorem Example.InDomain.of_forget {e : Example} (h : e.forget.InDomain d) : e.InDomain d :=
  ⟨h.heading, Tag.allNamed_forget.1 h.tags, h.rows⟩

theorem Background.InDomain.of_forget {b : Background} (h : b.forget.InDomain d) : b.InDomain d :=
  ⟨h.heading, Step.inDomain_of_forget h.steps⟩

theorem Test.InDomain.of_forget {t : Test} (h : t.forget.InDomain d) : t.InDomain d := by
  cases t with
  | scenario s => exact ⟨h.heading, Tag.allNamed_forget.1 h.tags, Step.inDomain_of_forget h.steps⟩
  | outline o =>
    refine ⟨h.heading, Tag.allNamed_forget.1 h.tags, Step.inDomain_of_forget h.steps, ?_⟩
    exact fun e he => .of_forget (h.examples e.forget (List.mem_map_of_mem he))

theorem Feature.InDomain.of_forget {f : Feature} (h : f.forget.InDomain d) : f.InDomain d where
  heading := h.heading
  tags := Tag.allNamed_forget.1 h.tags
  background b hb := .of_forget (h.background b.forget (Option.mem_map_of_mem _ hb))
  tests t ht := .of_forget (h.tests t.forget (List.mem_map_of_mem ht))
  comments c hc :=
    have hmarked := h.comments c.forget (List.mem_map_of_mem hc)
    ⟨hmarked.trimmed, hmarked.line, hmarked.sign⟩

/-! ### Lines that end a description -/

namespace Vocabulary

theorem isSome_step?_of_prefix {v : Vocabulary} {s t : Text} (h : s <+: t) (hs : (v.step? s).isSome) :
    (v.step? t).isSome := by
  obtain ⟨rest, rfl⟩ := h
  rw [step?, List.isSome_findSome?, List.any_eq_true] at hs ⊢
  obtain ⟨k, hk, hsome⟩ := hs
  refine ⟨k, hk, ?_⟩
  rw [Option.isSome_map] at hsome ⊢
  obtain ⟨more, hmore⟩ := Option.isSome_iff_exists.1 hsome
  rw [Text.after?_eq_some_iff.1 hmore, List.append_assoc, Text.after?_append]
  rfl

/-- A line does not come to end a description by losing blanks at either end. -/
theorem endsDescription_kindOf (hd : d.Sound) {block : Block} {s t : Text} (htrim : s.trim = t.trim)
    (hshorter : s.trimStart <+: t.trimStart)
    (h : Parser.endsDescription block (d.vocabulary.kindOf t) = false) :
    Parser.endsDescription block (d.vocabulary.kindOf s) = false := by
  cases ht : t.trim with
  | nil => rw [kindOf_eq_blank_iff.2 (htrim.trans ht)]; rfl
  | cons c cs =>
    by_cases hsign : c = '#' ∨ c = '@'
    · have hsame : d.vocabulary.kindOf s = d.vocabulary.kindOf t := by
        rcases hsign with rfl | rfl <;> simp only [kindOf, htrim, ht]
      rwa [hsame]
    obtain ⟨hhash, hat⟩ := not_or.1 hsign
    rw [kindOf_of_cons (htrim.trans ht) hhash hat, htrim]
    rw [kindOf_of_cons ht hhash hat] at h
    cases hheader : d.vocabulary.header? t.trim with
    | some k => rwa [hheader] at h
    | none =>
      rw [hheader] at h
      cases hstep : d.vocabulary.step? s.trimStart with
      | some k =>
        -- then the longer line is a step as well, and all steps are alike here
        have hlong := isSome_step?_of_prefix hshorter (by rw [hstep]; rfl)
        obtain ⟨k', hk'⟩ := Option.isSome_iff_exists.1 hlong
        rw [hk'] at h
        obtain ⟨_, _, -, -, rfl⟩ := step?_eq_some hstep
        obtain ⟨_, _, -, -, rfl⟩ := step?_eq_some hk'
        exact h
      | none =>
        cases hfence : fence? t.trim with
        | some k =>
          obtain ⟨_, _, -, rfl⟩ := fence?_eq_some hfence
          rfl
        | none =>
          by_cases hc : c = '|'
          · -- no keyword starts with a pipe, so the longer line is a row too
            subst hc
            have hshape : ∃ rest, t.trimStart = '|' :: rest := by
              obtain ⟨rest, hrest⟩ := Text.trimEnd_prefix t.trimStart
              rw [← hrest, ← Text.trim, ht]
              exact ⟨_, rfl⟩
            obtain ⟨rest, hrest⟩ := hshape
            rwa [hrest, step?_eq_none_of_sign hd (by decide), hfence] at h
          · rw [if_neg hc]
            rfl

end Vocabulary

/-! ### Lines of a text -/

namespace Document

/-- A line that holds no line feed and is of the kind that it has in a dialect; a language line may
count as a comment. -/
structure Sorted (d : Dialect) (l : Line) : Prop where
  line : '\n' ∉ l.raw
  kind : l.kind = d.vocabulary.kindOf l.raw ∨
    l.kind = .comment ∧ ∃ code, d.vocabulary.kindOf l.raw = .language code

theorem sorted_linesIn {header : Option ℕ} {source : Text} :
    ∀ l ∈ linesIn d header source, Sorted d l := by
  intro l hl
  obtain ⟨m, hm, rfl⟩ := List.mem_map.1 hl
  obtain ⟨i, hi, rfl⟩ := List.mem_mapIdx.1 hm
  constructor
  · rw [raw_demote]
    have hsub := Text.dropReturn_prefix source.lines[i]
    exact fun h => Text.not_mem_lines (List.getElem_mem _) (hsub.subset h)
  · rw [raw_demote]
    unfold demote
    split
    · next code hkind =>
      split
      · exact .inl rfl
      · exact .inr ⟨rfl, code, hkind⟩
    · exact .inl rfl

namespace Sorted

variable {l : Line}

theorem fits (h : Sorted d l) (hne : l.kind ≠ .comment) : d.vocabulary.Fits l.raw l.kind := by
  rw [h.kind.resolve_right fun hc => hne hc.1]
  exact Vocabulary.fits_kindOf _ _

/-- A line counts as it is written where descriptions end. -/
theorem endsDescription (h : Sorted d l) (block : Block) :
    Parser.endsDescription block (d.vocabulary.kindOf l.raw) =
      Parser.endsDescription block l.kind := by
  obtain hk | ⟨hk, code, hcode⟩ := h.kind
  · rw [hk]
  · rw [hk, hcode]
    rfl

theorem not_mem_trim (h : Sorted d l) : '\n' ∉ l.raw.trim :=
  fun hmem => h.line ((Text.trim_sublist _).subset hmem)

/-- A comment, or a language line that counts as one, starts with a number sign. -/
theorem marked (h : Sorted d l) (hl : l.kind = .comment) :
    Comment.Marked { text := l.text } := by
  refine ⟨Text.trim_trim _, h.not_mem_trim, ?_⟩
  have hfits := Vocabulary.fits_kindOf d.vocabulary l.raw
  obtain hk | ⟨-, code, hcode⟩ := h.kind
  · rw [← hk, hl] at hfits
    exact hfits.1
  · rw [hcode] at hfits
    -- a language line starts with one, too
    cases hafter : Text.after? ['#'] l.raw.trim with
    | none =>
      have hnone : languageCode? l.raw.trim = none := by rw [languageCode?, hafter]; rfl
      exact absurd (hnone.symm.trans hfits) (by simp)
    | some rest => exact ⟨rest, Text.after?_eq_some_iff.1 hafter⟩

end Sorted

variable {ls : List Line} {cs : List Document.Comment}

/-! ### Parts of a document -/

theorem inDomain_tags {found : List LocatedTag} (h : Reading.Tags ls found cs) :
    Tag.AllNamed (tagsOf found) := by
  rw [Tag.AllNamed, tagsOf, List.forall_mem_map]
  induction h with
  | nil => simp
  | cons _ _ hf _ ih => exact List.forall_mem_append.2 ⟨LocatedTag.isTagName_of_splitFrom hf, ih⟩

theorem inDomain_rows {width : ℕ} {rows : List Row} (h : Reading.Rows width ls rows cs) :
    IsTable (rows.map Row.plain) := by
  have hrows : ∀ r ∈ rows, r.cells.length = width ∧ ∀ c ∈ r.cells, Cell.Fits c.value := by
    induction h with
    | nil => simp
    | cons _ _ hw _ ih => exact List.forall_mem_cons.2 ⟨⟨hw, Cell.fits_split⟩, ih⟩
  constructor
  · simp only [List.forall_mem_map, Row.plain, List.length_map]
    intro r hr r' hr'
    rw [(hrows r hr).1, (hrows r' hr').1]
  · simp only [List.forall_mem_map, Row.plain]
    exact fun r hr => (hrows r hr).2

theorem mem_lines_descriptionText {t m : Text} (hline : ∀ l ∈ ls, '\n' ∉ l.raw)
    (h : Parser.descriptionText ls = some t) (hm : m ∈ t.lines) : ∃ l ∈ ls, m = l.raw.trimEnd := by
  unfold Parser.descriptionText at h
  generalize hkept : ((ls.map fun l => l.raw.trimEnd).reverse.dropWhile List.isEmpty).reverse =
    kept at h
  have hmem : ∀ k ∈ kept, ∃ l ∈ ls, k = l.raw.trimEnd := by
    intro k hk
    rw [← hkept, List.mem_reverse] at hk
    have hk := List.mem_reverse.1 ((List.dropWhile_sublist _).subset hk)
    obtain ⟨l, hl, rfl⟩ := List.mem_map.1 hk
    exact ⟨l, hl, rfl⟩
  cases kept with
  | nil => cases h
  | cons k ks =>
    obtain rfl := Option.some.inj h
    rw [Text.lines_unlines] at hm
    · exact hmem m hm
    · intro k' hk'
      obtain ⟨l, hl, rfl⟩ := hmem k' hk'
      exact fun hn => hline l hl ((Text.trimEnd_sublist _).subset hn)

/-- No line of a description ends it, in the normal form no more than as it was written. -/
theorem inDomain_description (hd : d.Sound) {block : Block} (hs : ∀ l ∈ ls, Sorted d l)
    (hls : ∀ l ∈ ls, Parser.endsDescription block l.kind = false) :
    ∀ m ∈ (descriptionOf (Parser.descriptionText ls)).lines,
      Parser.endsDescription block (d.vocabulary.kindOf m) = false := by
  have hempty : Parser.endsDescription block (d.vocabulary.kindOf []) = false := rfl
  intro m hm
  rw [descriptionOf_eq_normal] at hm
  cases ht : Parser.descriptionText ls with
  | none =>
    rw [ht] at hm
    rw [List.mem_singleton.1 hm]
    exact hempty
  | some t =>
    rw [ht, Option.map_some, Option.getD_some] at hm
    obtain rfl | ⟨k, hk, n, hn, rfl⟩ := Text.exists_of_mem_lines_normalize hm
    · exact hempty
    obtain ⟨l, hl, rfl⟩ := mem_lines_descriptionText (fun l hl => (hs l hl).line) ht hk
    rw [Text.trimEnd_trimEnd] at hn ⊢
    have hstart := Text.trimStart_drop hn
    refine Vocabulary.endsDescription_kindOf hd (t := l.raw) ?_ ?_ ?_
    · rw [Text.trim, hstart, ← Text.trim, Text.trim_trimEnd]
    · rw [hstart]
      exact Text.trimStart_trimEnd_prefix _
    · rw [(hs l hl).endsDescription]
      exact hls l hl

theorem inDomain_headed (hd : d.Sound) {block : Block} {head : Document.Heading}
    (h : Reading.Headed block ls head cs) (hs : ∀ l ∈ ls, Sorted d l) :
    head.plain.InDomain d block := by
  cases h with
  | @mk ts l body keyword name ht hl hb =>
    obtain ⟨-, hsl, hsb⟩ := List.forall_mem_append.1 hs |>.imp_right List.forall_mem_cons.1
    have hfits := hsl.fits (by rw [hl]; simp)
    rw [hl] at hfits
    obtain ⟨rest, hmem, htext, rfl⟩ := hfits
    have hsub := (List.dropWhile_sublist (l := body) (·.kind = .blank)).subset
    refine ⟨Dialect.mem_vocabulary_headers.1 hmem, Text.trim_trim rest, fun hn => ?_, ?_, ?_⟩
    · have hrest := (Text.trim_sublist rest).subset hn
      exact hsl.not_mem_trim (htext ▸ List.mem_append_right _ (List.mem_cons_of_mem _ hrest))
    · show Text.normalizeDescription (descriptionOf _) = descriptionOf _
      rw [descriptionOf_eq_normal]
      cases Parser.descriptionText (body.dropWhile (·.kind = .blank)) with
      | none => rfl
      | some t => exact Text.normalizeDescription_normalizeDescription t
    · exact inDomain_description hd (fun x hx => hsb x (hsub hx)) fun x hx => hb x (hsub hx)

theorem inDomain_argument {arg : Option Argument} (h : Reading.Argument ls arg cs)
    (hs : ∀ l ∈ ls, Sorted d l) : ∀ a ∈ arg, a.plain.InDomain := by
  cases h with
  | none => simp
  | table h =>
    intro a ha
    obtain rfl := Option.some.inj ha
    exact ⟨by simp, inDomain_rows h⟩
  | @docString ts first body last fence contentType ht ho hb hc =>
    intro a ha
    obtain rfl := Option.some.inj ha
    have hsf : Sorted d first := hs first (by simp)
    have hfits := hsf.fits (by rw [ho]; simp)
    rw [ho] at hfits
    obtain ⟨rest, htext, rfl⟩ := hfits
    intro t htype
    split_ifs at htype with hnil
    · cases htype
    obtain rfl := Option.some.inj htype
    refine ⟨hnil, Text.trim_trim rest, fun hn => hsf.not_mem_trim ?_⟩
    rw [htext]
    exact List.mem_append_right _ ((Text.trim_sublist rest).subset hn)

theorem inDomain_step (hd : d.Sound) {s : Document.Step} (h : Reading.Step ls s cs)
    (hs : ∀ l ∈ ls, Sorted d l) : s.plain.InDomain d := by
  cases h with
  | @mk ts l rest keyword text arg ds ht hl ha =>
    obtain ⟨-, hsl, hsr⟩ := List.forall_mem_append.1 hs |>.imp_right List.forall_mem_cons.1
    have hfits := hsl.fits (by rw [hl]; simp)
    rw [hl] at hfits
    obtain ⟨after, hmem, htext, rfl⟩ := hfits
    obtain ⟨c, keyword, rfl, hblank, -⟩ := (hd.step _ hmem).exists_cons
    refine ⟨?_, ⟨_, hmem, rfl⟩, Text.trim_trim after, fun hn => hsl.line ?_, ?_⟩
    · obtain ⟨more, hmore⟩ := Text.trim_cons_of_not hblank keyword
      exact fun hnil => List.cons_ne_nil _ _ (hmore.symm.trans hnil)
    · refine (List.dropWhile_sublist Text.isBlank).subset ?_
      rw [← Text.trimStart, htext]
      exact List.mem_append_right _ ((Text.trim_sublist after).subset hn)
    · intro b hb
      obtain ⟨a, ha', rfl⟩ := Option.map_eq_some_iff.1 hb
      exact inDomain_argument ha hsr a ha'

/-- What holds of each item of a sequence holds of all. -/
theorem forall_of_many {α : Type} {R : List Line → α → List Document.Comment → Prop} {P : α → Prop}
    {items : List α} (hR : ∀ {ls a cs}, R ls a cs → (∀ l ∈ ls, Sorted d l) → P a)
    (h : Reading.Many R ls items cs) (hs : ∀ l ∈ ls, Sorted d l) : ∀ a ∈ items, P a := by
  induction h with
  | nil => simp
  | cons h _ ih =>
    obtain ⟨hs, hmore⟩ := List.forall_mem_append.1 hs
    exact List.forall_mem_cons.2 ⟨hR h hs, ih hmore⟩

theorem inDomain_steps (hd : d.Sound) {steps : List Document.Step}
    (h : Reading.Many Reading.Step ls steps cs) (hs : ∀ l ∈ ls, Sorted d l) :
    ∀ s ∈ steps.map Step.plain, s.InDomain d :=
  List.forall_mem_map.2 (forall_of_many (inDomain_step hd) h hs)

theorem inDomain_examples (hd : d.Sound) {x : Document.Examples} (h : Reading.Examples ls x cs)
    (hs : ∀ l ∈ ls, Sorted d l) : x.plain.InDomain d := by
  cases h with
  | @mk _ _ _ _ _ _ rows _ _ _ ht hh hr =>
    obtain ⟨-, hs, -⟩ := List.forall_mem_append.1 hs |>.imp_right List.forall_mem_append.1
    have hrows : rows.head?.toList ++ rows.tail = rows := by cases rows <;> rfl
    refine ⟨inDomain_headed hd hh hs, inDomain_tags ht, ?_⟩
    simpa only [Examples.plain, hrows] using inDomain_rows hr

theorem inDomain_background (hd : d.Sound) {b : Document.Background}
    (h : Reading.Background ls b cs) (hs : ∀ l ∈ ls, Sorted d l) : b.plain.InDomain d := by
  cases h with
  | mk hh h =>
    obtain ⟨hs, hss⟩ := List.forall_mem_append.1 hs
    exact ⟨inDomain_headed hd hh hs, inDomain_steps hd h hss⟩

theorem inDomain_test (hd : d.Sound) {c : Child} (h : Reading.Test ls c cs)
    (hs : ∀ l ∈ ls, Sorted d l) : ∀ t ∈ c.test?, t.InDomain d := by
  cases h with
  | scenario ht hh h =>
    intro t hmem
    obtain rfl := Option.some.inj hmem
    obtain ⟨-, hs⟩ := List.forall_mem_append.1 hs
    obtain ⟨hs, hss⟩ := List.forall_mem_append.1 hs
    exact ⟨inDomain_headed hd hh hs, inDomain_tags ht, inDomain_steps hd h hss⟩
  | outline ht hh h he =>
    intro t hmem
    obtain rfl := Option.some.inj hmem
    obtain ⟨-, hs⟩ := List.forall_mem_append.1 hs
    obtain ⟨hs, hss⟩ := List.forall_mem_append.1 hs
    obtain ⟨hss, hes⟩ := List.forall_mem_append.1 hss
    refine ⟨inDomain_headed hd hh hs, inDomain_tags ht, inDomain_steps hd h hss, ?_⟩
    exact List.forall_mem_map.2 (forall_of_many (inDomain_examples hd) he hes)

theorem inDomain_tests (hd : d.Sound) {tests : List Child}
    (h : Reading.Many Reading.Test ls tests cs) (hs : ∀ l ∈ ls, Sorted d l) :
    ∀ t ∈ tests.filterMap Child.test?, t.InDomain d := by
  intro t ht
  obtain ⟨c, hc, htest⟩ := List.mem_filterMap.1 ht
  exact forall_of_many (P := fun c => ∀ t ∈ c.test?, t.InDomain d) (inDomain_test hd) h hs c hc t htest

theorem inDomain_feature (hd : d.Sound) {language : Text} {f : Document.Feature}
    {comments : List Document.Comment} (h : Reading.Feature language ls f cs)
    (hs : ∀ l ∈ ls, Sorted d l)
    (hcomments : ∀ c ∈ comments, ∃ l, Sorted d l ∧ l.kind = .comment ∧ c = Parser.commentOf l) :
    (f.plain comments).InDomain d := by
  have hmarked : ∀ c ∈ comments, Comment.Marked { text := c.text } := by
    intro c hc
    obtain ⟨l, hsl, hl, rfl⟩ := hcomments c hc
    exact hsl.marked hl
  cases h with
  | mk ht hh h =>
    obtain ⟨-, hs⟩ := List.forall_mem_append.1 hs
    obtain ⟨hsh, hsc⟩ := List.forall_mem_append.1 hs
    cases h with
    | tests h =>
      refine ⟨inDomain_headed hd hh hsh, inDomain_tags ht, ?_, inDomain_tests hd h hsc,
        List.forall_mem_map.2 hmarked⟩
      simp [Feature.plain, (image_of_tests h).1]
    | @background _ b _ _ tests _ hb h =>
      obtain ⟨hsb, hst⟩ := List.forall_mem_append.1 hsc
      have htests := inDomain_tests hd h hst
      refine ⟨inDomain_headed hd hh hsh, inDomain_tags ht, ?_, htests,
        List.forall_mem_map.2 hmarked⟩
      have hfirst : (Child.background b :: tests).reverse.findSome? Child.background? = some b := by
        rw [List.reverse_cons, List.findSome?_append, (image_of_tests h).1]
        rfl
      intro x hx
      simp only [Feature.plain, hfirst] at hx
      obtain rfl := Option.some.inj hx
      exact inDomain_background hd hb hsb

end Document

/-- Every feature that is read can be rendered, in the dialect that its text was read in: that of the
language header if there is one, and the dialect in force if there is none. -/
theorem FeatureFile.inDomain_of_parse {code path source : Text} {file : FeatureFile}
    (h : FeatureFile.parse code path source = .ok file) {f : Feature} (hf : f ∈ file.feature) :
    ∃ fallback d header, Dialect.get? code = some fallback ∧ ReadIn fallback source d header ∧
      Dialect.get? f.language = some d ∧ f.InDomain d := by
  -- but for its origins the file is the image of the document
  have himage := (FeatureFile.forget_parse code path source).1
  rw [h] at himage
  cases hparse : Document.parse code source with
  | error e =>
    rw [hparse] at himage
    cases himage
  | ok doc =>
    rw [hparse] at himage
    obtain ⟨fallback, language, d, header, hcode, hread, hget, hreading⟩ := reading_of_parse hparse
    have hforget : f.forget ∈ doc.feature.map (Document.Feature.plain doc.comments) := by
      have hfile : file.forget.feature = _ := congrArg FeatureFile.feature (Except.ok.inj himage)
      rw [Option.mem_def, ← Option.mem_def.1 (Option.mem_map_of_mem Feature.forget hf)]
      exact hfile.symm
    have hcomments : ∀ c ∈ doc.comments,
        ∃ l, Sorted d l ∧ l.kind = .comment ∧ c = Parser.commentOf l := by
      intro c hc
      obtain ⟨l, hl, hk, rfl⟩ := exists_of_mem_comments hreading hc
      exact ⟨l, sorted_linesIn l hl, hk, rfl⟩
    cases hreading with
    | empty => cases hforget
    | @feature feature cs hfeature =>
      have hplain : feature.plain _ = f.forget := Option.some.inj hforget
      have hlanguage : f.language = language :=
        (congrArg Feature.language hplain).symm.trans hfeature.language_eq
      refine ⟨fallback, d, header, hcode, hread, by rw [hlanguage, hget], .of_forget ?_⟩
      rw [← hplain]
      exact inDomain_feature (Dialect.sound_of_get? hget) hfeature sorted_linesIn hcomments

/-- A German feature with a description, tags, a step with a table, and a comment. -/
theorem FeatureFile.inDomain_of_parse_german :
    ∃ file f, FeatureFile.parse Dialect.defaultCode "a".toList
        "#language:de\n@b@c\nFunktionalität: d\n  e\nSzenario:\n* f\n|g|\n# h".toList = .ok file ∧
      f ∈ file.feature ∧ f.language = "de".toList ∧ f.InDomain Dialect.german := by
  generalize hsource :
    "#language:de\n@b@c\nFunktionalität: d\n  e\nSzenario:\n* f\n|g|\n# h".toList = source
  generalize hpath : "a".toList = path
  have hlanguage : (FeatureFile.parse Dialect.defaultCode path source).toOption.bind
      (fun file => file.feature.map Feature.language) = some "de".toList := by
    rw [← hsource, ← hpath]
    decide +kernel
  cases hparse : FeatureFile.parse Dialect.defaultCode path source with
  | error e => simp [hparse, Except.toOption] at hlanguage
  | ok file =>
    rw [hparse] at hlanguage
    obtain ⟨f, hf, hde⟩ := Option.map_eq_some_iff.1 hlanguage
    obtain ⟨fallback, d, header, -, -, hget, hdomain⟩ := FeatureFile.inDomain_of_parse hparse hf
    have hgerman : Dialect.get? "de".toList = some Dialect.german := rfl
    rw [hde, hgerman] at hget
    obtain rfl := Option.some.inj hget
    exact ⟨file, f, rfl, hf, hde, hdomain⟩

end Gherkin
