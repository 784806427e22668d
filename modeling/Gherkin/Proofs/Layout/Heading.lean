import Gherkin.Proofs.Layout.Holds
import Gherkin.Proofs.Line.Tags

/-! What opens a block: a line of tags, the header line with the keyword of the dialect where there
is none, and a description in normal form. -/

open Gherkin.Document

namespace Gherkin

variable {d : Dialect} {p : Text} {ls : List Line}

/-! ### Tags -/

theorem IsTagName.not_isBlank {t : Text} (h : IsTagName t) : ∀ c ∈ t, Text.isBlank c = false := by
  obtain ⟨name, rfl, -, hname⟩ := h
  refine List.forall_mem_cons.2 ⟨by decide, fun c hc => ?_⟩
  have hchar := hname c hc
  rw [LocatedTag.isNameChar, Bool.and_eq_true, Bool.not_eq_true'] at hchar
  exact hchar.1

/-- A line of tags starts with an at sign, has nothing to trim, and is one line. -/
theorem joinWith_names {names : List Text} (hne : names ≠ []) (h : ∀ n ∈ names, IsTagName n) :
    (∃ cs, Text.joinWith ' ' names = '@' :: cs) ∧
      Text.trimEnd (Text.joinWith ' ' names) = Text.joinWith ' ' names ∧
      '\n' ∉ Text.joinWith ' ' names := by
  induction names with
  | nil => exact absurd rfl hne
  | cons n names ih =>
    obtain ⟨hn, hmore⟩ := List.forall_mem_cons.1 h
    have hblank := hn.not_isBlank
    obtain ⟨name, rfl, -, -⟩ := hn
    have hline : '\n' ∉ '@' :: name := fun hmem => Bool.noConfusion (hblank '\n' hmem)
    cases names with
    | nil =>
      rw [Text.joinWith_singleton]
      exact ⟨⟨name, rfl⟩,
        Text.trimEnd_eq_self_iff.2 fun c hc => hblank c (List.mem_of_getLast? hc), hline⟩
    | cons m ms =>
      obtain ⟨⟨cs, hcs⟩, htrim, hlines⟩ := ih (List.cons_ne_nil _ _) hmore
      rw [Text.joinWith_cons_cons]
      refine ⟨⟨_, rfl⟩, ?_, ?_⟩
      · rw [Text.trimEnd_eq_self_iff] at htrim ⊢
        rwa [List.getLast?_append_of_ne_nil _ (List.cons_ne_nil _ _),
          List.getLast?_cons_of_ne_nil (by rw [hcs]; exact List.cons_ne_nil _ _)]
      · intro hmem
        rcases List.mem_append.1 hmem with hmem | hmem
        · exact hline hmem
        · rcases List.mem_cons.1 hmem with hmem | hmem
          · exact absurd hmem (by decide)
          · exact hlines hmem

theorem tagLine_eq {tags : List Tag} (h : Tag.AllNamed tags) :
    Style.tagLine tags =
      if tags = [] then [] else [Text.joinWith ' ' (tags.map Tag.name)] := by
  have hmap : (tags.map Style.tag).filter (!·.isEmpty) = tags.map Tag.name := by
    rw [List.filter_map, List.filter_eq_self.2]
    · refine List.map_congr_left fun t ht => ?_
      obtain ⟨name, hname, -⟩ := h t ht
      rw [Style.tag, hname]
      rfl
    · intro t ht
      obtain ⟨name, hname, -⟩ := h t ht
      simp [Style.tag, hname]
  rw [Style.tagLine, hmap]
  cases tags <;> rfl

theorem holds_tags {tags : List Tag} (h : Tag.AllNamed tags) :
    Holds d Reading.Tags tagsOf (Style.tagLine tags) (tags.map Tag.forget) := by
  rw [tagLine_eq h]
  split
  · next hnil =>
    rw [hnil]
    refine ⟨fun t ht => (nomatch ht), fun _ hw => ⟨[], ?_, rfl⟩⟩
    rw [Written.nil_iff.1 hw]
    exact .nil .nil
  · next hne =>
    have hnames : ∀ n ∈ tags.map Tag.name, IsTagName n := by
      intro n hn
      obtain ⟨t, ht, rfl⟩ := List.mem_map.1 hn
      exact h t ht
    obtain ⟨⟨cs, hcs⟩, hend, hline⟩ := joinWith_names (by simpa using hne) hnames
    have htrim : (Text.joinWith ' ' (tags.map Tag.name)).trim =
        Text.joinWith ' ' (tags.map Tag.name) := by
      refine Text.trim_eq_self_iff.2 ⟨?_, hend⟩
      rw [hcs]
      exact Text.trimStart_cons_of_not (by decide) cs
    refine ⟨fun t ht => ?_, fun hp hw => ?_⟩
    · rw [List.mem_singleton.1 ht]
      exact Text.isLine_of_trimEnd hline hend
    obtain ⟨l, rest, rfl, hraw, hkind, hrest⟩ := Written.cons_iff.1 hw
    obtain rfl := Written.nil_iff.1 hrest
    obtain ⟨found, hfound, hmap⟩ := LocatedTag.exists_split hnames l.location
    have htags : l.kind = .tags := by
      rw [hkind, hcs]
      exact Vocabulary.plainKind_of_ne (Vocabulary.kindOf_at _ cs) (by simp)
    rw [← Written.text_eq hp hraw htrim] at hfound
    have hread := Reading.Tags.cons .nil htags hfound (.nil .nil)
    rw [List.append_nil] at hread
    refine ⟨found, hread, ?_⟩
    have hsame : (found.map LocatedTag.name).map (fun name => ({ name } : Tag)) =
        (tags.map Tag.name).map fun name => { name } := by rw [hmap]
    rw [List.map_map, List.map_map] at hsame
    exact hsame

/-! ### Descriptions -/

/-- The lines that a description adds. -/
def paragraph (description : Text) : List Text :=
  if description = [] then [] else description.lines

theorem exists_describe (s : Style) (page : List Text) (t description : Text) :
    ∃ blanks : List Text, (∀ u ∈ blanks, u = []) ∧
      s.describe (page ++ [t]) description = page ++ t :: (blanks ++ paragraph description) := by
  rw [Style.describe, paragraph]
  split
  · exact ⟨[], by simp, by simp⟩
  · have hline : Page.line s.indent 0 = id := funext (Page.line_zero s.indent)
    obtain ⟨blanks, hgap, hblank⟩ := Page.exists_gap (page ++ [t])
    refine ⟨blanks, hblank, ?_⟩
    rw [Page.apart, hgap, Page.block, hline, List.map_id]
    simp

theorem Written.map_raw {v : Vocabulary} {page : List Text} (h : Written v p page ls) :
    ls.map Line.raw = page.map (Text.shift p) := by
  induction h with
  | nil => rfl
  | cons hm _ ih => rw [List.map_cons, List.map_cons, hm.1, ih]

/-- A line of a description that is not empty has something to show. -/
theorem exists_not_isBlank {t : Text} (htrim : Text.trimEnd t = t) (hne : t ≠ []) :
    ∃ c ∈ t, Text.isBlank c = false := by
  have hlast := List.getLast?_eq_some_getLast hne
  exact ⟨_, List.getLast_mem hne, Text.trimEnd_eq_self_iff.1 htrim _ hlast⟩

section Description

variable {ts : List Text} (hts : Text.IsDescription ts) (hp : p.IsIndent)
  (hw : Written d.vocabulary p ts ls)

include hts hw in
theorem dropWhile_description : ls.dropWhile (·.kind = .blank) = ls := by
  rw [Text.dropWhile_eq_self_iff]
  intro l hl
  obtain ⟨t, ts, rfl⟩ := List.exists_cons_of_ne_nil hts.ne_nil
  obtain ⟨m, rest, rfl, -, hkind, -⟩ := Written.cons_iff.1 hw
  obtain rfl := Option.some.inj hl
  obtain ⟨c, hc, hblank⟩ :=
    exists_not_isBlank (hts.trimmed t List.mem_cons_self) (hts.head t rfl)
  rw [hkind, decide_eq_false_iff_not]
  intro h
  have hplain : d.vocabulary.kindOf t = .blank := by
    unfold Vocabulary.plainKind at h
    split at h
    · cases h
    · exact h
  rw [Vocabulary.kindOf_eq_blank_iff, Text.trim_eq_nil_iff] at hplain
  exact absurd (hplain c hc) (by simp [hblank])

include hts hw in
theorem descriptionText_eq :
    Parser.descriptionText ls = some (Text.unlines (ts.map (Text.shift p))) := by
  have hmap : (ls.map fun l => Text.trimEnd l.raw) = ts.map (Text.shift p) := by
    have hraw := congrArg (List.map Text.trimEnd) hw.map_raw
    rw [List.map_map, List.map_map] at hraw
    refine hraw.trans (List.map_congr_left fun t ht => ?_)
    exact Text.trimEnd_shift (hts.trimmed t ht)
  have hkeep : (ts.map (Text.shift p)).reverse.dropWhile List.isEmpty =
      (ts.map (Text.shift p)).reverse := by
    rw [Text.dropWhile_eq_self_iff, List.head?_reverse, List.getLast?_map]
    intro t ht
    obtain ⟨u, hu, rfl⟩ := Option.map_eq_some_iff.1 ht
    simpa using hts.last u hu
  rw [Parser.descriptionText, hmap, hkeep, List.reverse_reverse]
  obtain ⟨t, more, rfl⟩ := List.exists_cons_of_ne_nil hts.ne_nil
  rfl

include hts hp hw in
/-- A description is read back in normal form. -/
theorem descriptionOf_eq (hline : ∀ t ∈ ts, '\n' ∉ t) :
    descriptionOf (Parser.descriptionText ls) = Text.unlines ts := by
  obtain ⟨t, ht, hne, -⟩ := hts.unindented
  obtain ⟨c, hc, hblank⟩ := exists_not_isBlank (hts.trimmed t ht) hne
  have hshow : c ∈ Text.unlines (ts.map (Text.shift p)) := by
    refine Text.mem_joinWith (List.mem_map_of_mem ht) ?_
    rw [Text.shift_of_ne hne]
    exact List.mem_append_right _ hc
  have htrim : Text.trim (Text.unlines (ts.map (Text.shift p))) ≠ [] := by
    rw [ne_eq, Text.trim_eq_nil_iff]
    intro h
    exact absurd (h c hshow) (by simp [hblank])
  rw [descriptionText_eq hts hw, descriptionOf, if_neg htrim,
    hts.normalize_shift hline hp.blank hp.line]

end Description

/-! ### Header lines -/

variable {block : Block} {h : Heading} {keyword : Text}

theorem keywordOr_mem (hkeyword : (block, keyword) ∈ d.headerKeywords) (hh : h.WellFormed d block) :
    (block, Style.keywordOr h.keyword keyword) ∈ d.headerKeywords := by
  rw [Style.keywordOr]
  split
  · exact hkeyword
  · next hne => exact hh.keyword.resolve_left hne

theorem isLine_nameLine (hd : d.Sound) (hkeyword : (block, keyword) ∈ d.headerKeywords)
    (hh : h.WellFormed d block) :
    Text.IsLine (Style.nameLine (Style.keywordOr h.keyword keyword) h.name) := by
  have hmem := keywordOr_mem hkeyword hh
  have hline := (hd.header _ hmem).1.line
  obtain ⟨_, -, -, hend⟩ :=
    Vocabulary.nameLine_eq (Style.keywordOr h.keyword keyword) hh.name
  refine Text.isLine_of_trimEnd ?_ hend
  have hcolon : ": ".toList = [':', ' '] := rfl
  unfold Style.nameLine
  split
  · simp [hline]
  · simp [hline, hcolon, hh.name_line]

theorem isLine_paragraph (hh : h.WellFormed d block) : ∀ t ∈ paragraph h.description, t.IsLine := by
  intro t ht
  rw [paragraph] at ht
  split at ht
  · cases ht
  · next hne =>
    have hdescription := Text.isDescription_of_normal hh.description hne
    exact Text.isLine_of_trimEnd (Text.not_mem_lines ht) (hdescription.trimmed t ht)

/-- No line of a description in normal form ends it. -/
theorem endsDescription_plainKind {t : Text}
    (h : Parser.endsDescription block (d.vocabulary.kindOf t) = false) :
    Parser.endsDescription block (d.vocabulary.plainKind t) = false := by
  unfold Vocabulary.plainKind
  split
  · next hcode =>
    rw [hcode] at h
    cases h
  · exact h

theorem holds_headed (hd : d.Sound) (hkeyword : (block, keyword) ∈ d.headerKeywords)
    (hh : h.WellFormed d block) {blanks : List Text} (hblanks : ∀ t ∈ blanks, t = []) :
    Holds d (Reading.Headed block) Heading.plain
      (Style.nameLine (Style.keywordOr h.keyword keyword) h.name ::
        (blanks ++ paragraph h.description)) (h.settle keyword) where
  line := by
    refine List.forall_mem_cons.2 ⟨isLine_nameLine hd hkeyword hh,
      List.forall_mem_append.2 ⟨fun t ht => ?_, isLine_paragraph hh⟩⟩
    rw [hblanks t ht]
    exact Text.IsLine.nil
  reading hp hw := by
    obtain ⟨l, rest, rfl, -, hkind, hrest⟩ := Written.cons_iff.1 hw
    obtain ⟨empty, body, rfl, hempty, hbody⟩ := Written.append_iff.1 hrest
    have hblank := hempty.blank hblanks
    rw [Vocabulary.plainKind_of_ne (Vocabulary.kindOf_nameLine hd (keywordOr_mem hkeyword hh)
      hh.name) (by simp)] at hkind
    have hends : ∀ x ∈ empty ++ body, Parser.endsDescription block x.kind = false := by
      refine List.forall_mem_append.2 ⟨fun x hx => ?_, fun x hx => ?_⟩
      · rw [hblank x hx]
        rfl
      · obtain ⟨t, ht, -, hkind⟩ := hbody.exists_of_mem hx
        rw [paragraph] at ht
        split at ht
        · cases ht
        · rw [hkind]
          exact endsDescription_plainKind (hh.description_lines t ht)
    have hdrop : (empty ++ body).dropWhile (fun l => decide (l.kind = .blank)) =
        body.dropWhile fun l => decide (l.kind = .blank) :=
      List.dropWhile_append_of_pos fun x hx => decide_eq_true (hblank x hx)
    have hdescription : descriptionOf (Parser.descriptionText
        ((empty ++ body).dropWhile fun l => decide (l.kind = .blank))) = h.description := by
      rw [hdrop]
      unfold paragraph at hbody
      split at hbody
      · next hnil =>
        rw [Written.nil_iff.1 hbody, hnil]
        rfl
      · next hne =>
        have hts := Text.isDescription_of_normal hh.description hne
        rw [dropWhile_description hts hbody,
          descriptionOf_eq hts hp hbody fun t ht => Text.not_mem_lines ht, Text.unlines_lines]
    refine ⟨_, .mk .nil hkind hends, ?_⟩
    rw [Document.Heading.plain, hdescription]
    rfl

end Gherkin
