import Gherkin.Proofs.Layout.RoundTrip
import Gherkin.Proofs.Line.StepLine

/-! Doc strings that are rendered and read again. Whatever the content, the step is read, and its
doc string ends where it was written to end. Proved: the content is what it was just when every
escaped fence in it is followed by two more quotes; any other escaped fence becomes a fence. -/

namespace Gherkin

variable {d : Dialect} {content text : Text} {contentType : Option Text}

/-- Where keywords do not cross, any trimmed text may stand behind any keyword. -/
theorem Step.Readable.of_keyword (hd : d.Sound) (hs : d.Separate) (hcross : d.Uncrossed)
    {keyword : Text} (hk : keyword ∈ d.stepKeywords) (htext : text.trim = text)
    (hline : '\n' ∉ text) {block : Option StepBlock} (hblock : ∀ b ∈ block, b.Readable) :
    Step.Readable d { keyword := keyword.trim, text, block } where
  keyword := by
    obtain ⟨c, cs, hcons, -⟩ := (hd.step _ hk).exists_trim_cons
    show keyword.trim ≠ []
    rw [hcons]
    exact List.cons_ne_nil c cs
  line := hline
  kind := (Vocabulary.isStep_written_iff hd hs hk htext).2 (hcross.written hk text)
  block := hblock

/-- A step of the default dialect that begins with the keyword `Given` and has a doc string. -/
def givenDocString (text content : Text) (contentType : Option Text) : Step where
  keyword := ['G', 'i', 'v', 'e', 'n']
  text := text
  block := some (.docString content contentType)

theorem readable_givenDocString (hcontent : ∀ l ∈ content.lines, l.getLast? ≠ some '\r')
    (htype : ∀ t ∈ contentType, IsContentType t) (htext : text.trim = text)
    (hline : '\n' ∉ text) :
    (givenDocString text content contentType).Readable Dialect.english := by
  have hcode : Dialect.get? Dialect.defaultCode = some Dialect.english := rfl
  have hcross := Dialect.uncrossed_of_get? hcode (by decide +kernel)
  have hgiven : ['G', 'i', 'v', 'e', 'n', ' '] ∈ Dialect.english.stepKeywords := by
    refine Dialect.mem_stepKeywords.2 ?_
    simp [Dialect.english, Dialect.ofWords]
  have hblock : ∀ b ∈ some (StepBlock.docString content contentType), b.Readable := by
    intro b hb
    obtain rfl := Option.some.inj hb
    exact ⟨hcontent, htype⟩
  exact Step.Readable.of_keyword (Dialect.sound_of_get? hcode)
    (Dialect.separate_of_get? hcode) hcross hgiven htext hline hblock

/-- A rendered doc string is read with its content type, and with its content just when every
escaped fence in it is followed by two more quotes. -/
theorem Step.parse_docString (hcontent : ∀ l ∈ content.lines, l.getLast? ≠ some '\r')
    (htype : ∀ t ∈ contentType, IsContentType t) (htext : text.trim = text)
    (hline : '\n' ∉ text) {indent : Text} (hindent : ∀ c ∈ indent, c = ' ' ∨ c = '\t') :
    ∃ r, Step.parse Dialect.defaultCode (Style.step ⟨indent, Dialect.defaultCode⟩
        (givenDocString text content contentType)) = .ok r ∧
      r.keyword = ['G', 'i', 'v', 'e', 'n'] ∧ r.text = text ∧
      r.block = some (.docString content.reread contentType) ∧
      (r.block = some (.docString content contentType) ↔
        ∀ before after, content = before ++ Fence.quotes.escaped ++ after →
          ['"', '"'] <+: after) := by
  let s : Style := ⟨indent, Dialect.defaultCode⟩
  have hcode : Dialect.get? s.code = some s.dialect := rfl
  have hs : s.indent.IsIndent := Text.IsSpacing.isIndent hindent
  obtain ⟨r, hparse, hr⟩ := Step.exists_parse_reread hcode hs
    (readable_givenDocString hcontent htype htext hline)
  have hblock : r.block = some (.docString content.reread contentType) :=
    congrArg Step.block hr
  refine ⟨r, hparse, congrArg Step.keyword hr, congrArg Step.text hr, hblock, ?_⟩
  rw [hblock, Option.some_inj, StepBlock.docString.injEq, and_iff_left rfl]
  exact Text.reread_eq_self_iff

/-- An indented fence, an empty line, and a line that looks like a row and has an escaped fence with
two more quotes. -/
def fencedContent : Text :=
  [' ', '"', '"', '"', '\n', '\n', '|', '\\', '"', '\\', '"', '\\', '"', '"', '"', '|']

theorem Step.parse_docString_fences :
    (∀ l ∈ fencedContent.lines, l.getLast? ≠ some '\r') ∧
      (∀ t ∈ some ['x', 'm', 'l'], IsContentType t) ∧
      ∃ r, Step.parse Dialect.defaultCode (Style.step ⟨['\t'], Dialect.defaultCode⟩
          (givenDocString ['x'] fencedContent (some ['x', 'm', 'l']))) = .ok r ∧
        r.block = some (.docString fencedContent (some ['x', 'm', 'l'])) := by
  have hlines : ∀ l ∈ fencedContent.lines, l.getLast? ≠ some '\r' := by decide
  have htype : ∀ t ∈ some ['x', 'm', 'l'], IsContentType t := by
    intro t ht
    obtain rfl := Option.some.inj ht
    exact ⟨by decide, rfl, by decide⟩
  have hindent : ∀ c ∈ ['\t'], c = ' ' ∨ c = '\t' := by simp
  obtain ⟨r, hparse, -, -, hblock, -⟩ :=
    Step.parse_docString hlines htype (rfl : Text.trim ['x'] = ['x']) (by decide) hindent
  have hsame : fencedContent.reread = fencedContent := rfl
  exact ⟨hlines, htype, r, hparse, by rw [hblock, hsame]⟩

/-- A doc string that is an escaped fence is read as a fence. -/
theorem Step.parse_docString_escaped :
    (∀ l ∈ Text.lines Fence.quotes.escaped, l.getLast? ≠ some '\r') ∧
      ∃ r, Step.parse Dialect.defaultCode (Style.step ⟨['\t'], Dialect.defaultCode⟩
          (givenDocString ['x'] Fence.quotes.escaped none)) = .ok r ∧
        r.block = some (.docString Fence.quotes.mark none) ∧
        r.block ≠ some (.docString Fence.quotes.escaped none) := by
  let s : Style := ⟨['\t'], Dialect.defaultCode⟩
  have hcode : Dialect.get? s.code = some s.dialect := rfl
  have hindent : ∀ c ∈ ['\t'], c = ' ' ∨ c = '\t' := by simp
  have hs : s.indent.IsIndent := Text.IsSpacing.isIndent hindent
  have hlines : ∀ l ∈ Text.lines Fence.quotes.escaped, l.getLast? ≠ some '\r' := by
    rw [Fence.escaped_quotes]
    decide
  have htype : ∀ t ∈ (none : Option Text), IsContentType t := by simp
  obtain ⟨r, hparse, hr⟩ := Step.exists_parse_reread hcode hs
    (readable_givenDocString hlines htype (rfl : Text.trim ['x'] = ['x']) (by decide))
  have hfence : Fence.quotes.escaped.reread = Fence.quotes.mark := by
    have h := Text.reread_escaped_append (t := []) (by simp)
    rwa [List.append_nil, Text.reread_nil, List.append_nil] at h
  have hblock : r.block = some (.docString Fence.quotes.mark none) := by
    rw [← hfence]
    exact congrArg Step.block hr
  refine ⟨hlines, r, hparse, hblock, ?_⟩
  rw [hblock, Fence.mark_quotes, Fence.escaped_quotes]
  simp

end Gherkin
