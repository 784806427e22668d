import Mathlib.Data.List.Basic
import Gherkin.Layout.Render
import Gherkin.Proofs.Dialect.Table
import Gherkin.Proofs.Line.Classify
import Gherkin.Proofs.Text.Replace
import Gherkin.Snippet

/-! The kinds of the lines that elements are rendered to, in a dialect whose keywords do not get in
the way of one another. -/

namespace Gherkin

namespace Text

variable {t : Text}

/-- What trimming leaves of a text starts with its first character, unless that is blank. -/
theorem trim_cons_of_not {c : Char} (h : isBlank c = false) (cs : Text) :
    ∃ ds, trim (c :: cs) = c :: ds := by
  rw [trim, trimStart_cons_of_not h]
  by_cases hcs : ∀ d ∈ cs, isBlank d
  · refine ⟨[], ?_⟩
    rw [← List.singleton_append, trimEnd_append_of_blank hcs, ← List.nil_append [c],
      trimEnd_concat_of_not h]
  · have hne : cs.reverse.dropWhile isBlank ≠ [] := by
      rw [ne_eq, List.dropWhile_eq_nil_iff]
      simpa using hcs
    refine ⟨trimEnd cs, ?_⟩
    rw [trimEnd, List.reverse_cons, List.dropWhile_append, if_neg (by simpa using hne)]
    simp [trimEnd]

end Text

variable {d : Dialect} {t : Text}

theorem Dialect.mem_vocabulary_headers {h : Block × Text} :
    h ∈ d.vocabulary.headers ↔ h ∈ d.headerKeywords := by
  simp [Dialect.vocabulary]

theorem Text.IsKeyword.exists_cons (h : t.IsKeyword) :
    ∃ c cs, t = c :: cs ∧ isBlank c = false ∧ c ∉ ['#', '@', '"', '|'] := by
  obtain ⟨c, hc, hblank, hnot⟩ := h.head
  cases t with
  | nil => cases hc
  | cons b cs =>
    obtain rfl := Option.some.inj hc
    exact ⟨b, cs, rfl, hblank, hnot⟩

namespace Vocabulary

/-! ### Headers -/

theorem prefix_of_colon {s s' rest rest' : Text} (hs : ':' ∉ s) (hs' : ':' ∉ s')
    (h : s ++ ':' :: rest = s' ++ ':' :: rest') : s = s' ∧ rest = rest' := by
  induction s generalizing s' with
  | nil => cases s' with
    | nil => exact ⟨rfl, (List.cons.inj h).2⟩
    | cons c s' => exact absurd ((List.cons.inj h).1 ▸ List.mem_cons_self) hs'
  | cons c s ih => cases s' with
    | nil => exact absurd ((List.cons.inj h).1 ▸ List.mem_cons_self) hs
    | cons c' s' =>
      obtain ⟨rfl, htail⟩ := List.cons.inj h
      obtain ⟨rfl, hrest⟩ := ih (fun hm => hs (List.mem_cons_of_mem _ hm))
        (fun hm => hs' (List.mem_cons_of_mem _ hm)) htail
      exact ⟨rfl, hrest⟩

/-- A header keyword and a colon are a header, whatever comes after. -/
theorem header?_append (hd : d.Sound) {block : Block} {keyword : Text}
    (h : (block, keyword) ∈ d.headerKeywords) (rest : Text) :
    d.vocabulary.header? (keyword ++ ':' :: rest) = some (.header block keyword rest.trim) := by
  have hsome : (d.vocabulary.header? (keyword ++ ':' :: rest)).isSome := by
    rw [header?, List.isSome_findSome?, List.any_eq_true]
    refine ⟨(block, keyword), Dialect.mem_vocabulary_headers.2 h, ?_⟩
    have happ := Text.after?_append (keyword ++ [':']) rest
    rw [List.append_assoc, List.singleton_append] at happ
    simp [happ]
  obtain ⟨k, hk⟩ := Option.isSome_iff_exists.1 hsome
  obtain ⟨block', keyword', rest', hmem, heq, rfl⟩ := header?_eq_some hk
  rw [Dialect.mem_vocabulary_headers] at hmem
  obtain ⟨hkey, hrest⟩ := prefix_of_colon (hd.header _ h).2.1 (hd.header _ hmem).2.1 heq
  simp only at hkey
  subst hkey hrest
  have hblock : block = block' := hd.block _ h _ hmem rfl
  rw [hk, hblock]

theorem header?_eq_none_of_not_mem (h : ':' ∉ t) : d.vocabulary.header? t = none := by
  cases hk : d.vocabulary.header? t with
  | none => rfl
  | some k =>
    obtain ⟨_, keyword, rest, -, rfl, -⟩ := header?_eq_some hk
    exact absurd (List.mem_append_right _ List.mem_cons_self) h

theorem nameLine_eq (keyword : Text) {name : Text} (hname : name.trim = name) :
    ∃ rest : Text, Style.nameLine keyword name = keyword ++ ':' :: rest ∧ rest.trim = name ∧
      Text.trimEnd (Style.nameLine keyword name) = Style.nameLine keyword name := by
  by_cases hne : name = []
  · refine ⟨[], ?_, hne.symm, ?_⟩
    · rw [Style.nameLine, if_pos hne]
    · rw [Style.nameLine, if_pos hne]
      exact Text.trimEnd_concat_of_not (by decide) keyword
  · have hcolon : ": ".toList = [':', ' '] := rfl
    have hblank : ∀ c ∈ [' '], Text.isBlank c := List.forall_mem_singleton.2 rfl
    refine ⟨' ' :: name, ?_, ?_, ?_⟩
    · rw [Style.nameLine, if_neg hne, hcolon, List.append_assoc]
      rfl
    · rw [← List.singleton_append, Text.trim_append_of_blank hblank, hname]
    · have hend := (Text.trim_eq_self_iff.1 hname).2
      rw [Text.trimEnd_eq_self_iff] at hend ⊢
      rwa [Style.nameLine, if_neg hne, List.getLast?_append_of_ne_nil _ hne]

/-- A name line is the header that it is meant to be. -/
theorem kindOf_nameLine (hd : d.Sound) {block : Block} {keyword name : Text}
    (h : (block, keyword) ∈ d.headerKeywords) (hname : name.trim = name) :
    d.vocabulary.kindOf (Style.nameLine keyword name) = .header block keyword name := by
  obtain ⟨c, cs, hcons, hblank, hnot⟩ := (hd.header _ h).1.exists_cons
  simp only at hcons
  obtain ⟨rest, hrest, htrim, hend⟩ := nameLine_eq keyword hname
  have hself : (Style.nameLine keyword name).trim = Style.nameLine keyword name := by
    refine Text.trim_eq_self_iff.2 ⟨?_, hend⟩
    rw [hrest, hcons]
    exact Text.trimStart_cons_of_not hblank _
  have hhead : (Style.nameLine keyword name).trim = c :: (cs ++ ':' :: rest) := by
    rw [hself, hrest, hcons]
    rfl
  rw [kindOf_of_cons hhead (by rintro rfl; simp at hnot) (by rintro rfl; simp at hnot), hself, hrest,
    header?_append hd h, htrim]
  rfl

/-! ### Lines that start with a sign -/

/-- No keyword stands where another kind of line starts. -/
theorem ne_of_isKeyword {keyword : Text} (h : keyword.IsKeyword) {c : Char}
    (hc : c ∈ ['#', '@', '"', '|']) (rest cs : Text) : c :: cs ≠ keyword ++ rest := by
  obtain ⟨b, bs, rfl, -, hnot⟩ := h.exists_cons
  rintro heq
  obtain ⟨rfl, -⟩ := List.cons.inj heq
  exact hnot hc

theorem header?_eq_none_of_sign (hd : d.Sound) {c : Char} (hc : c ∈ ['#', '@', '"', '|'])
    (cs : Text) : d.vocabulary.header? (c :: cs) = none := by
  cases hk : d.vocabulary.header? (c :: cs) with
  | none => rfl
  | some k =>
    obtain ⟨_, keyword, rest, hmem, heq, -⟩ := header?_eq_some hk
    rw [Dialect.mem_vocabulary_headers] at hmem
    exact absurd heq (ne_of_isKeyword (hd.header _ hmem).1 hc _ cs)

theorem step?_eq_none_of_sign (hd : d.Sound) {c : Char} (hc : c ∈ ['#', '@', '"', '|'])
    (cs : Text) : d.vocabulary.step? (c :: cs) = none := by
  cases hk : d.vocabulary.step? (c :: cs) with
  | none => rfl
  | some k =>
    obtain ⟨keyword, rest, hmem, heq, -⟩ := step?_eq_some hk
    exact absurd heq (ne_of_isKeyword (hd.step _ hmem) hc _ cs)

theorem kindOf_at (v : Vocabulary) (cs : Text) : v.kindOf ('@' :: cs) = .tags := by
  obtain ⟨ds, hds⟩ := Text.trim_cons_of_not (c := '@') (by decide) cs
  rw [kindOf, hds]
  rfl

theorem kindOf_hash (v : Vocabulary) {cs : Text} (htrim : Text.trim ('#' :: cs) = '#' :: cs) :
    v.kindOf ('#' :: cs) = match languageCode? ('#' :: cs) with
      | some code => .language code
      | none => .comment := by
  rw [kindOf, htrim]
  rfl

theorem kindOf_pipe (hd : d.Sound) (cs : Text) : d.vocabulary.kindOf ('|' :: cs) = .row := by
  obtain ⟨ds, hds⟩ := Text.trim_cons_of_not (c := '|') (by decide) cs
  have hfence : fence? ('|' :: ds) = none := by
    simp [fence?, Fence.mark, Text.after?]
  rw [kindOf_of_cons hds (by decide) (by decide), hds,
    Text.trimStart_cons_of_not (by decide), header?_eq_none_of_sign hd (by decide),
    step?_eq_none_of_sign hd (by decide), hfence]
  rfl

theorem kindOf_quotes (hd : d.Sound) {contentType : Text} (h : contentType.trim = contentType) :
    d.vocabulary.kindOf (Fence.quotes.mark ++ contentType) = .fence .quotes contentType := by
  have hmark : Fence.quotes.mark ++ contentType = '"' :: '"' :: '"' :: contentType := rfl
  have hself : Text.trim ('"' :: '"' :: '"' :: contentType) = '"' :: '"' :: '"' :: contentType := by
    refine Text.trim_eq_self_iff.2 ⟨Text.trimStart_cons_of_not (by decide) _, ?_⟩
    have hend := (Text.trim_eq_self_iff.1 h).2
    rw [Text.trimEnd_eq_self_iff] at hend ⊢
    rw [← hmark]
    by_cases hne : contentType = []
    · rw [hne]
      intro c hc
      obtain rfl := Option.some.inj hc
      rfl
    · rwa [List.getLast?_append_of_ne_nil _ hne]
  have hfence : fence? ('"' :: '"' :: '"' :: contentType) = some (.fence .quotes contentType) := by
    simp [fence?, Fence.mark, Text.after?, h]
  rw [hmark, kindOf_of_cons hself (by decide) (by decide), hself,
    Text.trimStart_cons_of_not (by decide), header?_eq_none_of_sign hd (by decide),
    step?_eq_none_of_sign hd (by decide), hfence]
  rfl

/-! ### Lines put around a text -/

theorem not_isBlank_of_isCodeChar {c : Char} (h : isCodeChar c) : Text.isBlank c = false := by
  have hrange : c.toNat = 45 ∨ c.toNat = 95 ∨ (48 ≤ c.toNat ∧ c.toNat ≤ 57) ∨
      (65 ≤ c.toNat ∧ c.toNat ≤ 90) ∨ (97 ≤ c.toNat ∧ c.toNat ≤ 122) := by
    have halpha : c.isAlpha = (decide (c.val ≥ 'A'.val ∧ c.val ≤ 'Z'.val) ||
        (decide (c.val ≥ 'a'.val) && decide (c.val ≤ 'z'.val))) := rfl
    simp only [isCodeChar, Char.isAlphanum, halpha, Char.isDigit, Bool.or_eq_true, Bool.and_eq_true,
      decide_eq_true_eq, beq_iff_eq, UInt32.le_iff_toNat_le, ge_iff_le] at h
    rcases h with ((((⟨h, h'⟩ | ⟨h, h'⟩) | ⟨h, h'⟩) | rfl) | rfl)
    · exact .inr (.inr (.inr (.inl ⟨h, h'⟩)))
    · exact .inr (.inr (.inr (.inr ⟨h, h'⟩)))
    · exact .inr (.inr (.inl ⟨h, h'⟩))
    · exact .inr (.inl rfl)
    · exact .inl rfl
  simp only [Text.isBlank, Bool.or_eq_false_iff, Bool.and_eq_false_iff, decide_eq_false_iff_not,
    beq_eq_false_iff_ne, ne_eq]
  omega

theorem kindOf_languageLine (v : Vocabulary) {code : Text} (hne : code ≠ [])
    (hcode : ∀ c ∈ code, isCodeChar c) :
    v.kindOf (Snippet.languageLine code) = .language code := by
  have hopen : "# language: ".toList = '#' :: ' ' :: ("language".toList ++ [':', ' ']) := by
    simp
  have hline : Snippet.languageLine code =
      '#' :: ([' '] ++ ("language".toList ++ ([':'] ++ ([' '] ++ code)))) := by
    unfold Snippet.languageLine
    rw [hopen]
    simp only [List.cons_append, List.nil_append, List.append_assoc]
  have hend : Text.trimEnd (Snippet.languageLine code) = Snippet.languageLine code := by
    unfold Snippet.languageLine
    rw [Text.trimEnd_eq_self_iff, List.getLast?_append_of_ne_nil _ hne]
    exact fun c hc => not_isBlank_of_isCodeChar (hcode c (List.mem_of_getLast? hc))
  have hself : code.trim = code := Text.trim_eq_self_iff.2
    ⟨Text.trimStart_eq_self_iff.2 fun c hc =>
        not_isBlank_of_isCodeChar (hcode c (List.mem_of_head? hc)),
      Text.trimEnd_eq_self_iff.2 fun c hc =>
        not_isBlank_of_isCodeChar (hcode c (List.mem_of_getLast? hc))⟩
  have hblank : ∀ c ∈ [' '], Text.isBlank c := List.forall_mem_singleton.2 rfl
  have hword : Text.trimStart ([' '] ++ ("language".toList ++ ([':'] ++ ([' '] ++ code)))) =
      "language".toList ++ ([':'] ++ ([' '] ++ code)) :=
    (Text.trimStart_append_of_blank hblank _).trans (Text.trimStart_cons_of_not (by decide) _)
  have hcolon : Text.trimStart ([':'] ++ ([' '] ++ code)) = [':'] ++ ([' '] ++ code) :=
    Text.trimStart_cons_of_not (by decide) _
  have hrest : Text.trim ([' '] ++ code) = code := (Text.trim_append_of_blank hblank _).trans hself
  have hread : languageCode? (Snippet.languageLine code) = some code := by
    rw [hline, ← List.singleton_append]
    simp only [languageCode?, Text.after?_append, hword, hcolon, hrest, Option.bind_eq_bind,
      Option.bind_some]
    exact if_pos ⟨hne, List.all_eq_true.2 hcode⟩
  have htrim : Text.trim (Snippet.languageLine code) = Snippet.languageLine code := by
    refine Text.trim_eq_self_iff.2 ⟨?_, hend⟩
    rw [hline]
    exact Text.trimStart_cons_of_not (by decide) _
  rw [hline] at htrim hread ⊢
  rw [kindOf_hash v htrim, hread]

/-- The step that is put before an examples block. -/
theorem kindOf_given (hd : d.Sound) {rest : Text} (hrest : ':' ∉ rest) :
    ∃ keyword text,
      d.vocabulary.kindOf (d.givenKeyword ++ ' ' :: 'f' :: rest) = .step keyword text := by
  obtain ⟨-, hcolon, keyword, hmem, tail, htail⟩ := hd.given
  have hline : d.givenKeyword ++ ' ' :: 'f' :: rest = keyword ++ (tail ++ rest) := by
    rw [← List.append_assoc, htail]
    simp
  obtain ⟨c, cs, rfl, hblank, hnot⟩ := (hd.step _ hmem).exists_cons
  obtain ⟨ds, hds⟩ := Text.trim_cons_of_not hblank (cs ++ (tail ++ rest))
  have hheader : d.vocabulary.header? (c :: ds) = none := by
    refine header?_eq_none_of_not_mem fun hc => ?_
    rw [← hds] at hc
    have hmem := ((Text.trimEnd_sublist _).trans (List.dropWhile_sublist _)).subset hc
    rw [← List.cons_append, ← hline] at hmem
    simp [hcolon, hrest] at hmem
  have hsome : (d.vocabulary.step? (c :: (cs ++ (tail ++ rest)))).isSome := by
    rw [step?, List.isSome_findSome?, List.any_eq_true]
    have happ := Text.after?_append (c :: cs) (tail ++ rest)
    rw [List.cons_append] at happ
    exact ⟨c :: cs, hmem, by simp [happ]⟩
  obtain ⟨k, hk⟩ := Option.isSome_iff_exists.1 hsome
  obtain ⟨keyword', rest', -, -, rfl⟩ := step?_eq_some hk
  refine ⟨keyword', rest'.trim, ?_⟩
  rw [hline, List.cons_append, kindOf_of_cons hds (by rintro rfl; simp at hnot)
    (by rintro rfl; simp at hnot), hds, hheader, Text.trimStart_cons_of_not hblank, hk]
  rfl

/-! ### Doc strings -/

theorem not_prefix_replace (t : Text) :
    ¬Fence.quotes.mark <+: t.replace Fence.quotes.mark Fence.quotes.escaped := by
  have hmark : Fence.quotes.mark = ['"', '"', '"'] := rfl
  have hescaped : Fence.quotes.escaped = ['\\', '"', '\\', '"', '\\', '"'] := rfl
  have hne : Fence.quotes.mark ≠ [] := by simp [hmark]
  -- three quotes at the front would have stood there before
  rcases Text.replace_cases hne Fence.quotes.escaped t with rfl | ⟨rest, -, hr⟩ | ⟨c, cs, rfl, hp, hr⟩
  · simp [hmark]
  · rw [hr]
    simp [hmark, hescaped]
  rw [hr]
  rcases Text.replace_cases hne Fence.quotes.escaped cs with
    rfl | ⟨rest, -, hr⟩ | ⟨c', cs', rfl, -, hr⟩
  · simp [hmark]
  · rw [hr]
    simp [hmark, hescaped]
  rw [hr]
  rcases Text.replace_cases hne Fence.quotes.escaped cs' with
    rfl | ⟨rest, -, hr⟩ | ⟨c'', cs'', rfl, -, hr⟩
  · simp [hmark]
  · rw [hr]
    simp [hmark, hescaped]
  · rw [hmark] at hp
    rw [hr]
    simpa [hmark] using hp

/-- Replacing changes nothing about the blanks in front. -/
theorem trimStart_replace (t : Text) :
    Text.trimStart (t.replace Fence.quotes.mark Fence.quotes.escaped) =
      (Text.trimStart t).replace Fence.quotes.mark Fence.quotes.escaped := by
  have hne : Fence.quotes.mark ≠ [] := by decide
  refine Text.replace_induction (motive := fun t r => Text.trimStart r =
    (Text.trimStart t).replace Fence.quotes.mark Fence.quotes.escaped) hne rfl ?_ ?_ t
  · intro rest _
    have hquote : Text.trimStart (Fence.quotes.mark ++ rest) = Fence.quotes.mark ++ rest :=
      Text.trimStart_cons_of_not (by decide) _
    rw [hquote, Text.replace_append hne]
    exact Text.trimStart_cons_of_not (by decide) _
  · intro c cs hp ih
    cases hc : Text.isBlank c with
    | true =>
      have hblank : ∀ b ∈ [c], Text.isBlank b := by simpa using hc
      rw [← List.singleton_append, Text.trimStart_append_of_blank hblank, ih, ← List.singleton_append,
        Text.trimStart_append_of_blank hblank]
    | false =>
      rw [Text.trimStart_cons_of_not hc, Text.trimStart_cons_of_not hc, Text.replace_cons_of_not hp]

/-- A line of a doc string, as it is written, does not close it. -/
theorem kindOf_replace_ne_fence (v : Vocabulary) (t contentType : Text) :
    v.kindOf (t.replace Fence.quotes.mark Fence.quotes.escaped) ≠ .fence .quotes contentType := by
  intro h
  have hfits := fits_kindOf v (t.replace Fence.quotes.mark Fence.quotes.escaped)
  rw [h] at hfits
  obtain ⟨rest, hrest, -⟩ := hfits
  have hprefix : Fence.quotes.mark <+:
      Text.trimStart (t.replace Fence.quotes.mark Fence.quotes.escaped) :=
    (List.prefix_append _ rest).trans (hrest ▸ Text.trimEnd_prefix _)
  rw [trimStart_replace] at hprefix
  exact not_prefix_replace _ hprefix

end Vocabulary

end Gherkin
