import Gherkin.Proofs.Document.Parse

/-! Lines of texts that start alike. Each line is recognised on its own, so texts share the lines
that they start with. Which dialect a text is read in is settled by its first line that is neither
blank nor a comment, and whether a line is one of these is the same in every dialect. -/

namespace Gherkin

namespace Vocabulary

variable {v : Vocabulary} {n : ℕ} {as bs ts : List Text} {t : Text}

/-- Lines with their numbers, counted on from `n`. -/
def linesAt (v : Vocabulary) (n : ℕ) (ts : List Text) : List Line :=
  ts.mapIdx fun i t => ⟨n + i + 1, Text.dropReturn t, v.kindOf (Text.dropReturn t)⟩

theorem classify_eq (v : Vocabulary) (source : Text) :
    v.classify source = v.linesAt 0 source.lines := by
  simp [classify, linesAt]

theorem linesAt_cons (v : Vocabulary) (n : ℕ) (t : Text) (ts : List Text) :
    v.linesAt n (t :: ts) =
      ⟨n + 1, Text.dropReturn t, v.kindOf (Text.dropReturn t)⟩ :: v.linesAt (n + 1) ts := by
  simp [linesAt, List.mapIdx_cons, Nat.add_assoc, Nat.add_comm 1]

theorem linesAt_append (v : Vocabulary) (n : ℕ) (as bs : List Text) :
    v.linesAt n (as ++ bs) = v.linesAt n as ++ v.linesAt (n + as.length) bs := by
  induction as generalizing n with
  | nil => rfl
  | cons t as ih =>
    rw [List.cons_append, linesAt_cons, linesAt_cons, ih, List.length_cons, List.cons_append]
    congr 3
    omega

@[simp] theorem length_linesAt (v : Vocabulary) (n : ℕ) (ts : List Text) :
    (v.linesAt n ts).length = ts.length := by
  simp [linesAt]

theorem linesAt_take (v : Vocabulary) (n k : ℕ) (ts : List Text) :
    v.linesAt n (ts.take k) = (v.linesAt n ts).take k := by
  by_cases hk : k ≤ ts.length
  · conv => rhs; rw [← List.take_append_drop k ts]
    rw [linesAt_append, List.take_left']
    simp [hk]
  · rw [List.take_of_length_le (by omega), List.take_of_length_le (by simp; omega)]

theorem linesAt_drop (v : Vocabulary) (n k : ℕ) {ts : List Text} (hk : k ≤ ts.length) :
    (v.linesAt n ts).drop k = v.linesAt (n + k) (ts.drop k) := by
  conv => lhs; rw [← List.take_append_drop k ts]
  rw [linesAt_append, List.drop_left' (by simp [hk])]
  simp [hk]

/-- The same line in another vocabulary. -/
theorem mem_linesAt {l : Line} (h : l ∈ v.linesAt n ts) (w : Vocabulary) :
    l.kind = v.kindOf l.raw ∧ ⟨l.number, l.raw, w.kindOf l.raw⟩ ∈ w.linesAt n ts := by
  obtain ⟨i, hi, rfl⟩ := List.mem_mapIdx.1 h
  exact ⟨rfl, List.mem_mapIdx.2 ⟨i, hi, rfl⟩⟩

theorem number_of_linesAt {i : ℕ} {l : Line} (h : (v.linesAt n ts)[i]? = some l) :
    l.number = n + i + 1 := by
  rw [linesAt, List.getElem?_mapIdx] at h
  obtain ⟨t, -, rfl⟩ := Option.map_eq_some_iff.1 h
  rfl

theorem exists_of_languageCode? {code : Text} (h : languageCode? t = some code) :
    ∃ cs, t = '#' :: cs := by
  obtain ⟨rest, hrest, -⟩ := Option.bind_eq_some_iff.1 h
  exact ⟨rest, Text.after?_eq_some_iff.1 hrest⟩

theorem isTrivia_kindOf_iff : (v.kindOf t).isTrivia ↔ t.trim = [] ∨ ∃ cs, t.trim = '#' :: cs := by
  constructor
  · intro h
    have hfits := v.fits_kindOf t
    cases hk : v.kindOf t with
    | blank => exact .inl (kindOf_eq_blank_iff.1 hk)
    | comment =>
      rw [hk] at hfits
      exact .inr hfits.1
    | language code =>
      rw [hk] at hfits
      exact .inr (exists_of_languageCode? hfits)
    | _ => simp [hk, LineKind.isTrivia] at h
  · rintro (htrim | ⟨cs, htrim⟩)
    · rw [kindOf_eq_blank_iff.2 htrim]
      rfl
    · simp only [kindOf, htrim]
      cases languageCode? ('#' :: cs) <;> rfl

/-- In every vocabulary the same lines are blank, comments or language headers. -/
theorem kindOf_eq_of_isTrivia {w : Vocabulary} (h : (v.kindOf t).isTrivia) :
    w.kindOf t = v.kindOf t := by
  rcases isTrivia_kindOf_iff.1 h with htrim | ⟨cs, htrim⟩
  · rw [kindOf_eq_blank_iff.2 htrim, kindOf_eq_blank_iff.2 htrim]
  · simp only [kindOf, htrim]

end Vocabulary

namespace Document

/-- Lines that do not settle the dialect. -/
def isIdle (l : Line) : Bool := l.kind = .blank ∨ l.kind = .comment

theorem openingLanguage?_cons_of_idle {l : Line} (hl : isIdle l) (ls : List Line) :
    openingLanguage? (l :: ls) = openingLanguage? ls := by
  rcases of_decide_eq_true hl with hk | hk <;> rw [openingLanguage?, hk]

theorem openingLanguage?_of_idle {as : List Line} (h : ∀ l ∈ as, isIdle l) (bs : List Line) :
    openingLanguage? (as ++ bs) = openingLanguage? bs := by
  induction as with
  | nil => rfl
  | cons l as ih =>
    obtain ⟨hl, h⟩ := List.forall_mem_cons.1 h
    rw [List.cons_append, openingLanguage?_cons_of_idle hl, ih h]

/-- A line that is not idle settles the dialect, whatever comes after it. -/
theorem openingLanguage?_append {as : List Line} (h : ∃ l ∈ as, isIdle l = false) (bs : List Line) :
    openingLanguage? (as ++ bs) = openingLanguage? as := by
  induction as with
  | nil =>
    obtain ⟨l, hl, -⟩ := h
    cases hl
  | cons l as ih =>
    by_cases hl : isIdle l
    · obtain ⟨m, hm, hidle⟩ := h
      rcases List.mem_cons.1 hm with rfl | hm
      · rw [hl] at hidle
        cases hidle
      · rw [List.cons_append, openingLanguage?_cons_of_idle hl, openingLanguage?_cons_of_idle hl,
          ih ⟨m, hm, hidle⟩]
    · rw [List.cons_append, openingLanguage?, openingLanguage?]
      cases hk : l.kind <;> simp_all [isIdle]

theorem number_of_linesIn {d : Dialect} {header : Option ℕ} {source : Text} {i : ℕ} {l : Line}
    (h : (linesIn d header source)[i]? = some l) : l.number = i + 1 := by
  rw [linesIn, Vocabulary.classify_eq, List.getElem?_map] at h
  obtain ⟨m, hm, rfl⟩ := Option.map_eq_some_iff.1 h
  rw [number_demote, Vocabulary.number_of_linesAt hm, Nat.zero_add]

theorem length_linesIn (d : Dialect) (header : Option ℕ) (source : Text) :
    (linesIn d header source).length = source.lines.length := by
  rw [linesIn, List.length_map, Vocabulary.length_classify]

/-- The lines of a text that starts with `n` lines of another. -/
theorem linesIn_of_take {source text : Text} {n : ℕ} {more : List Text}
    (h : text.lines = source.lines.take n ++ more) (hn : n ≤ source.lines.length) (d : Dialect)
    (header : Option ℕ) :
    linesIn d header text =
      (linesIn d header source).take n ++ (d.vocabulary.linesAt n more).map (demote header) := by
  have hlen : 0 + (source.lines.take n).length = n := by simp [hn]
  rw [linesIn, linesIn, Vocabulary.classify_eq, Vocabulary.classify_eq, h,
    Vocabulary.linesAt_append, hlen, Vocabulary.linesAt_take, List.map_append, List.map_take]

/-- Texts are read in one dialect when they share a line that is not idle. -/
theorem openingLanguage?_of_take {source text : Text} {n : ℕ} {more : List Text}
    (h : text.lines = source.lines.take n ++ more) (v : Vocabulary)
    (hsettled : ∃ l ∈ (v.classify source).take n, isIdle l = false) :
    openingLanguage? (v.classify text) = openingLanguage? (v.classify source) := by
  conv => rhs; rw [← List.take_append_drop n (v.classify source)]
  rw [Vocabulary.classify_eq v text, h, Vocabulary.linesAt_append, Vocabulary.linesAt_take,
    ← Vocabulary.classify_eq, openingLanguage?_append hsettled, openingLanguage?_append hsettled]

end Document

end Gherkin
