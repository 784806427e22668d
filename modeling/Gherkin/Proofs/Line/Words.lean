import Mathlib.Data.List.Forall2
import Mathlib.Data.List.TakeWhile
import Mathlib.Tactic.Choose
import Gherkin.Proofs.Line.Tags

/-! Tag lines by their words. A word is a run of characters that are not blank, with a blank or
nothing at either side. A line is well formed when each word before the comment is made of tags that
are put one after the other. Then its tags are those of its words, each in the column in which it
starts. -/

namespace Gherkin

namespace Text

/-! ### Words -/

/-- A character that is not blank, after a blank or at the start. -/
def BeginsWord (t : Text) (i : ℕ) : Prop :=
  (∀ c ∈ (t.take i).getLast?, isBlank c) ∧ ∃ c ∈ t[i]?, isBlank c = false

instance (t : Text) (i : ℕ) : Decidable (BeginsWord t i) :=
  decidable_of_iff ((t.take i).getLast?.all isBlank ∧ t[i]?.any fun c => !isBlank c)
    (by simp [BeginsWord, Option.all_eq_true, Option.any_eq_true])

/-- The positions at which words begin, from left to right. -/
def wordStarts (t : Text) : List ℕ := (List.range t.length).filter (BeginsWord t)

/-- The word that begins at a position. -/
def wordAt (t : Text) (i : ℕ) : Text := (t.drop i).takeWhile fun c => !isBlank c

/-- A word, when blanks or nothing stand around it. -/
def IsWord (w : Text) : Prop := w ≠ [] ∧ ∀ c ∈ w, isBlank c = false

variable {c : Char} {s t w rest : Text} {i : ℕ}

/-- A text is empty, or starts with a blank or with a word. -/
theorem word_induction {motive : Text → Prop} (nil : motive [])
    (blank : ∀ c t, isBlank c → motive t → motive (c :: t))
    (word : ∀ w rest, IsWord w → (∀ c ∈ rest.head?, isBlank c) → motive rest → motive (w ++ rest))
    (t : Text) : motive t := by
  induction hn : t.length using Nat.strongRecOn generalizing t with
  | ind n ih =>
    subst hn
    cases t with
    | nil => exact nil
    | cons c cs =>
      cases hc : isBlank c with
      | true => exact blank c cs hc (ih cs.length (Nat.lt_succ_self _) cs rfl)
      | false =>
        have hsplit := List.takeWhile_append_dropWhile (p := fun c => !isBlank c) (l := c :: cs)
        have hword : IsWord ((c :: cs).takeWhile fun c => !isBlank c) :=
          ⟨by simp [hc], fun b hb => by simpa using List.mem_takeWhile_imp hb⟩
        have hrest : ∀ b ∈ ((c :: cs).dropWhile fun c => !isBlank c).head?, isBlank b := by
          intro b hb
          have hnot := List.head?_dropWhile_not (fun c => !isBlank c) (c :: cs)
          rw [Option.mem_def.1 hb] at hnot
          simpa using hnot
        have hlen : ((c :: cs).dropWhile fun c => !isBlank c).length < (c :: cs).length := by
          rw [List.dropWhile_cons_of_pos (by simp [hc])]
          exact Nat.lt_succ_of_le (List.dropWhile_sublist _).length_le
        rw [← hsplit]
        exact word _ _ hword hrest (ih _ hlen _ rfl)

/-- Where a text is put behind another one, the words of the second stay, if there is a blank
between the two. -/
theorem beginsWord_append
    (h : (∀ c ∈ s.getLast?, isBlank c) ∨ ∀ c ∈ t.head?, isBlank c) (i : ℕ) :
    BeginsWord (s ++ t) (s.length + i) ↔ BeginsWord t i := by
  have hget : (s ++ t)[s.length + i]? = t[i]? := by
    rw [List.getElem?_append_right (by omega), Nat.add_sub_cancel_left]
  have htake : (s ++ t).take (s.length + i) = s ++ t.take i := List.take_length_add_append i
  rw [BeginsWord, BeginsWord, hget, htake]
  refine and_congr_left fun ⟨c, hc, hblank⟩ => ?_
  cases i with
  | zero =>
    rw [← List.head?_eq_getElem?] at hc
    have hlast : ∀ c ∈ s.getLast?, isBlank c :=
      h.resolve_right fun hhead => by simp [hhead c hc] at hblank
    simpa using hlast
  | succ i =>
    have hne : t.take (i + 1) ≠ [] := by
      rintro hnil
      cases t with
      | nil => cases hc
      | cons => cases hnil
    rw [List.getLast?_append_of_ne_nil _ hne]

theorem wordStarts_append
    (h : (∀ c ∈ s.getLast?, isBlank c) ∨ ∀ c ∈ t.head?, isBlank c) :
    wordStarts (s ++ t) = wordStarts s ++ (wordStarts t).map (s.length + ·) := by
  have hleft : ∀ i < s.length, BeginsWord (s ++ t) i ↔ BeginsWord s i := by
    intro i hi
    rw [BeginsWord, BeginsWord, List.getElem?_append_left hi,
      List.take_append_of_le_length (Nat.le_of_lt hi)]
  rw [wordStarts, List.length_append, List.range_add, List.filter_append,
    List.filter_congr fun i hi => decide_eq_decide.2 (hleft i (List.mem_range.1 hi)),
    List.filter_map]
  congr 2
  exact List.filter_congr fun i _ => decide_eq_decide.2 (beginsWord_append h i)

theorem wordStarts_blank (hc : isBlank c) : wordStarts [c] = [] := by
  simp [wordStarts, BeginsWord, hc]

theorem wordStarts_word (hw : IsWord w) : wordStarts w = [0] := by
  obtain ⟨hne, hblank⟩ := hw
  obtain ⟨c, cs, rfl⟩ := List.exists_cons_of_ne_nil hne
  have hfirst : BeginsWord (c :: cs) 0 := ⟨by simp, c, rfl, hblank c List.mem_cons_self⟩
  have hlater : ∀ i, ¬BeginsWord (c :: cs) (i + 1) := by
    rintro i ⟨hlast, -⟩
    have hin : ∀ b ∈ ((c :: cs).take (i + 1)).getLast?, isBlank b = false :=
      fun b hb => hblank b (List.mem_of_mem_take (List.mem_of_getLast? hb))
    rw [List.take_succ_cons, List.getLast?_cons] at hlast hin
    have hfalse := hin _ rfl
    rw [hlast _ rfl] at hfalse
    cases hfalse
  rw [wordStarts, List.length_cons, List.range_succ_eq_map, List.filter_cons_of_pos (by simpa),
    List.filter_map, List.filter_eq_nil_iff.2 (fun i _ => by simpa using hlater i), List.map_nil]

theorem wordAt_append (s t : Text) (i : ℕ) : wordAt (s ++ t) (s.length + i) = wordAt t i := by
  rw [wordAt, wordAt, List.drop_length_add_append]

theorem wordAt_word (hw : IsWord w) (hrest : ∀ c ∈ rest.head?, isBlank c) :
    wordAt (w ++ rest) 0 = w := by
  have hstop : (rest.takeWhile fun c => !isBlank c) = [] := by
    cases rest with
    | nil => rfl
    | cons c cs => simp [hrest c rfl]
  rw [wordAt, List.drop_zero, List.takeWhile_append_of_pos (by simpa using hw.2), hstop,
    List.append_nil]

end Text

/-! ### Words made of tags -/

/-- The word `w` is made of the tags `ps`, of which there is one at least. -/
structure IsGlued (ps : List Text) (w : Text) : Prop where
  ne_nil : ps ≠ []
  names : ∀ p ∈ ps, IsTagName p
  flatten : ps.flatten = w

/-- Where the words before the comment begin, which starts with the first word that starts with a
number sign. -/
def tagWords (t : Text) : List ℕ := t.wordStarts.takeWhile fun i => t[i]? ≠ some '#'

namespace LocatedTag

/-- Tags that stand one after the other, the first of them in the given column. -/
def placed (line : ℕ) : ℕ → List Text → List LocatedTag
  | _, [] => []
  | column, p :: ps => ⟨⟨line, column⟩, p⟩ :: placed line (column + p.length) ps

/-- The tags of words that begin at the given positions. -/
def placedAll (line column : ℕ) (starts : List ℕ) (words : List (List Text)) : List LocatedTag :=
  (List.zipWith (fun i ps => placed line (column + i) ps) starts words).flatten

variable {line column : ℕ} {t w rest : Text} {ps : List Text} {words : List (List Text)}

theorem placedAll_map_add (n : ℕ) (starts : List ℕ) (words : List (List Text)) :
    placedAll line column (starts.map (n + ·)) words =
      placedAll line (column + n) starts words := by
  simp only [placedAll, List.zipWith_map_left, Nat.add_assoc]

/-! ### The words of a line of tags -/

theorem tagWords_blank {c : Char} (hc : Text.isBlank c) (t : Text) :
    tagWords (c :: t) = (tagWords t).map (1 + ·) := by
  have hstarts : Text.wordStarts (c :: t) = (Text.wordStarts t).map (1 + ·) := by
    have happ := Text.wordStarts_append (s := [c]) (t := t) (.inl (by simpa using hc))
    rwa [Text.wordStarts_blank hc, List.nil_append] at happ
  have hget : ∀ i, (c :: t)[1 + i]? = t[i]? := fun i => by rw [Nat.add_comm]; rfl
  rw [tagWords, hstarts, List.takeWhile_map, tagWords]
  simp only [Function.comp_def, hget]

theorem tagWords_word (hw : Text.IsWord w) (hrest : ∀ c ∈ rest.head?, Text.isBlank c) :
    tagWords (w ++ rest) =
      if w.head? = some '#' then [] else 0 :: (tagWords rest).map (w.length + ·) := by
  have hstarts : Text.wordStarts (w ++ rest) = 0 :: (Text.wordStarts rest).map (w.length + ·) := by
    rw [Text.wordStarts_append (.inr hrest), Text.wordStarts_word hw, List.singleton_append]
  have hhead : (w ++ rest)[0]? = w.head? := by
    rw [← List.head?_eq_getElem?, List.head?_append_of_ne_nil _ hw.1]
  have hget : ∀ i, (w ++ rest)[w.length + i]? = rest[i]? := fun i => by
    rw [List.getElem?_append_right (by omega), Nat.add_sub_cancel_left]
  rw [tagWords, hstarts, List.takeWhile_cons, hhead, List.takeWhile_map, tagWords]
  simp only [Function.comp_def, hget]
  by_cases h : w.head? = some '#' <;> simp [h]

/-! ### Reading a word -/

theorem not_isNameChar_of_isBlank {c : Char} (hc : Text.isBlank c) : isNameChar c = false := by
  simp [isNameChar, hc]

/-- The tags of a word are read, then the rest of the line. -/
theorem splitFrom_names (line column : ℕ) (hnames : ∀ p ∈ ps, IsTagName p)
    (hrest : ∀ c ∈ rest.head?, Text.isBlank c) :
    splitFrom line column (ps.flatten ++ rest) =
      (splitFrom line (column + ps.flatten.length) rest).map (placed line column ps ++ ·) := by
  induction ps generalizing column with
  | nil => cases h : splitFrom line column rest <;> simp [h, placed, Except.map]
  | cons p ps ih =>
    obtain ⟨⟨name, rfl, hne, hname⟩, hps⟩ := List.forall_mem_cons.1 hnames
    have hstop : ∀ c ∈ (ps.flatten ++ rest).head?, isNameChar c = false := by
      intro c hc
      cases ps with
      | nil => exact not_isNameChar_of_isBlank (hrest c hc)
      | cons q qs =>
        obtain ⟨⟨more, rfl, -, -⟩, -⟩ := List.forall_mem_cons.1 hps
        obtain rfl := Option.some.inj hc
        rfl
    have hcolumn : column + 1 + name.length + ps.flatten.length =
        column + ('@' :: name ++ ps.flatten).length := by
      rw [List.length_append, List.length_cons]
      omega
    rw [List.flatten_cons, List.append_assoc, List.cons_append, splitFrom_name hne hname hstop,
      ih _ hps, hcolumn, placed, List.length_cons, ← Nat.add_assoc, Nat.add_right_comm]
    cases splitFrom line (column + ('@' :: name ++ ps.flatten).length) rest <;> rfl

theorem splitFrom_unnamed (h : ∀ c ∈ t.head?, isNameChar c = false) :
    splitFrom line column ('@' :: t) = .error .unnamed := by
  have hblank : ¬Text.isBlank '@' := by decide
  have hhash : '@' ≠ '#' := by decide
  have hname : t.takeWhile isNameChar = [] := by
    cases t with
    | nil => rfl
    | cons c cs => simp [h c rfl]
  rw [splitFrom.eq_def]
  simp only [if_neg hblank, if_neg hhash, if_true, if_pos hname]

theorem splitFrom_other {c : Char} (hblank : Text.isBlank c = false) (hhash : c ≠ '#')
    (hat : c ≠ '@') (t : Text) :
    splitFrom line column (c :: t) =
      .error (.word (c :: t.takeWhile fun c => !Text.isBlank c)) := by
  rw [splitFrom.eq_def]
  simp only [hblank, Bool.false_eq_true, if_false, if_neg hhash, if_neg hat]

theorem splitFrom_comment (t : Text) : splitFrom line column ('#' :: t) = .ok [] := by
  have hblank : ¬Text.isBlank '#' := by decide
  rw [splitFrom.eq_def]
  simp only [if_neg hblank, if_true]

/-- A word that is not made of tags, and does not start with a number sign, is refused. -/
theorem splitFrom_eq_error (hw : Text.IsWord w) (hhash : w.head? ≠ some '#')
    (hglued : ∀ ps, ¬IsGlued ps w) (hrest : ∀ c ∈ rest.head?, Text.isBlank c) :
    ∃ e, splitFrom line column (w ++ rest) = .error e := by
  induction hn : w.length using Nat.strongRecOn generalizing w column with
  | ind n ih =>
    subst hn
    obtain ⟨hne, hblank⟩ := hw
    obtain ⟨c, cs, rfl⟩ := List.exists_cons_of_ne_nil hne
    obtain ⟨hc, hcs⟩ := List.forall_mem_cons.1 hblank
    by_cases hat : c = '@'
    swap
    · exact ⟨_, splitFrom_other hc (fun e => hhash (by rw [e]; rfl)) hat (cs ++ rest)⟩
    subst hat
    obtain ⟨name, left, rfl, hname, hleft⟩ : ∃ name left, cs = name ++ left ∧
        (∀ c ∈ name, isNameChar c) ∧ ∀ c ∈ left.head?, isNameChar c = false := by
      refine ⟨_, _, (List.takeWhile_append_dropWhile (p := isNameChar)).symm,
        fun c hc => List.mem_takeWhile_imp hc, fun c hc => ?_⟩
      have hnot := List.head?_dropWhile_not isNameChar cs
      rw [Option.mem_def.1 hc] at hnot
      simpa using hnot
    have hstop : ∀ c ∈ (left ++ rest).head?, isNameChar c = false := by
      cases left with
      | nil => exact fun c hc => not_isNameChar_of_isBlank (hrest c hc)
      | cons => exact hleft
    rw [List.cons_append, List.append_assoc]
    by_cases hnil : name = []
    · subst hnil
      exact ⟨_, splitFrom_unnamed hstop⟩
    -- the first tag of the word is read, and the rest of the word is no better
    have htag : IsTagName ('@' :: name) := ⟨name, rfl, hnil, hname⟩
    have hmore : ∀ ps, ¬IsGlued ps left := fun ps hps =>
      hglued (('@' :: name) :: ps) ⟨List.cons_ne_nil _ _, List.forall_mem_cons.2 ⟨htag, hps.names⟩,
        by rw [List.flatten_cons, hps.flatten, List.cons_append]⟩
    have hword : Text.IsWord left := by
      refine ⟨?_, fun c hc => hcs c (List.mem_append_right _ hc)⟩
      rintro rfl
      exact hglued ['@' :: name] ⟨List.cons_ne_nil _ _, by simpa using htag, by simp⟩
    have hsign : left.head? ≠ some '#' := fun h => absurd (hleft '#' h) (by decide)
    have hless : left.length < ('@' :: (name ++ left)).length := by
      rw [List.length_cons, List.length_append]
      omega
    obtain ⟨e, he⟩ : ∃ e, splitFrom line (column + 1 + name.length) (left ++ rest) = .error e :=
      ih left.length hless hword hsign hmore rfl
    exact ⟨e, by rw [splitFrom_name hnil hname hstop, he]; rfl⟩

/-! ### Reading a line -/

/-- A line whose words are made of tags has just these tags. -/
theorem splitFrom_of_glued
    (h : List.Forall₂ (fun i ps => IsGlued ps (t.wordAt i)) (tagWords t) words) :
    splitFrom line column t = .ok (placedAll line column (tagWords t) words) := by
  induction t using Text.word_induction generalizing column words with
  | nil =>
    cases h
    exact splitFrom_nil
  | blank c t hc ih =>
    rw [tagWords_blank hc, List.forall₂_map_left_iff] at h
    rw [tagWords_blank hc, placedAll_map_add, splitFrom_blank hc]
    exact ih (h.imp fun i ps hps => Text.wordAt_append [c] t i ▸ hps)
  | word w rest hw hrest ih =>
    rw [tagWords_word hw hrest] at h ⊢
    split at h
    · next hhash =>
      cases h
      rw [if_pos hhash]
      obtain ⟨cs, rfl⟩ := List.head?_eq_some_iff.1 hhash
      exact splitFrom_comment _
    · next hhash =>
      obtain ⟨ps, words, hps, hmore, rfl⟩ := List.forall₂_cons_left_iff.1 h
      rw [Text.wordAt_word hw hrest] at hps
      rw [List.forall₂_map_left_iff] at hmore
      have hread := @ih (column + w.length) words
        (hmore.imp fun i qs hqs => Text.wordAt_append w rest i ▸ hqs)
      have hword := splitFrom_names line column hps.names hrest
      rw [hps.flatten, hread] at hword
      rw [if_neg hhash, hword, ← placedAll_map_add]
      rfl

/-- A line is refused when one of its words before the comment is not made of tags. -/
theorem exists_error_of_not_glued (line column : ℕ) {i : ℕ} (hi : i ∈ tagWords t)
    (h : ∀ ps, ¬IsGlued ps (t.wordAt i)) : ∃ e, splitFrom line column t = .error e := by
  induction t using Text.word_induction generalizing column i with
  | nil => cases hi
  | blank c t hc ih =>
    rw [tagWords_blank hc] at hi
    obtain ⟨j, hj, rfl⟩ := List.mem_map.1 hi
    rw [splitFrom_blank hc]
    exact ih _ hj fun ps hps => h ps ((Text.wordAt_append [c] t j).symm ▸ hps)
  | word w rest hw hrest ih =>
    rw [tagWords_word hw hrest] at hi
    split at hi
    · cases hi
    · next hhash =>
      by_cases hglued : ∃ ps, IsGlued ps w
      · obtain ⟨ps, hps⟩ := hglued
        have hword := splitFrom_names line column hps.names hrest
        rw [hps.flatten] at hword
        rcases List.mem_cons.1 hi with rfl | hi
        · rw [Text.wordAt_word hw hrest] at h
          exact absurd hps (h ps)
        · obtain ⟨j, hj, rfl⟩ := List.mem_map.1 hi
          rw [Text.wordAt_append] at h
          obtain ⟨e, he⟩ := ih (column + w.length) hj h
          exact ⟨e, by rw [hword, he]; rfl⟩
      · exact splitFrom_eq_error hw hhash (not_exists.1 hglued) hrest

/-- A line is well formed just if every word before the comment is made of tags, and its tags are
those of these words, in their order, each in its column. -/
theorem split_iff_glued (t : Text) (start : Location) :
    ((∃ found, split t start = .ok found) ↔ ∀ i ∈ tagWords t, ∃ ps, IsGlued ps (t.wordAt i)) ∧
    ∀ found, split t start = .ok found →
      ∃ words, List.Forall₂ (fun i ps => IsGlued ps (t.wordAt i)) (tagWords t) words ∧
        found = placedAll start.line start.column (tagWords t) words := by
  have hglued : (∃ found, split t start = .ok found) →
      ∀ i ∈ tagWords t, ∃ ps, IsGlued ps (t.wordAt i) := by
    rintro ⟨found, hfound⟩ i hi
    by_contra hnone
    obtain ⟨e, he⟩ := exists_error_of_not_glued start.line start.column hi
      (not_exists.1 hnone)
    rw [split, he] at hfound
    cases hfound
  have hread : (∀ i ∈ tagWords t, ∃ ps, IsGlued ps (t.wordAt i)) →
      ∃ words, List.Forall₂ (fun i ps => IsGlued ps (t.wordAt i)) (tagWords t) words ∧
        split t start = .ok (placedAll start.line start.column (tagWords t) words) := by
    intro h
    choose! pieces hpieces using h
    have hall : List.Forall₂ (fun i ps => IsGlued ps (t.wordAt i)) (tagWords t)
        ((tagWords t).map pieces) := by
      rw [List.forall₂_map_right_iff, List.forall₂_same]
      exact hpieces
    exact ⟨_, hall, splitFrom_of_glued hall⟩
  refine ⟨⟨hglued, fun h => ?_⟩, fun found hfound => ?_⟩
  · obtain ⟨words, -, hsplit⟩ := hread h
    exact ⟨_, hsplit⟩
  · obtain ⟨words, hall, hsplit⟩ := hread (hglued ⟨found, hfound⟩)
    exact ⟨words, hall, Except.ok.inj (hfound.symm.trans hsplit)⟩

/-- Two words, one of them made of two tags, the other with a number sign inside, and a comment. -/
theorem split_iff_glued_comment :
    let t : Text := "@a@b  @c#d #@ e".toList
    let found : List LocatedTag :=
      [⟨⟨2, 3⟩, "@a".toList⟩, ⟨⟨2, 5⟩, "@b".toList⟩, ⟨⟨2, 9⟩, "@c#d".toList⟩]
    split t ⟨2, 3⟩ = .ok found ∧ tagWords t = [0, 6] ∧
      (∀ i ∈ tagWords t, ∃ ps, IsGlued ps (t.wordAt i)) ∧
      ∃ words, List.Forall₂ (fun i ps => IsGlued ps (t.wordAt i)) (tagWords t) words ∧
        found = placedAll 2 3 (tagWords t) words := by
  intro t found
  have hread : split t ⟨2, 3⟩ = .ok found := by decide +kernel
  exact ⟨hread, by decide +kernel, (split_iff_glued t ⟨2, 3⟩).1.1 ⟨found, hread⟩,
    (split_iff_glued t ⟨2, 3⟩).2 found hread⟩

end LocatedTag

end Gherkin
