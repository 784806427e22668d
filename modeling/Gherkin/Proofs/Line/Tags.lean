import Gherkin.Line.Tags
import Gherkin.Text.Split

/-! Tags written on one line with a space between any two are read as they are. The names on a line
do not depend on where the line stands. -/

namespace Gherkin

/-- An at sign and some characters that a tag's name may hold. -/
def IsTagName (t : Text) : Prop :=
  ∃ name, t = '@' :: name ∧ name ≠ [] ∧ ∀ c ∈ name, LocatedTag.isNameChar c

namespace LocatedTag

variable {line column : Nat}

theorem splitFrom_nil : splitFrom line column [] = .ok [] := by
  rw [splitFrom.eq_def]

theorem splitFrom_blank {c : Char} (h : Text.isBlank c) (t : Text) :
    splitFrom line column (c :: t) = splitFrom line (column + 1) t := by
  rw [splitFrom.eq_def]
  simp only [if_pos h]

/-- A tag reaches up to the next character that no name may hold. -/
theorem splitFrom_name {name rest : Text} (hne : name ≠ []) (hname : ∀ c ∈ name, isNameChar c)
    (hrest : ∀ c ∈ rest.head?, isNameChar c = false) :
    splitFrom line column ('@' :: (name ++ rest)) =
      (splitFrom line (column + 1 + name.length) rest).map (⟨⟨line, column⟩, '@' :: name⟩ :: ·) := by
  have hstop : rest.takeWhile isNameChar = [] ∧ rest.dropWhile isNameChar = rest := by
    cases rest with
    | nil => exact ⟨rfl, rfl⟩
    | cons c cs => simp [hrest c rfl]
  have htake : (name ++ rest).takeWhile isNameChar = name := by
    rw [List.takeWhile_append_of_pos hname, hstop.1, List.append_nil]
  have hdrop : (name ++ rest).dropWhile isNameChar = rest := by
    rw [List.dropWhile_append_of_pos hname, hstop.2]
  have hblank : ¬Text.isBlank '@' := by decide
  have hash : '@' ≠ '#' := by decide
  rw [splitFrom.eq_def]
  simp only [if_neg hblank, if_neg hash, if_true, htake, hdrop, if_neg hne]

theorem exists_splitFrom {names : List Text} (h : ∀ n ∈ names, IsTagName n) :
    ∃ found, splitFrom line column (Text.joinWith ' ' names) = .ok found ∧
      found.map LocatedTag.name = names := by
  induction names generalizing column with
  | nil => exact ⟨[], splitFrom_nil, rfl⟩
  | cons n names ih =>
    obtain ⟨⟨name, rfl, hne, hname⟩, hmore⟩ := List.forall_mem_cons.1 h
    cases names with
    | nil =>
      have hread : splitFrom line column ('@' :: (name ++ [])) = _ :=
        splitFrom_name hne hname (by simp)
      rw [List.append_nil, splitFrom_nil] at hread
      rw [Text.joinWith_singleton, hread]
      exact ⟨_, rfl, rfl⟩
    | cons m ms =>
      have hblank : ∀ c ∈ (' ' :: Text.joinWith ' ' (m :: ms)).head?, isNameChar c = false := by
        intro c hc
        obtain rfl := Option.some.inj hc
        decide
      obtain ⟨found, hfound, hmap⟩ := @ih (column + 1 + name.length + 1) hmore
      rw [Text.joinWith_cons_cons, List.cons_append, splitFrom_name hne hname hblank,
        splitFrom_blank (by decide), hfound]
      exact ⟨_, rfl, by rw [List.map_cons, hmap]⟩

/-- The tags of a line of tags. -/
theorem exists_split {names : List Text} (h : ∀ n ∈ names, IsTagName n) (start : Location) :
    ∃ found, split (Text.joinWith ' ' names) start = .ok found ∧
      found.map LocatedTag.name = names :=
  exists_splitFrom h

/-! ### Where a line of tags stands -/

variable {t : Text} {found : List LocatedTag}

theorem map_name_splitFrom (line line' column column' : Nat) (t : Text) :
    (splitFrom line column t).map (List.map name) =
      (splitFrom line' column' t).map (List.map name) := by
  fun_induction splitFrom line column t generalizing column' with
  | case1 => rw [splitFrom_nil]
  | case2 column c cs hblank ih => rw [splitFrom_blank hblank, ih]
  | case3 column cs hblank =>
    rw [splitFrom.eq_def]
    simp only [if_neg hblank, if_true]
  | case4 column cs name hname hblank hhash =>
    rw [splitFrom.eq_def line']
    simp only [if_neg hblank, if_neg hhash, if_true, if_pos hname, name]
  | case5 column cs name hname hblank hhash ih =>
    have hcons : ∀ (head head' : LocatedTag) (x x' : Except TagFault (List LocatedTag)),
        head.name = head'.name → x.map (List.map LocatedTag.name) = x'.map (List.map LocatedTag.name) →
          (x.map (head :: ·)).map (List.map LocatedTag.name) =
            (x'.map (head' :: ·)).map (List.map LocatedTag.name) := by
      intro head head' x x' hhead h
      cases x <;> cases x' <;> simp_all [Except.map]
    rw [splitFrom.eq_def line']
    simp only [if_neg hblank, if_neg hhash, if_true, if_neg hname, name]
    exact hcons _ _ _ _ rfl (ih _)
  | case6 column c cs hblank hhash hat =>
    rw [splitFrom.eq_def line']
    simp only [if_neg hblank, if_neg hhash, if_neg hat]

/-- The same tags are found on the line when it stands elsewhere. -/
theorem exists_split_of_split {start : Location} (h : split t start = .ok found)
    (start' : Location) :
    ∃ found', split t start' = .ok found' ∧ found'.map name = found.map name := by
  have hnames := map_name_splitFrom start.line start'.line start.column start'.column t
  unfold split at h ⊢
  rw [h] at hnames
  cases h' : splitFrom start'.line start'.column t with
  | error e => simp [h', Except.map] at hnames
  | ok found' =>
    rw [h'] at hnames
    exact ⟨found', rfl, (Except.ok.inj hnames).symm⟩

/-- Tags stand on the line that they are found on. -/
theorem line_of_splitFrom (h : splitFrom line column t = .ok found) :
    ∀ x ∈ found, x.location.line = line := by
  fun_induction splitFrom line column t generalizing found with
  | case1 | case3 =>
    cases h
    simp
  | case2 _ _ _ _ ih => exact ih h
  | case4 | case6 => cases h
  | case5 column cs name =>
    rename_i ih
    cases hmore : splitFrom line (column + 1 + name.length) (cs.dropWhile isNameChar) with
    | error e =>
      rw [hmore] at h
      cases h
    | ok more =>
      rw [hmore] at h
      obtain rfl := Except.ok.inj h
      exact List.forall_mem_cons.2 ⟨rfl, ih hmore⟩

/-- Tags that are found have names. -/
theorem isTagName_of_splitFrom (h : splitFrom line column t = .ok found) :
    ∀ x ∈ found, IsTagName x.name := by
  fun_induction splitFrom line column t generalizing found with
  | case1 | case3 =>
    cases h
    simp
  | case2 _ _ _ _ ih => exact ih h
  | case4 | case6 => cases h
  | case5 column cs name hname =>
    rename_i ih
    cases hmore : splitFrom line (column + 1 + name.length) (cs.dropWhile isNameChar) with
    | error e =>
      rw [hmore] at h
      cases h
    | ok more =>
      rw [hmore] at h
      obtain rfl := Except.ok.inj h
      refine List.forall_mem_cons.2 ⟨⟨name, rfl, hname, fun c hc => ?_⟩, ih hmore⟩
      exact List.all_eq_true.1 List.all_takeWhile c hc

/-- A line that starts with an at sign has a tag, if it is well formed. -/
theorem ne_nil_of_splitFrom (h : splitFrom line column ('@' :: t) = .ok found) : found ≠ [] := by
  rintro rfl
  have hblank : ¬Text.isBlank '@' := by decide
  have hhash : '@' ≠ '#' := by decide
  rw [splitFrom.eq_def] at h
  simp only [if_neg hblank, if_neg hhash, if_true] at h
  split at h
  · cases h
  · cases hmore : splitFrom line (column + 1 + (t.takeWhile isNameChar).length)
        (t.dropWhile isNameChar) <;> simp [hmore, Except.map] at h

end LocatedTag

end Gherkin
