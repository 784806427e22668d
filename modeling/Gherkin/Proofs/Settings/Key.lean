import Mathlib.Data.List.Basic
import Gherkin.Settings.Key

/-! Keys that are spelled out. A part of a key is a name and the numbers of items; parts stand
between dots and each number in square brackets. Every key is read as the steps that it was spelled
from, whatever the names and however many items there are. -/

namespace Gherkin.Settings

/-! ### Numbers -/

theorem all_isDigit_ofNat (n : ℕ) : ∀ c ∈ Text.ofNat n, c.isDigit :=
  fun _ hc => Nat.isDigit_of_mem_toDigits (by decide) (by decide) hc

theorem foldl_ofNat (n : ℕ) :
    (Text.ofNat n).foldl (fun n c => 10 * n + (c.toNat - '0'.toNat)) 0 = n :=
  Nat.ofDigitChars_toDigits (by decide) (by decide)

theorem exists_ofNat_cons (n : ℕ) : ∃ c cs, Text.ofNat n = c :: cs ∧ c.isDigit := by
  have hne : Text.ofNat n ≠ [] := Nat.toDigits_ne_nil
  obtain ⟨c, cs, h⟩ := List.exists_cons_of_ne_nil hne
  refine ⟨c, cs, h, all_isDigit_ofNat n c ?_⟩
  rw [h]
  exact List.mem_cons_self

theorem toText_whole (i : Int) : (Scalar.whole i).toText =
    if i < 0 then '-' :: Text.ofNat i.natAbs else Text.ofNat i.natAbs := rfl

namespace Key

theorem int?_ofNat {n : ℕ} (h : isWord n) : int? (Text.ofNat n) = some (n : Int) := by
  obtain ⟨c, cs, hcons, hdigit⟩ := exists_ofNat_cons n
  have hhead : (Text.ofNat n).head? ≠ some '-' := by
    rw [hcons]
    rintro ⟨⟩
    exact absurd hdigit (by decide)
  have hne : Text.ofNat n ≠ [] := by simp [hcons]
  have hall : (Text.ofNat n).all Char.isDigit := List.all_eq_true.2 (all_isDigit_ofNat n)
  simp only [int?, if_neg hhead, hne, hall, foldl_ofNat, h]
  simp

theorem int?_neg {n : ℕ} (h : isWord (-(n : Int))) :
    int? ('-' :: Text.ofNat n) = some (-(n : Int)) := by
  have hne : Text.ofNat n ≠ [] := Nat.toDigits_ne_nil
  have hall : (Text.ofNat n).all Char.isDigit := List.all_eq_true.2 (all_isDigit_ofNat n)
  simp only [int?, List.head?_cons, List.tail_cons, if_true, hne, hall, foldl_ofNat, h]
  simp

/-- The text of a number is read as the number. -/
theorem int?_toText {i : Int} (h : isWord i) : int? (Scalar.whole i).toText = some i := by
  rw [toText_whole]
  split
  · next hneg =>
    have habs : -(i.natAbs : Int) = i := by omega
    rw [← habs] at h
    rw [int?_neg h, habs]
  · next hpos =>
    have habs : (i.natAbs : Int) = i := by omega
    rw [← habs] at h
    rw [int?_ofNat h, habs]

/-- The text of a number holds digits and a sign, and at least one of them. -/
theorem mem_toText {i : Int} {c : Char} (h : c ∈ (Scalar.whole i).toText) :
    c.isDigit ∨ c = '-' := by
  rw [toText_whole] at h
  split at h
  · rcases List.mem_cons.1 h with rfl | h
    · exact .inr rfl
    · exact .inl (all_isDigit_ofNat _ c h)
  · exact .inl (all_isDigit_ofNat _ c h)

theorem not_mem_toText (i : Int) {c : Char} (hdigit : c.isDigit = false) (hsign : c ≠ '-') :
    c ∉ (Scalar.whole i).toText := by
  intro h
  rcases mem_toText h with h | h
  · rw [hdigit] at h
    cases h
  · exact hsign h

/-! ### Parts -/

/-- A part of a key: a name and the numbers of items. -/
structure Part where
  name : Text
  items : List Int

namespace Part

/-- A name that can be spelled, and numbers of at most 64 bits. -/
structure Valid (p : Part) : Prop where
  ne_nil : p.name ≠ []
  name : ∀ c ∈ p.name, isNameChar c
  items : ∀ i ∈ p.items, isWord i

/-- What follows the opening bracket of an item. -/
def itemText (i : Int) : Text := (Scalar.whole i).toText ++ [']']

def text (p : Part) : Text := p.name ++ p.items.flatMap fun i => '[' :: itemText i

def steps (p : Part) : List Step := .field (storedName p.name) :: p.items.map .item

end Part

theorem item?_itemText {i : Int} (h : isWord i) : item? (Part.itemText i) = some (.item i) := by
  have hspace : ∀ c ∈ (Scalar.whole i).toText, isSpace c = false := by
    intro c hc
    rcases mem_toText hc with hdigit | rfl
    · by_contra hspace
      rw [Bool.not_eq_false] at hspace
      rcases (by simpa [isSpace] using hspace : c = ' ' ∨ c = '\t') with rfl | rfl
      · exact absurd hdigit (by decide)
      · exact absurd hdigit (by decide)
    · rfl
  have hstart (t : Text) (ht : ∀ c ∈ t, isSpace c = false) : t.dropWhile isSpace = t := by
    cases t with
    | nil => rfl
    | cons c t => exact List.dropWhile_cons_of_neg (by simp [ht c List.mem_cons_self])
  have hlast : (Part.itemText i).getLast? = some ']' := by simp [Part.itemText]
  have hinner : ((Part.itemText i).dropLast.dropWhile isSpace).reverse.dropWhile isSpace =
      (Scalar.whole i).toText.reverse := by
    rw [Part.itemText, List.dropLast_concat, hstart _ hspace,
      hstart _ fun c hc => hspace c (List.mem_reverse.1 hc)]
  simp only [item?, if_pos hlast, hinner, List.reverse_reverse, int?_toText h, Option.map_some]

theorem joinWith_nil_cons (c : Char) (ts : List Text) :
    Text.joinWith c ([] :: ts) = ts.flatMap (c :: ·) := by
  induction ts with
  | nil => rfl
  | cons t ts ih =>
    rw [Text.joinWith_cons_cons, List.nil_append, List.flatMap_cons, ← ih]
    cases ts with
    | nil => simp
    | cons u ts => rw [Text.joinWith_cons_cons, Text.joinWith_cons_cons]; rfl

theorem mapM_item? {items : List Int} (h : ∀ i ∈ items, isWord i) :
    (items.map Part.itemText).mapM item? = some (items.map .item) := by
  induction items with
  | nil => rfl
  | cons i items ih =>
    obtain ⟨hi, hitems⟩ := List.forall_mem_cons.1 h
    rw [List.map_cons, List.mapM_cons, item?_itemText hi, ih hitems]
    rfl

theorem part?_text {p : Part} (h : p.Valid) : part? p.text = some p.steps := by
  have hopen : ∀ c ∈ (p.items.flatMap fun i => '[' :: Part.itemText i).head?,
      isNameChar c = false := by
    cases p.items with
    | nil => simp
    | cons i items =>
      rintro c ⟨⟩
      rfl
  have htake : p.text.takeWhile isNameChar = p.name := by
    rw [Part.text, List.takeWhile_append_of_pos h.name]
    cases hrest : p.items.flatMap fun i => '[' :: Part.itemText i with
    | nil => simp
    | cons c rest =>
      rw [hrest] at hopen
      rw [List.takeWhile_cons_of_neg (by simp [hopen c rfl]), List.append_nil]
  have hdrop : p.text.dropWhile isNameChar = p.items.flatMap fun i => '[' :: Part.itemText i := by
    have hsplit := List.takeWhile_append_dropWhile (p := isNameChar) (l := p.text)
    rw [htake, Part.text] at hsplit
    exact List.append_cancel_left hsplit
  have hbrackets : ∀ t ∈ [] :: p.items.map Part.itemText, '[' ∉ t := by
    refine List.forall_mem_cons.2 ⟨by simp, List.forall_mem_map.2 fun i _ => ?_⟩
    rw [Part.itemText, List.mem_append, not_or]
    exact ⟨not_mem_toText i rfl (by decide), by decide⟩
  have hitems : Text.splitOn '[' (p.items.flatMap fun i => '[' :: Part.itemText i) =
      [] :: p.items.map Part.itemText := by
    rw [← Text.splitOn_joinWith [] _ hbrackets, joinWith_nil_cons, List.flatMap_map]
  simp only [part?, htake, hdrop, if_neg h.ne_nil, hitems, mapM_item? h.items]
  rfl

/-! ### Keys -/

/-- The text of parts with dots between them. -/
def spell (ps : List Part) : Text := Text.joinWith '.' (ps.map Part.text)

theorem not_mem_text {p : Part} (h : p.Valid) : '.' ∉ p.text := by
  intro hmem
  rcases List.mem_append.1 hmem with hname | hitem
  · exact absurd (h.name _ hname) (by decide)
  · obtain ⟨i, -, hi⟩ := List.mem_flatMap.1 hitem
    rcases List.mem_cons.1 hi with hopen | hi
    · exact absurd hopen (by decide)
    · rcases List.mem_append.1 hi with hnumber | hclose
      · exact not_mem_toText i rfl (by decide) hnumber
      · exact absurd (List.mem_singleton.1 hclose) (by decide)

theorem mapM_part? {ps : List Part} (h : ∀ p ∈ ps, p.Valid) :
    (ps.map Part.text).mapM part? = some (ps.map Part.steps) := by
  induction ps with
  | nil => rfl
  | cons p ps ih =>
    obtain ⟨hp, hps⟩ := List.forall_mem_cons.1 h
    rw [List.map_cons, List.mapM_cons, part?_text hp, ih hps]
    rfl

/-- A key that is spelled out is read as its steps. -/
theorem parse?_spell {ps : List Part} (hne : ps ≠ []) (h : ∀ p ∈ ps, p.Valid) :
    parse? (spell ps) = some (ps.flatMap Part.steps) := by
  obtain ⟨p, rest, rfl⟩ := List.exists_cons_of_ne_nil hne
  have hdots : ∀ t ∈ p.text :: rest.map Part.text, '.' ∉ t := by
    rw [← List.map_cons]
    exact List.forall_mem_map.2 fun q hq => not_mem_text (h q hq)
  rw [parse?, spell, List.map_cons, Text.splitOn_joinWith _ _ hdots, ← List.map_cons,
    mapM_part? h]
  rfl

theorem exists_field_of_part? {t : Text} {steps : List Step} (h : part? t = some steps) :
    ∃ name rest, steps = .field name :: rest := by
  simp only [part?] at h
  split at h
  · cases h
  · split at h
    · obtain ⟨items, -, rfl⟩ := Option.map_eq_some_iff.1 h
      exact ⟨_, items, rfl⟩
    · cases h

/-- Whatever the key, the first step is to a field. -/
theorem exists_field_of_parse? {t : Text} {steps : List Step} (h : parse? t = some steps) :
    ∃ name rest, steps = .field name :: rest := by
  obtain ⟨parts, hparts, rfl⟩ := Option.map_eq_some_iff.1 h
  obtain ⟨t, ts, ht⟩ := List.exists_cons_of_ne_nil (Text.splitOn_ne_nil t)
  rw [ht, List.mapM_cons] at hparts
  simp only [Option.bind_eq_bind, Option.bind_eq_some_iff] at hparts
  obtain ⟨first, hfirst, more, -, hmore⟩ := hparts
  obtain rfl := Option.some.inj hmore
  obtain ⟨name, rest, rfl⟩ := exists_field_of_part? hfirst
  exact ⟨name, rest ++ more.flatten, rfl⟩

theorem exists_field_ofName (name : Text) : ∃ first rest, ofName name = .field first :: rest := by
  unfold ofName
  cases h : parse? name with
  | none => exact ⟨storedName name, [], rfl⟩
  | some steps => exact exists_field_of_parse? h

/-- An item is counted from the end, and letters lose their case. -/
example : parse? "Loading[-1].feature_extension".toList =
    some [.field "loading".toList, .item (-1), .field "feature_extension".toList] := by
  decide

end Key

end Gherkin.Settings
