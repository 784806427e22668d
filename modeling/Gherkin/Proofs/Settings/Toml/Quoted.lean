import Mathlib.Data.List.Basic
import Gherkin.Settings.Toml.Value

/-! Every text can be quoted. Between double quotes a text stands with the quote and the backslash
escaped and with its control characters as their codes, and it is read back as it was, whatever its
characters are and whatever follows. -/

namespace Gherkin.Settings.Toml

/-! ### Characters -/

/-- A character between double quotes. -/
def escape (c : Char) : Text :=
  if c = '"' ∨ c = '\\' then ['\\', c]
  else if isPlain c then [c]
  else '\\' :: 'u' :: '0' :: '0' :: [Nat.digitChar (c.toNat / 16), Nat.digitChar (c.toNat % 16)]

/-- What double quotes enclose for a text. -/
def escapeAll (t : Text) : Text := t.flatMap escape

/-- A text in double quotes. -/
def quote (t : Text) : Text := '"' :: escapeAll t ++ ['"']

theorem toNat_lt_of_not_plain {c : Char} (h : isPlain c = false) : c.toNat < 128 := by
  by_contra hlarge
  have hspace : ' ' ≤ c := by
    rw [Char.le_def, UInt32.le_iff_toNat_le]
    change 32 ≤ c.toNat
    omega
  have hdelete : c ≠ '\x7f' := by
    rintro rfl
    exact hlarge (by decide)
  simp [isPlain, hspace, hdelete] at h

theorem hexValue?_digitChar {n : ℕ} (h : n < 16) : hexValue? (Nat.digitChar n) = some n := by
  revert n
  decide

/-- A character that stands for itself between double quotes. -/
def IsOrdinary (c : Char) : Prop := isPlain c ∧ c ≠ '"' ∧ c ≠ '\\'

instance (c : Char) : Decidable (IsOrdinary c) := inferInstanceAs (Decidable (_ ∧ _))

theorem isOrdinary_digitChar {n : ℕ} (h : n < 16) : IsOrdinary (Nat.digitChar n) := by
  revert n
  decide

/-- How a character is written between double quotes. -/
theorem escape_cases (c : Char) :
    ((c = '"' ∨ c = '\\') ∧ escape c = ['\\', c]) ∨ (IsOrdinary c ∧ escape c = [c]) ∨
      ∃ high < 16, ∃ low < 16, 16 * high + low = c.toNat ∧
        escape c = '\\' :: 'u' :: '0' :: '0' :: [Nat.digitChar high, Nat.digitChar low] := by
  unfold escape
  split
  · next h => exact .inl ⟨h, rfl⟩
  · next h =>
    split
    · next hplain => exact .inr (.inl ⟨⟨hplain, not_or.1 h⟩, rfl⟩)
    · next hplain =>
      have hlt := toNat_lt_of_not_plain (Bool.not_eq_true _ ▸ hplain)
      exact .inr (.inr ⟨c.toNat / 16, by omega, c.toNat % 16, by omega, by omega, rfl⟩)

theorem codePoint?_digits {c : Char} {high low : ℕ} (hhigh : high < 16) (hlow : low < 16)
    (h : 16 * high + low = c.toNat) :
    codePoint? ['0', '0', Nat.digitChar high, Nat.digitChar low] = some c := by
  have hzero : hexValue? '0' = some 0 := by decide
  have hvalid : c.toNat.isValidChar := c.valid
  simp [codePoint?, hzero, hexValue?_digitChar hhigh, hexValue?_digitChar hlow, h, hvalid]

/-! ### Bodies -/

section Body

variable {c : Char} {t rest : Text}

theorem ne_return (hplain : isPlain c) : c ≠ '\r' := by
  rintro rfl
  exact absurd hplain (by decide)

/-- One character on the way to the closing quotes. -/
theorem body?_cons {taken : Bool} (hplain : isPlain c) (hclosing : taken = false → c ≠ '"')
    (rest : Text) :
    body? '"' true false taken (c :: rest) =
      (body? '"' true false
        (!taken && c == '\\' && (rest.head? == some '\\' || rest.head? == some '"')) rest).map
        fun p => (c :: p.1, p.2) := by
  have hreturn := ne_return hplain
  have hopen : (if taken then none else closing? '"' false (c :: rest)) = none := by
    cases taken with
    | true => rfl
    | false => simpa [closing?] using hclosing rfl
  rw [body?]
  · simp [hopen, hplain]
  · rintro rest rfl
    exact absurd rfl hreturn

theorem body?_ordinary (h : IsOrdinary c) (rest : Text) :
    body? '"' true false false (c :: rest) =
      (body? '"' true false false rest).map fun p => (c :: p.1, p.2) := by
  obtain ⟨hplain, hquote, hslash⟩ := h
  rw [body?_cons hplain fun _ => hquote, beq_eq_false_iff_ne.2 hslash]
  rfl

/-- A backslash takes the quote or the backslash after it along. -/
theorem body?_taken (hc : c = '"' ∨ c = '\\') (rest : Text) :
    body? '"' true false false ('\\' :: c :: rest) =
      (body? '"' true false false rest).map fun p => ('\\' :: c :: p.1, p.2) := by
  have hplain : isPlain c := by rcases hc with rfl | rfl <;> decide
  have hnext : body? '"' true false true (c :: rest) =
      (body? '"' true false false rest).map fun p => (c :: p.1, p.2) :=
    body?_cons hplain (fun h => Bool.noConfusion h) rest
  have htakes : (!false && '\\' == '\\' && ((c :: rest).head? == some '\\' ||
      (c :: rest).head? == some '"')) = true := by rcases hc with rfl | rfl <;> rfl
  rw [body?_cons (by decide) fun _ => by decide, htakes, hnext, Option.map_map]
  rfl

theorem body?_code (rest : Text) :
    body? '"' true false false ('\\' :: 'u' :: rest) =
      (body? '"' true false false rest).map fun p => ('\\' :: 'u' :: p.1, p.2) := by
  have hordinary : IsOrdinary 'u' := by decide
  have htakes : (!false && '\\' == '\\' && (('u' :: rest).head? == some '\\' ||
      ('u' :: rest).head? == some '"')) = false := rfl
  rw [body?_cons (by decide) fun _ => by decide, htakes, body?_ordinary hordinary, Option.map_map]
  rfl

/-- What a character is written as is enclosed as a whole. -/
theorem body?_escape (c : Char) (rest : Text) :
    body? '"' true false false (escape c ++ rest) =
      (body? '"' true false false rest).map fun p => (escape c ++ p.1, p.2) := by
  rcases escape_cases c with ⟨hc, h⟩ | ⟨hc, h⟩ | ⟨high, hhigh, low, hlow, -, h⟩
  · rw [h]
    exact body?_taken hc rest
  · rw [h]
    exact body?_ordinary hc rest
  · have hzero : IsOrdinary '0' := by decide
    simp only [h, List.cons_append, List.nil_append, body?_code, body?_ordinary hzero,
      body?_ordinary (isOrdinary_digitChar hhigh), body?_ordinary (isOrdinary_digitChar hlow),
      Option.map_map]
    rfl

theorem body?_escapeAll (t rest : Text) :
    body? '"' true false false (escapeAll t ++ '"' :: rest) = some (escapeAll t, rest) := by
  induction t with
  | nil => rfl
  | cons c t ih =>
    rw [escapeAll, List.flatMap_cons, List.append_assoc, body?_escape, ← escapeAll, ih]
    rfl

/-! ### Reading back -/

theorem unescape?_escape (c : Char) (rest : Text) :
    unescape? false (escape c ++ rest) = (unescape? false rest).map (c :: ·) := by
  rcases escape_cases c with ⟨hc, h⟩ | ⟨hc, h⟩ | ⟨high, hhigh, low, hlow, hvalue, h⟩
  · rw [h]
    rcases hc with rfl | rfl <;> rfl
  · obtain ⟨-, -, hslash⟩ := hc
    rw [h, List.singleton_append, unescape?]
    · rw [if_neg hslash, if_neg (by simp)]
    · exact fun _ _ _ _ _ heq _ => hslash heq
    · exact fun _ _ _ _ _ _ _ _ _ heq _ => hslash heq
    · exact fun _ _ heq _ => hslash heq
  · rw [h]
    simp [unescape?, codePoint?_digits hhigh hlow hvalue]

theorem unescape?_escapeAll (t : Text) : unescape? false (escapeAll t) = some t := by
  induction t with
  | nil => rfl
  | cons c t ih =>
    rw [escapeAll, List.flatMap_cons, unescape?_escape, ← escapeAll, ih]
    rfl

theorem quote_append (t rest : Text) :
    quote t ++ rest = '"' :: (escapeAll t ++ '"' :: rest) := by
  simp [quote]

/-- A quoted text is read back, whatever follows. -/
theorem quoted?_quote (t rest : Text) : quoted? (quote t ++ rest) = some (t, rest) := by
  rw [quote_append]
  simp [quoted?, body?_escapeAll, unescape?_escapeAll]

/-- The first quote after the opening one closes the text. -/
theorem eq_of_escapeAll_append {after : Text} (h : escapeAll t ++ '"' :: rest = '"' :: after) :
    rest = after := by
  cases t with
  | nil => exact (List.cons.inj h).2
  | cons c t =>
    rw [escapeAll, List.flatMap_cons, List.append_assoc] at h
    rcases escape_cases c with ⟨-, hc⟩ | ⟨⟨-, hquote, -⟩, hc⟩ | ⟨_, -, _, -, -, hc⟩
    · rw [hc] at h
      exact absurd (List.cons.inj h).1 (by decide)
    · rw [hc] at h
      exact absurd (List.cons.inj h).1 hquote
    · rw [hc] at h
      exact absurd (List.cons.inj h).1 (by decide)

/-- A quoted text is read back as a text that may have several lines, unless a further quote makes
three of an empty one. -/
theorem string?_quote (t : Text) (hrest : rest.head? ≠ some '"') :
    string? (quote t ++ rest) = some (t, rest) := by
  rw [← quoted?_quote t rest]
  unfold string?
  split
  · next after heq =>
    rw [quote_append] at heq
    have hafter := eq_of_escapeAll_append (List.cons.inj heq).2
    rw [hafter] at hrest
    exact absurd rfl hrest
  · next heq =>
    rw [quote_append] at heq
    exact absurd (List.cons.inj heq).1 (by decide)
  · rfl

theorem scalar?_quote (t : Text) (hrest : rest.head? ≠ some '"') :
    scalar? (quote t ++ rest) = some (.text t, rest) := by
  have hstring := string?_quote t hrest
  rw [quote_append] at hstring ⊢
  simp [scalar?, hstring]

theorem value?_quote (depth : ℕ) (t : Text) (hrest : rest.head? ≠ some '"') :
    value? depth (quote t ++ rest) = some (.scalar (.text t), rest) := by
  have hscalar := scalar?_quote t hrest
  rw [quote_append] at hscalar ⊢
  cases depth with
  | zero => simp [value?, hscalar]
  | succ depth => simp [value?, hscalar]

end Body

end Gherkin.Settings.Toml
