/-! A text is the list of its characters: every count, cut and comparison of the format goes by
character. Here are the characters that count as blank, those with the Unicode property
`White_Space`, the cuts that remove blanks from the ends of a text, and the rest of a text after a
given beginning. -/

namespace Gherkin

/-- A text is the list of its characters. -/
abbrev Text := List Char

namespace Text

/-- The characters with the Unicode property `White_Space`. -/
def isBlank (c : Char) : Bool :=
  let n := c.toNat
  (9 ≤ n && n ≤ 13) || n == 0x20 || n == 0x85 || n == 0xA0 || n == 0x1680 ||
    (0x2000 ≤ n && n ≤ 0x200A) || n == 0x2028 || n == 0x2029 || n == 0x202F || n == 0x205F ||
    n == 0x3000

/-- The text without its leading blanks. -/
def trimStart (t : Text) : Text := t.dropWhile isBlank

/-- The text without its trailing blanks. -/
def trimEnd (t : Text) : Text := (t.reverse.dropWhile isBlank).reverse

/-- The text without the blanks at either end. -/
def trim (t : Text) : Text := trimEnd (trimStart t)

/-- The number of leading blanks. -/
def indent (t : Text) : Nat := (t.takeWhile isBlank).length

/-- The text without its leading blanks, of which at most `n` are removed. -/
def dropIndent : Nat → Text → Text
  | n + 1, c :: cs => if isBlank c then dropIndent n cs else c :: cs
  | _, t => t

/-- What follows `start` in the text, if the text starts with it. -/
def after? : Text → Text → Option Text
  | [], t => some t
  | _ :: _, [] => none
  | s :: start, c :: cs => if s = c then after? start cs else none

/-- Whether the text starts with `start`. -/
def startsWith (start t : Text) : Bool := (after? start t).isSome

/-- The decimal digits of a number. -/
def ofNat (n : Nat) : Text := Nat.toDigits 10 n

@[simp] theorem trimStart_nil : trimStart [] = [] := rfl

@[simp] theorem trimEnd_nil : trimEnd [] = [] := rfl

@[simp] theorem trim_nil : trim [] = [] := rfl

@[simp] theorem dropIndent_zero (t : Text) : dropIndent 0 t = t := by
  cases t <;> rfl

theorem takeWhile_append_trimStart (t : Text) : t.takeWhile isBlank ++ trimStart t = t :=
  List.takeWhile_append_dropWhile

theorem trimStart_eq_drop (t : Text) : trimStart t = t.drop (indent t) := by
  induction t with
  | nil => rfl
  | cons c t ih =>
    by_cases h : isBlank c
    · simpa [trimStart, indent, h] using ih
    · simp [trimStart, indent, h]

theorem after?_eq_some_iff {start t rest : Text} :
    after? start t = some rest ↔ t = start ++ rest := by
  induction start generalizing t with
  | nil => simp [after?, eq_comm]
  | cons s start ih => cases t with
    | nil => simp [after?]
    | cons c cs =>
      by_cases h : s = c
      · simp [after?, h, ih]
      · simp [after?, h, Ne.symm h]

theorem after?_append (start rest : Text) : after? start (start ++ rest) = some rest :=
  after?_eq_some_iff.2 rfl

end Text

end Gherkin
