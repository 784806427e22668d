import Gherkin.Settings.Toml.Basic

/-! Quoted texts. Double quotes enclose a text with escapes, single quotes a text that is taken as
it is; three quotes enclose a text of several lines. -/

namespace Gherkin.Settings.Toml

/-! ### Bodies -/

/-- What closes a text: the quotes that still belong to it, and what follows. A text of several
lines may end with one or two quotes of its own. -/
def closing? (quote : Char) (lines : Bool) (t : Text) : Option (Text × Text) :=
  if lines then
    if t.take 3 = [quote, quote, quote] then
      let own := ((t.drop 3).take 2).takeWhile (· = quote)
      some (own, t.drop (3 + own.length))
    else none
  else if t.head? = some quote then some ([], t.tail)
  else none

/-- What a text encloses, and what follows it. Line ends become line feeds. With escapes, a
backslash takes a quote or a backslash after it along; `taken` says that this is the next one. -/
def body? (quote : Char) (escapes lines taken : Bool) : Text → Option (Text × Text)
  | [] => none
  | '\r' :: '\n' :: rest =>
    if lines then (body? quote escapes lines false rest).map fun p => ('\n' :: p.1, p.2) else none
  | c :: rest =>
    match if taken then none else closing? quote lines (c :: rest) with
    | some found => some found
    | none =>
      if isPlain c ∨ (lines ∧ c = '\n') then
        let takes := escapes && !taken && c == '\\' &&
          (rest.head? == some '\\' || rest.head? == some quote)
        (body? quote escapes lines takes rest).map fun p => (c :: p.1, p.2)
      else none

/-! ### Escapes -/

def hexValue? (c : Char) : Option Nat :=
  if c.isDigit then some (c.toNat - '0'.toNat)
  else if 'a' ≤ c ∧ c ≤ 'f' then some (c.toNat - 'a'.toNat + 10)
  else if 'A' ≤ c ∧ c ≤ 'F' then some (c.toNat - 'A'.toNat + 10)
  else none

/-- The character with a hexadecimal code, if there is one. -/
def codePoint? (digits : List Char) : Option Char := do
  let values ← digits.mapM hexValue?
  let n := values.foldl (fun n d => 16 * n + d) 0
  if n.isValidChar then some (Char.ofNat n) else none

/-- The character that a letter after a backslash stands for. -/
def escaped? : Char → Option Char
  | 'b' => some '\x08'
  | 't' => some '\t'
  | 'n' => some '\n'
  | 'f' => some '\x0c'
  | 'r' => some '\r'
  | '"' => some '"'
  | '\\' => some '\\'
  | _ => none

/-- The text that is enclosed with escapes. A backslash at the end of a line drops all blanks and
line ends up to the next character; `folding` says whether such a drop is under way. -/
def unescape? (folding : Bool) : Text → Option Text
  | [] => some []
  | '\\' :: 'u' :: a :: b :: c :: d :: rest => do
    let x ← codePoint? [a, b, c, d]
    (unescape? false rest).map (x :: ·)
  | '\\' :: 'U' :: a :: b :: c :: d :: e :: f :: g :: h :: rest => do
    let x ← codePoint? [a, b, c, d, e, f, g, h]
    (unescape? false rest).map (x :: ·)
  | '\\' :: c :: rest =>
    match escaped? c with
    | some x => (unescape? false rest).map (x :: ·)
    | none => if (skipSpace (c :: rest)).head? = some '\n' then unescape? true rest else none
  | c :: rest =>
    if c = '\\' then none
    else if folding ∧ (isSpace c ∨ c = '\n') then unescape? true rest
    else (unescape? false rest).map (c :: ·)

/-! ### Texts -/

/-- A text on one line, and what follows it. -/
def quoted? : Text → Option (Text × Text)
  | '"' :: rest => do
    let (body, rest) ← body? '"' true false false rest
    let t ← unescape? false body
    some (t, rest)
  | '\'' :: rest => body? '\'' false false false rest
  | _ => none

/-- A text of one or several lines, and what follows it. A line end right after the opening quotes
does not count. -/
def string? : Text → Option (Text × Text)
  | '"' :: '"' :: '"' :: rest => do
    let (body, rest) ← body? '"' true true false ((newline? rest).getD rest)
    let t ← unescape? false body
    some (t, rest)
  | '\'' :: '\'' :: '\'' :: rest => body? '\'' false true false ((newline? rest).getD rest)
  | t => quoted? t

end Gherkin.Settings.Toml
