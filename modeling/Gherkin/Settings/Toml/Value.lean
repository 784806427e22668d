import Gherkin.Settings.Toml.Scalar
import Gherkin.Settings.Toml.Table

/-! Keys and values of settings files. Lists and tables in braces hold values in turn, and nest to
a bounded depth. -/

namespace Gherkin.Settings.Toml

/-- The bound on the names of a key and on the lists and tables around a value. -/
def maxDepth : Nat := 79

/-! ### Keys -/

/-- The characters of names without quotes. -/
def isNameChar (c : Char) : Bool := c.isAlphanum || c == '_' || c == '-'

/-- A name, bare or in quotes, and what follows it. -/
def name? (t : Text) : Option (Text × Text) :=
  match t with
  | '"' :: _ | '\'' :: _ => quoted? t
  | t =>
    let name := t.takeWhile isNameChar
    if name = [] then none else some (name, t.dropWhile isNameChar)

/-- A key of at most the given number of names with dots between them, and what follows it. -/
def key? : Nat → Text → Option (Key × Text)
  | 0, _ => none
  | n + 1, t =>
    match name? (skipSpace t) with
    | none => none
    | some (name, rest) =>
      match skipSpace rest with
      | '.' :: rest => (key? n rest).map fun p => (⟨name :: p.1.path, p.1.name⟩, p.2)
      | rest => some (⟨[], name⟩, rest)

/-- A key, an equals sign and a value, and what follows them. -/
def pair? {α : Type} (value? : Text → Option (α × Text)) (t : Text) :
    Option ((Key × α) × Text) := do
  let (key, rest) ← key? maxDepth t
  let rest ← Text.after? ['='] rest
  let (v, rest) ← value? (skipSpace rest)
  some ((key, v), rest)

/-! ### Values -/

/-- The items of a list after its opening bracket, and what follows it. Each item takes at least
one character, so the fuel is the length of the text. -/
def items? {α : Type} (value? : Text → Option (α × Text)) : Nat → Text → Option (List α × Text)
  | 0, _ => none
  | fuel + 1, t =>
    match skipBlank false t with
    | ']' :: rest => some ([], rest)
    | t => do
      let (v, rest) ← value? t
      match skipBlank false rest with
      | ',' :: rest => (items? value? fuel rest).map fun p => (v :: p.1, p.2)
      | ']' :: rest => some ([v], rest)
      | _ => none

/-- The pairs of a table in braces, of which there is at least one, and what follows it. Each pair
takes at least one character, so the fuel is the length of the text. -/
def pairs? {α : Type} (value? : Text → Option (α × Text)) :
    Nat → Text → Option (List (Key × α) × Text)
  | 0, _ => none
  | fuel + 1, t => do
    let (pair, rest) ← pair? value? t
    match skipSpace rest with
    | ',' :: rest => (pairs? value? fuel rest).map fun p => (pair :: p.1, p.2)
    | '}' :: rest => some ([pair], rest)
    | _ => none

/-- The table of the pairs in braces. -/
def ofPairs? (pairs : List (Key × Value)) : Option Value :=
  (pairs.foldlM (fun fields pair => assign pair.1 pair.2 .header fields) []).map fun fields =>
    .table (Item.fieldValues fields)

/-- A value inside which lists and tables nest to at most the given depth, and what follows it. -/
def value? : Nat → Text → Option (Value × Text)
  | depth + 1, '[' :: rest =>
    (items? (value? depth) rest.length rest).map fun p => (.list p.1, p.2)
  | depth + 1, '{' :: rest =>
    match skipSpace rest with
    | '}' :: rest => some (.table [], rest)
    | rest => do
      let (pairs, rest) ← pairs? (value? depth) rest.length rest
      let table ← ofPairs? pairs
      some (table, rest)
  | _, t => (scalar? t).map fun p => (.scalar p.1, p.2)

end Gherkin.Settings.Toml
