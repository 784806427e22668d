import Gherkin.Settings.Toml.Value

/-! Settings files: headers that open tables, and pairs of a key and a value that fill the table
opened last. -/

namespace Gherkin.Settings.Toml

/-- A line of a settings file, or several when its value spans them. -/
inductive Entry
  | blank
  | header (key : Key)
  | nextHeader (key : Key)
  | pair (key : Key) (v : Value)

/-- The entry that follows an opening bracket, and what follows the bracket that closes it. -/
def header? (t : Text) : Option (Entry × Text) :=
  match t with
  | '[' :: t => do
    let (key, rest) ← key? maxDepth t
    let rest ← Text.after? [']', ']'] rest
    some (.nextHeader key, rest)
  | t => do
    let (key, rest) ← key? maxDepth t
    let rest ← Text.after? [']'] rest
    some (.header key, rest)

/-- The entry at the start of a text, and what follows its line. -/
def entry? (t : Text) : Option (Entry × Text) := do
  let (e, rest) ← match skipSpace t with
    | '[' :: t => header? t
    | '#' :: t => some (.blank, '#' :: t)
    | '\n' :: t => some (.blank, '\n' :: t)
    | '\r' :: t => some (.blank, '\r' :: t)
    | t => (pair? (value? maxDepth) t).map fun p => (.pair p.1.1 p.1.2, p.2)
  let rest ← lineEnd? rest
  some (e, rest)

/-- All entries of a text. Each takes at least one character, so the fuel is more than the length
of the text. -/
def entries? : Nat → Text → Option (List Entry)
  | 0, _ => none
  | fuel + 1, t =>
    if skipSpace t = [] then some []
    else do
      let (e, rest) ← entry? t
      let es ← entries? fuel rest
      some (e :: es)

/-- What is read so far: the path of the table opened last, and the fields at the top. -/
structure State where
  current : List Text
  root : List (Text × Item)

/-- Adds an entry. -/
def State.add (s : State) : Entry → Option State
  | .blank => some s
  | .header key => (openTable key s.root).map fun root => ⟨key.path ++ [key.name], root⟩
  | .nextHeader key => (openNext key s.root).map fun root => ⟨key.path ++ [key.name], root⟩
  | .pair key v => (alter .implied (assign key v) s.current .header s.root).map fun root =>
      { s with root }

/-- The fields of the table that a text holds. A byte order mark at its start does not count. -/
def parse? (source : Text) : Option (List (Text × Value)) := do
  let t := (Text.after? ['\ufeff'] source).getD source
  let entries ← entries? (t.length + 1) t
  let s ← entries.foldlM State.add ⟨[], []⟩
  some (Item.fieldValues s.root)

end Gherkin.Settings.Toml
