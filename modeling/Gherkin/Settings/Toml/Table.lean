import Gherkin.Settings.Value

/-! Tables while they are being read. A table is opened by a header of its own or comes to be on
the way: to a table with a header, or to a field whose key has dots. How it came to be decides
whether it may still be opened or filled. -/

namespace Gherkin.Settings.Toml

/-- How a table came to be. -/
inductive Origin
  | implied
  | dotted
  | header
deriving DecidableEq

/-- A field while it is being read: a value, a table, or a list of tables that were opened one
after the other, of which only the last can still be filled. -/
inductive Item
  | value (v : Value)
  | table (origin : Origin) (fields : List (Text × Item))
  | tables (earlier : List Value) (last : List (Text × Item))

/-- A key: the names on the way to a table and the name of a field in it. -/
structure Key where
  path : List Text
  name : Text
deriving DecidableEq

namespace Item

mutual

/-- The value that was read. -/
def toValue : Item → Value
  | value v => v
  | table _ fields => .table (fieldValues fields)
  | tables earlier last => .list (earlier ++ [.table (fieldValues last)])

/-- The fields that were read. -/
def fieldValues : List (Text × Item) → List (Text × Value)
  | [] => []
  | (name, i) :: rest => (name, i.toValue) :: fieldValues rest

end

end Item

/-- Changes the table at a path; where there is none yet, one of the given origin is made. A key
with dots does not lead into a table that has a header. -/
def alter (fresh : Origin) (change : Origin → List (Text × Item) → Option (List (Text × Item))) :
    List Text → Origin → List (Text × Item) → Option (List (Text × Item))
  | [], origin, fields => change origin fields
  | name :: rest, _, fields =>
    match fields.lookup name with
    | none => (alter fresh change rest fresh []).map fun new =>
        Entries.set name (.table fresh new) fields
    | some (.value _) => none
    | some (.table origin old) =>
      if fresh = .dotted ∧ origin = .header then none
      else (alter fresh change rest origin old).map fun new =>
        Entries.set name (.table origin new) fields
    | some (.tables earlier last) => (alter fresh change rest .header last).map fun new =>
        Entries.set name (.tables earlier new) fields

/-- Gives a value to a field that has none yet. A key with dots fills only tables that came to be
by such keys. -/
def assign (key : Key) (v : Value) (origin : Origin) (fields : List (Text × Item)) :
    Option (List (Text × Item)) :=
  alter .dotted (fun origin fields =>
    if (key.path = [] ∨ origin = .dotted) ∧ (fields.lookup key.name).isNone then
      some (Entries.set key.name (.value v) fields)
    else none) key.path origin fields

/-- Opens a table by its header, which no table has twice. -/
def openTable (key : Key) (root : List (Text × Item)) : Option (List (Text × Item)) :=
  alter .implied (fun _ fields =>
    match fields.lookup key.name with
    | none => some (Entries.set key.name (.table .header []) fields)
    | some (.table .implied old) => some (Entries.set key.name (.table .header old) fields)
    | some _ => none) key.path .header root

/-- Opens the next table of a list of tables. -/
def openNext (key : Key) (root : List (Text × Item)) : Option (List (Text × Item)) :=
  alter .implied (fun _ fields =>
    match fields.lookup key.name with
    | none => some (Entries.set key.name (.tables [] []) fields)
    | some (.tables earlier last) =>
      some (Entries.set key.name (.tables (earlier ++ [.table (Item.fieldValues last)]) []) fields)
    | some _ => none) key.path .header root

end Gherkin.Settings.Toml
