import Gherkin.Entries
import Gherkin.Settings.Scalar.Basic

/-! The values of settings, and how a later layer is merged into an earlier one: tables key by key,
where the case of letters does not count; anything else replaces what was there. -/

namespace Gherkin.Settings

/-- The values of settings. -/
inductive Value
  | missing
  | scalar (s : Scalar)
  | list (items : List Value)
  | table (fields : List (Text × Value))
deriving Inhabited

/-- A name in its stored form. The names of settings have no letters but those of ASCII. -/
def storedName (name : Text) : Text := name.map Char.toLower

namespace Value

/-- The fields of a table; nothing else has fields. -/
def fields : Value → List (Text × Value)
  | table fields => fields
  | _ => []

/-- The items of a list; nothing else has items. -/
def items : Value → List Value
  | list items => items
  | _ => []

mutual

/-- A value put over an earlier one. A table without fields leaves a value that is there. -/
def merge (old : Value) : Value → Value
  | table [] =>
    match old with
    | missing => table []
    | v => v
  | table (f :: fields) => table (mergeFields old.fields (f :: fields))
  | v => v

/-- Fields put over earlier ones. -/
def mergeFields (old : List (Text × Value)) : List (Text × Value) → List (Text × Value)
  | [] => old
  | (name, v) :: rest =>
    let before := (old.lookup (storedName name)).getD missing
    mergeFields (Entries.set (storedName name) (merge before v) old) rest

end

/-- The setting under a name. A table may be given as a list, the first item of which is the
setting that the table is made for. -/
def setting? (name : String) : Value → Option Value
  | table fields => fields.lookup name.toList
  | list (v :: _) => some v
  | _ => none

/-- The text of a scalar. -/
def text? : Value → Option Text
  | scalar s => some s.toText
  | _ => none

end Value

end Gherkin.Settings
