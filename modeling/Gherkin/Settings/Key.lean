import Gherkin.Settings.Value
import Gherkin.Text.Split

/-! Keys of settings: names with dots between them, each of which may be followed by the numbers of
items in square brackets. -/

namespace Gherkin.Settings

/-- A step from a value to a part of it. A negative number counts items from the end. -/
inductive Step
  | field (name : Text)
  | item (i : Int)
deriving DecidableEq

namespace Key

/-! ### Reading -/

/-- ASCII letters and digits, the underscore, the hyphen and the space. -/
def isNameChar (c : Char) : Bool := c.isAlphanum || c == '_' || c == '-' || c == ' '

def isSpace (c : Char) : Bool := c == ' ' || c == '\t'

/-- A decimal number of 64 bits with its sign, which only a negative one has. -/
def int? (t : Text) : Option Int :=
  let digits := if t.head? = some '-' then t.tail else t
  if digits = [] ∨ ¬digits.all Char.isDigit then none
  else
    let n := digits.foldl (fun n c => 10 * n + (c.toNat - '0'.toNat)) 0
    let i : Int := if t.head? = some '-' then -n else n
    if isWord i then some i else none

/-- The step for what follows an opening bracket. -/
def item? (t : Text) : Option Step :=
  if t.getLast? = some ']' then
    let inner := (t.dropLast.dropWhile isSpace).reverse.dropWhile isSpace
    (int? inner.reverse).map .item
  else none

/-- The steps for a part of a key between dots. -/
def part? (t : Text) : Option (List Step) :=
  let name := t.takeWhile isNameChar
  if name = [] then none
  else
    match Text.splitOn '[' (t.dropWhile isNameChar) with
    | [] :: subscripts => (subscripts.mapM item?).map (.field (storedName name) :: ·)
    | _ => none

/-- The steps that a key stands for. -/
def parse? (t : Text) : Option (List Step) := ((Text.splitOn '.' t).mapM part?).map List.flatten

/-- The steps for a name at the top of a file: those of the key that it is, and the name itself
when it is no key. -/
def ofName (name : Text) : List Step := (parse? name).getD [.field (storedName name)]

/-! ### Assignment -/

/-- The place of an item in a list of the given length, unless it lies before its start. -/
def place? (length : Nat) (i : Int) : Option Nat :=
  if 0 ≤ i then some i.toNat
  else if i.natAbs ≤ length then some (length - i.natAbs)
  else none

/-- A list with an item set; missing items fill the gap before it. -/
def setItem (n : Nat) (v : Value) (items : List Value) : List Value :=
  (items ++ List.replicate (n + 1 - items.length) Value.missing).set n v

/-- Puts a value under a key. What is on the way to it becomes a table or a list. -/
def assign (v : Value) : List Step → Value → Option Value
  | [], old => some (old.merge v)
  | [.item i], old => do
    let n ← place? old.items.length i
    some (.list (setItem n v old.items))
  | .field name :: rest, old => do
    let new ← assign v rest ((old.fields.lookup name).getD .missing)
    some (.table (Entries.set name new old.fields))
  | .item i :: rest, old => do
    let n ← place? old.items.length i
    let new ← assign v rest (old.items.getD n .missing)
    some (.list (setItem n new old.items))

end Key

end Gherkin.Settings
