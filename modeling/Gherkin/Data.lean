import Gherkin.Text.Basic

/-! Values of a data format with records, lists, texts, numbers and truth values, and tolerant
access to their parts: what is missing or of the wrong shape reads as `null` or as empty. -/

namespace Gherkin

/-- A data value. `number m e` is `m` divided by the `e`-th power of ten. -/
inductive Data
  | null
  | bool (b : Bool)
  | number (mantissa : Int) (exponent : Nat)
  | text (t : Text)
  | list (items : List Data)
  | record (fields : List (String × Data))
deriving Inhabited

namespace Data

/-- A natural number as data. -/
def nat (n : Nat) : Data := number n 0

/-- A keyword of a data schema as data. -/
def word (w : String) : Data := text w.toList

def isNull : Data → Bool
  | null => true
  | _ => false

/-- The value under a key of a record. -/
def field? : Data → String → Option Data
  | record fields, key => fields.lookup key
  | _, _ => none

/-- The value under a key of a record, `null` when there is none. -/
def field (d : Data) (key : String) : Data := (d.field? key).getD null

/-- The value under a key of a record, unless it is `null`. -/
def present? (d : Data) (key : String) : Option Data :=
  (d.field? key).filter fun v => !v.isNull

def text? : Data → Option Text
  | text t => some t
  | _ => none

def nat? : Data → Option Nat
  | number (.ofNat n) 0 => some n
  | _ => none

/-- The items of a list; nothing else has items. -/
def items : Data → List Data
  | list ds => ds
  | _ => []

/-- The items of the list under a key. -/
def itemsAt (d : Data) (key : String) : List Data := (d.field key).items

/-- The text under a key, empty when there is none. -/
def textAt (d : Data) (key : String) : Text := ((d.field? key).bind text?).getD []

/-- The type that a record carries under the key `type`. -/
def type? (d : Data) : Option Text := (d.field? "type").bind text?

/-- Whether the record carries the given type. -/
def hasType (d : Data) (type : String) : Bool := d.type? == some type.toList

@[simp] theorem nat?_nat (n : Nat) : (nat n).nat? = some n := rfl

@[simp] theorem field?_record (fields : List (String × Data)) (key : String) :
    (record fields).field? key = fields.lookup key := rfl

end Data

end Gherkin
