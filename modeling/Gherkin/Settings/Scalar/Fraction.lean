import Gherkin.Text.Basic

/-! Binary fractions of 64 bits and their decimal texts. The text of a fraction has the fewest
digits that read back to it, of those the nearest ones, and no exponent. -/

namespace Gherkin.Settings

/-- A binary fraction of 64 bits: a mantissa times a power of two with a sign, an infinity, or no
number at all. -/
inductive Fraction
  | finite (negative : Bool) (mantissa : Nat) (exponent : Int)
  | infinite (negative : Bool)
  | undefined
deriving DecidableEq

namespace Fraction

/-- The fraction that is stored as the given bits. -/
def ofBits (bits : UInt64) : Fraction :=
  let n := bits.toNat
  let negative : Bool := Nat.pow 2 63 ≤ n
  let exponent : Nat := n / Nat.pow 2 52 % Nat.pow 2 11
  let mantissa : Nat := n % Nat.pow 2 52
  if exponent = 2047 then if mantissa = 0 then infinite negative else undefined
  else if exponent = 0 then finite negative mantissa (-1074)
  else finite negative (Nat.pow 2 52 + mantissa) ((exponent : Int) - 1075)

/-- The fraction with the given sign. -/
def withSign (negative : Bool) : Fraction → Fraction
  | finite _ mantissa exponent => finite negative mantissa exponent
  | infinite _ => infinite negative
  | undefined => undefined

/-- The fraction nearest to a number times a power of ten. Beyond four hundred places to either
side nothing but zero and infinity is near. -/
def ofScientific (negative : Bool) (n : Nat) (exponent : Int) : Fraction :=
  let places := (Text.ofNat n).length + exponent
  if n = 0 ∨ places < -400 then finite negative 0 0
  else if 400 < places then infinite negative
  else withSign negative
    (ofBits (Float.ofScientific n (decide (exponent < 0)) exponent.natAbs).toBits)

/-! ### Shortest decimals -/

/-- Whether `digits` times ten to the `place` reads back to `mantissa` times two to the `exponent`:
it lies between the midpoints to the neighbours, which count when the mantissa is even. The
neighbour below a power of two is only half as far away. -/
def readsBack (mantissa : Nat) (exponent : Int) (digits : Nat) (place : Int) : Bool :=
  let decimal := 4 * digits * Nat.pow 10 place.toNat * Nat.pow 2 (-exponent).toNat
  let unit := Nat.pow 2 exponent.toNat * Nat.pow 10 (-place).toNat
  let low := (if mantissa = Nat.pow 2 52 then 4 * mantissa - 1 else 4 * mantissa - 2) * unit
  let high := (4 * mantissa + 2) * unit
  (low < decimal && decimal < high) || (mantissa % 2 == 0 && (decimal == low || decimal == high))

/-- The multiple of ten to the `place` that reads back, if there is one: the nearer of the two
around the value, and the upper one when both are as near. -/
def digitsAt? (mantissa : Nat) (exponent place : Int) : Option Nat :=
  let step := Nat.pow 10 place.toNat * Nat.pow 2 (-exponent).toNat
  let value := mantissa * (Nat.pow 2 exponent.toNat * Nat.pow 10 (-place).toNat)
  let below := value / step
  let around := [below, below + 1]
  let sorted := if 2 * value < (2 * below + 1) * step then around else around.reverse
  sorted.find? fun d => readsBack mantissa exponent d place

theorem readsBack_of_digitsAt? {mantissa digits : Nat} {exponent place : Int}
    (h : digitsAt? mantissa exponent place = some digits) :
    readsBack mantissa exponent digits place := by
  simpa using List.find?_some h

/-- The decimal with the fewest digits that reads back, as its digits and the place of the last of
them. The places of all fractions lie in the range that is searched, from the coarsest on; the
exact value stands at its end. -/
def shortest (mantissa : Nat) (exponent : Int) : Nat × Int :=
  let found := (List.range 640).findSome? fun (i : Nat) =>
    (digitsAt? mantissa exponent (310 - i)).map fun digits => (digits, 310 - (i : Int))
  found.getD (mantissa * Nat.pow 2 exponent.toNat * Nat.pow 5 (-exponent).toNat, min exponent 0)

/-- A decimal without an exponent. -/
def positional (digits : Nat) (place : Int) : Text :=
  if 0 ≤ place then Text.ofNat digits ++ List.replicate place.toNat '0'
  else
    let places := (-place).toNat
    let t := (Text.ofNat digits).leftpad (places + 1) '0'
    t.take (t.length - places) ++ '.' :: t.drop (t.length - places)

/-- The text of a fraction. -/
def toText : Fraction → Text
  | finite negative mantissa exponent =>
    let decimal := if mantissa = 0 then (0, 0) else shortest mantissa exponent
    (if negative then ['-'] else []) ++ positional decimal.1 decimal.2
  | infinite negative => (if negative then "-inf" else "inf").toList
  | undefined => "NaN".toList

end Fraction

end Gherkin.Settings
