import Gherkin.Settings.Scalar.Fraction
import Gherkin.Settings.Scalar.Moment

/-! The single values that settings are given as. Each of them counts as its text. -/

namespace Gherkin.Settings

/-- Whether an integer has at most 64 bits, one of them for its sign. -/
def isWord (i : Int) : Bool := -9223372036854775808 ≤ i && i < 9223372036854775808

inductive Scalar
  | text (t : Text)
  | flag (b : Bool)
  | whole (n : Int)
  | fraction (x : Fraction)
  | moment (m : Moment)
deriving DecidableEq

namespace Scalar

/-- The text that a scalar counts as. -/
def toText : Scalar → Text
  | text t => t
  | flag b => (if b then "true" else "false").toList
  | whole n => if n < 0 then '-' :: Text.ofNat n.natAbs else Text.ofNat n.natAbs
  | fraction x => x.toText
  | moment m => m.toText

end Scalar

end Gherkin.Settings
