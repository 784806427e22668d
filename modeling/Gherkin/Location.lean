/-! Places in a text, counted from one, by lines and by characters within the line. -/

namespace Gherkin

/-- The line and column of a node's first significant character. -/
structure Location where
  line : Nat
  column : Nat
deriving DecidableEq

end Gherkin
