import Gherkin.Dialect.Table

/-! The dialect in force: a default, and above it an override that lasts for a scope. Opening a
scope yields a guard that keeps the override it displaced; closing a guard puts back exactly what
that guard kept, whichever guards were opened since. -/

namespace Gherkin

/-- The default dialect and the override of the innermost scope. -/
structure Scope where
  default : Text := Dialect.defaultCode
  override : Option Text := none
deriving DecidableEq

/-- What an open scope restores when it is closed. -/
structure Scope.Guard where
  displaced : Option Text
deriving DecidableEq

namespace Scope

/-- The code of the dialect in force. -/
def active (s : Scope) : Text := s.override.getD s.default

def setDefault (s : Scope) (code : Text) : Scope := { s with default := code }

/-- Opens a scope in which `code` is in force. -/
def enter (s : Scope) (code : Text) : Guard × Scope :=
  (⟨s.override⟩, { s with override := some code })

/-- Closes the scope of a guard. -/
def leave (s : Scope) (g : Guard) : Scope := { s with override := g.displaced }

@[simp] theorem active_enter (s : Scope) (code : Text) : (s.enter code).2.active = code := rfl

@[simp] theorem leave_enter (s : Scope) (code : Text) :
    (s.enter code).2.leave (s.enter code).1 = s := rfl

end Scope

end Gherkin
