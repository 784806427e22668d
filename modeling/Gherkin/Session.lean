import Gherkin.Dialect.Scope
import Gherkin.Element.Parse
import Gherkin.Forest.Attach
import Gherkin.Forest.Change
import Gherkin.Forest.Plant
import Gherkin.Forest.Release

/-! A session works on a forest through names. Names are the only handles, so an element stays as
long as a name or a collection holds it; what nothing holds is freed after every operation. A
session also keeps the dialect in force and the guards of its open scopes. -/

namespace Gherkin

structure Session where
  forest : Forest := {}
  names : List (Text × Nat) := []
  scope : Scope := {}
  /-- The guards of the open scopes, the oldest first. -/
  guards : List Scope.Guard := []

namespace Session

/-! ### Names -/

/-- The element that a name is bound to. -/
def find? (s : Session) (name : Text) : Option Nat := s.names.lookup name

/-- The names bound to an element, in order. -/
def namesOf (s : Session) (id : Nat) : List Text :=
  sortBy Text.leq ((s.names.filter (·.2 == id)).map Prod.fst)

/-- Frees what neither a name nor a collection holds. -/
def settle (s : Session) : Session :=
  { s with forest := s.forest.release (s.names.map Prod.snd) }

/-- Binds a name, which lets go of the element that it was bound to. -/
def bind (s : Session) (name : Text) (id : Nat) : Session :=
  settle { s with names := (name, id) :: s.names.filter (·.1 ≠ name) }

def drop (s : Session) (name : Text) : Session :=
  settle { s with names := s.names.filter (·.1 ≠ name) }

/-! ### Elements -/

/-- Plants an element and binds it. Children of an element that was read from a text are linked to
it, those of an element built by hand are not. -/
def plant (s : Session) (name : Text) (linked : Bool) (e : Element) : Session :=
  let (id, forest) := s.forest.plant linked e
  bind { s with forest } name id

def attach (s : Session) (parent child : Nat) : Except TreeError Session :=
  (s.forest.attach parent child).map fun forest => settle { s with forest }

/-- Overwrites the link of an element without any check. -/
def link (s : Session) (child : Nat) (parent : Option Nat) : Session :=
  settle { s with forest := s.forest.setLink child parent }

def change (s : Session) (id : Nat) (a : Change) : Session :=
  { s with forest := s.forest.change id a }

/-- Adds an argument row to an examples block. -/
def addRow (s : Session) (id : Nat) (values : List (Text × Text)) : Except TreeError Session :=
  match (s.forest.rows? id).bind (Rows.add? · values) with
  | some rows => .ok (s.change id { rows := some rows })
  | none => .error .noParameters

/-- Removes an argument row from an examples block, if it has it. -/
def removeRow (s : Session) (id : Nat) (values : List (Text × Text)) : Option Session :=
  ((s.forest.rows? id).bind (Rows.remove? · values)).map fun rows =>
    s.change id { rows := some rows }

/-! ### Dialects -/

def setDefault (s : Session) (code : Text) : Session := { s with scope := s.scope.setDefault code }

/-- Opens a scope. -/
def enter (s : Session) (code : Text) : Session :=
  let (guard, scope) := s.scope.enter code
  { s with scope, guards := s.guards ++ [guard] }

/-- Closes the scope at a position, counted from the oldest. -/
def leaveAt (s : Session) (position : Nat) : Session :=
  match s.guards[position]? with
  | some guard => { s with scope := s.scope.leave guard, guards := s.guards.eraseIdx position }
  | none => s

/-- Closes the newest scope. -/
def leave (s : Session) : Session := s.leaveAt (s.guards.length - 1)

/-- Does `f` in a scope of its own, whose guard is closed when `f` is done, whatever came of it. -/
def within {α : Type} (s : Session) (code : Text) (f : Session → α × Session) : α × Session :=
  let (guard, scope) := s.scope.enter code
  let (result, t) := f { s with scope }
  (result, { t with scope := t.scope.leave guard })

/-- The code of the dialect in force. -/
def active (s : Session) : Text := s.scope.active

end Session

end Gherkin
