import Gherkin.Forest.Basic

/-! Walking up the links. A walk ends at an element without a parent, or before the first element
that it meets again, so that links that run in a circle do no harm. -/

namespace Gherkin.Forest

/-- The elements from `start` upwards that are not in `seen`. -/
def climb (f : Forest) : Nat → List Nat → Option Nat → List Nat
  | fuel + 1, seen, some id =>
    if id ∈ seen then [] else id :: climb f fuel (id :: seen) (f.parent? id)
  | _, _, _ => []

/-- The ancestors of an element, nearest first. -/
def ancestors (f : Forest) (id : Nat) : List Nat := climb f f.nodes.length [] (f.parent? id)

/-- The first element from `start` upwards that answers the query and is not in `seen`. -/
def search (f : Forest) (q : Query) : Nat → List Nat → Option Nat → Option Nat
  | fuel + 1, seen, some id =>
    if id ∈ seen then none
    else if (f.kind? id).any (·.answers q) then some id
    else search f q fuel (id :: seen) (f.parent? id)
  | _, _, _ => none

/-- The nearest ancestor that answers a query. -/
def ancestor? (f : Forest) (id : Nat) (q : Query) : Option Nat :=
  search f q f.nodes.length [] (f.parent? id)

/-- The same for an element that is given by itself and not by its number. -/
def ancestorOf? (f : Forest) (n : Node) (q : Query) : Option Nat :=
  search f q f.nodes.length [] (n.link.filter fun p => (f.node? p).isSome)

end Gherkin.Forest
