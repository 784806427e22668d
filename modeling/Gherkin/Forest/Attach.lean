import Gherkin.Forest.Ancestry

/-! Building trees by attaching one element to another. The child goes into the collection of the
parent for its kind and is linked to it; a feature or a background takes the place of the one that
was there, whose link is cleared. What has no place, has a parent already, or would contain itself
is refused and nothing changes. -/

namespace Gherkin

/-- Why a change to a tree is refused. -/
inductive TreeError
  | invalidChild (parent child : Kind)
  | alreadyAttached (child : Kind)
  | noParameters
  | cycle (child : Kind)
deriving DecidableEq

def TreeError.message : TreeError → Text
  | invalidChild parent child =>
    "a ".toList ++ parent.name ++ " cannot contain a ".toList ++ child.name
  | alreadyAttached child => child.name ++ " already has a parent".toList
  | noParameters => "an example needs a parameter row before argument rows can be added".toList
  | cycle child => "attaching this ".toList ++ child.name ++ " would create a cycle".toList

namespace Forest

/-- Links `child` to `parent` and puts it into its collection; an element that it displaces loses
its link. -/
def place (f : Forest) (parent child : Nat) (kind : Kind) (displaced : Option Nat) : Forest :=
  let f := (f.setLink child (some parent)).insert parent kind child
  match displaced with
  | some old => f.setLink old none
  | none => f

/-- Attaches `child` to `parent`. Elements that are not there are left alone. -/
def attach (f : Forest) (parent child : Nat) : Except TreeError Forest :=
  match f.node? parent, f.node? child with
  | some p, some c =>
    let kind := c.content.kind
    if ¬p.content.kind.accepts kind then .error (.invalidChild p.content.kind kind)
    else if (f.parent? child).isSome then .error (.alreadyAttached kind)
    else if child = parent ∨ child ∈ f.ancestors parent then .error (.cycle kind)
    else .ok (f.place parent child kind (p.content.displaced kind))
  | _, _ => .ok f

/-! ### In place -/

/-- Points the link of a child at a parent, unless it has a parent already. -/
def tie (f : Forest) (parent child : Nat) (kind : Kind) : Except TreeError Unit × Forest :=
  if (f.parent? child).isSome then (.error (.alreadyAttached kind), f)
  else (.ok (), f.setLink child (some parent))

/-- Puts a child into the collection of a parent, and then clears the link of what it took the place
of. -/
def store (f : Forest) (parent child : Nat) (kind : Kind) : Forest :=
  match (f.node? parent).bind (·.content.displaced kind) with
  | some old => (f.insert parent kind child).setLink old none
  | none => f.insert parent kind child

/-- Attaches `child` to `parent` by one change after the other, each of them to the forest as the one
before has left it. -/
def attachInPlace (f : Forest) (parent child : Nat) : Except TreeError Unit × Forest :=
  match f.node? parent, f.node? child with
  | some p, some c =>
    let kind := c.content.kind
    if ¬p.content.kind.accepts kind then (.error (.invalidChild p.content.kind kind), f)
    else if (f.parent? child).isSome then (.error (.alreadyAttached kind), f)
    else if child = parent ∨ child ∈ f.ancestors parent then (.error (.cycle kind), f)
    else match f.tie parent child kind with
      | (.error e, f) => (.error e, f)
      | (.ok (), f) => (.ok (), f.store parent child kind)
  | _, _ => (.ok (), f)

end Forest

end Gherkin
