import Gherkin.Forest.Basic

/-! Freeing elements. An element stays while a handle refers to it or a collection of an element
that stays holds it; links to the element that contains it do not keep it. Elements that contain
one another in a circle keep each other. -/

namespace Gherkin.Forest

/-- Whether a collection of some element holds the element. -/
def isContained (f : Forest) (id : Nat) : Bool :=
  f.nodes.any fun n => n.any fun n => n.content.children.contains id

/-- The elements that a handle or a collection holds. -/
def sweep (f : Forest) (handles : List Nat) : Forest :=
  ⟨f.nodes.mapIdx fun id n => if handles.contains id || f.isContained id then n else none⟩

/-- The number of elements that are there. -/
def population (f : Forest) : Nat := (f.nodes.filterMap id).length

/-- Sweeps until nothing more is freed, at most `fuel` times. -/
def sweepAll (handles : List Nat) : Nat → Forest → Forest
  | 0, f => f
  | fuel + 1, f =>
    let swept := f.sweep handles
    if swept.population = f.population then f else sweepAll handles fuel swept

/-- Frees every element that nothing holds any more. -/
def release (f : Forest) (handles : List Nat) : Forest := sweepAll handles f.nodes.length f

end Gherkin.Forest
