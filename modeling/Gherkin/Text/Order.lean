import Gherkin.Text.Basic

/-! Orders on texts and sorting by insertion, which keeps the order of items that tie. -/

namespace Gherkin.Text

/-- Lexicographic order by code point. -/
def leq : Text → Text → Bool
  | [], _ => true
  | _ :: _, [] => false
  | a :: s, b :: t => a.toNat < b.toNat || (a == b && leq s t)

/-- Longer texts first. -/
def longerFirst (s t : Text) : Bool := t.length ≤ s.length

/-- Longer texts first, those of one length in lexicographic order. -/
def longerThenLeq (s t : Text) : Bool := t.length < s.length || (t.length == s.length && leq s t)

end Gherkin.Text

namespace Gherkin

variable {α : Type}

/-- Puts `x` before the first item that it precedes or ties with. -/
def insertBy (le : α → α → Bool) (x : α) : List α → List α
  | [] => [x]
  | y :: ys => if le x y then x :: y :: ys else y :: insertBy le x ys

/-- Sorts by insertion. Items that tie keep their order. -/
def sortBy (le : α → α → Bool) : List α → List α
  | [] => []
  | x :: xs => insertBy le x (sortBy le xs)

/-- Drops each item equal to the one before it. -/
def dropRepeats [DecidableEq α] : List α → List α
  | x :: y :: ys => if x = y then dropRepeats (y :: ys) else x :: dropRepeats (y :: ys)
  | xs => xs

@[simp] theorem mem_insertBy {le : α → α → Bool} {x y : α} {xs : List α} :
    y ∈ insertBy le x xs ↔ y = x ∨ y ∈ xs := by
  induction xs with
  | nil => simp [insertBy]
  | cons z zs ih =>
    rw [insertBy]
    split
    · simp
    · simp [ih]; grind

@[simp] theorem mem_sortBy {le : α → α → Bool} {y : α} {xs : List α} :
    y ∈ sortBy le xs ↔ y ∈ xs := by
  induction xs with
  | nil => simp [sortBy]
  | cons x xs ih => simp [sortBy, ih]

@[simp] theorem mem_dropRepeats [DecidableEq α] {y : α} {xs : List α} :
    y ∈ dropRepeats xs ↔ y ∈ xs := by
  fun_induction dropRepeats xs with
  | case1 x xs ih => simp [ih]
  | case2 x z zs h ih => simp [ih]
  | case3 xs h => simp

end Gherkin
