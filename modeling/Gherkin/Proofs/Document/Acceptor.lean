import Gherkin.Proofs.Document.Completeness

/-! An automaton that takes a document line by line. Its states say how far the document has come,
and it has no step for a line that has no place there. Lines without a meaning leave it where it is,
except in a description, which a comment ends, and in a doc string, where they are content. -/

open Gherkin.Document.Parser

namespace Gherkin

namespace Document

/-! ### States -/

/-- How far the blocks of a feature have come: none yet, one that takes no examples, or an outline. -/
inductive Stage
  | first
  | plain
  | outline
deriving DecidableEq

/-- What may come next after a block, its steps and rows aside. -/
def stageAfter : Block → Stage
  | .feature => .first
  | .background | .scenario => .plain
  | .outline | .examples => .outline

/-- Where the lines before leave the reader. In the body of a block `table` tells what rows may come:
none, the first row of a table, or more rows, of some width. -/
inductive State
  | opening (tagged : Bool)
  | prose (block : Block)
  | body (block : Block) (table : Option (Option ℕ))
  | docString (block : Block) (fence : Fence)
  | between (stage : Stage) (tagged : Bool)

namespace State

/-- Whether the lines may end. -/
def accepts : State → Bool
  | opening tagged => !tagged
  | docString .. => false
  | between _ tagged => !tagged
  | _ => true

/-- The state after a tag line, if its tags are well formed. -/
def ofTags (l : Line) (s : State) : Option State :=
  if (LocatedTag.split l.text l.location).isOk then some s else none

def openingStep (tagged : Bool) (l : Line) : Option State :=
  match l.kind with
  | .tags => ofTags l (opening true)
  | .header .feature .. => some (prose .feature)
  | k => if k.isTrivia then some (opening tagged) else none

def betweenStep (stage : Stage) (tagged : Bool) (l : Line) : Option State :=
  match l.kind with
  | .tags => ofTags l (between stage true)
  | .header .scenario .. => some (prose .scenario)
  | .header .outline .. => some (prose .outline)
  | .header .examples .. => if stage = .outline then some (prose .examples) else none
  | .header .background .. =>
    if stage = .first ∧ tagged = false then some (prose .background) else none
  | k => if k.isTrivia then some (between stage tagged) else none

/-- Steps belong to backgrounds, scenarios and outlines. -/
def takesSteps (block : Block) : Bool := block ≠ .feature ∧ block ≠ .examples

def bodyStep (block : Block) (table : Option (Option ℕ)) (l : Line) : Option State :=
  match l.kind, table with
  | .step .., _ => if takesSteps block then some (body block (some none)) else none
  | .row, some width =>
    let cells := (Cell.split l.text l.location).length
    if width.getD cells = cells then some (body block (some (some cells))) else none
  | .fence fence _, some none => if takesSteps block then some (docString block fence) else none
  | k, _ => if k.isTrivia then some (body block table) else betweenStep (stageAfter block) false l

/-- The state once the description of a block has ended. -/
def past : Block → State
  | .feature => between .first false
  | .examples => body .examples (some none)
  | block => body block none

def pastStep : Block → Line → Option State
  | .feature => betweenStep .first false
  | .examples => bodyStep .examples (some none)
  | block => bodyStep block none

/-- The state after one more line, if the line has a place there. -/
def step : State → Line → Option State
  | opening tagged, l => openingStep tagged l
  | prose block, l => if endsDescription block l.kind then pastStep block l else some (prose block)
  | body block table, l => bodyStep block table l
  | docString block fence, l =>
    some (if isFence fence l.kind then body block none else docString block fence)
  | between stage tagged, l => betweenStep stage tagged l

def run (s : State) : List Line → Option State
  | [] => some s
  | l :: ls => (s.step l).bind (run · ls)

variable {s t : State} {l : Line} {ls as bs ts : List Line}

@[simp] theorem run_nil (s : State) : s.run [] = some s := rfl

@[simp] theorem run_cons (s : State) (l : Line) (ls : List Line) :
    s.run (l :: ls) = (s.step l).bind (run · ls) := rfl

theorem run_append (s : State) (as bs : List Line) :
    s.run (as ++ bs) = (s.run as).bind (run · bs) := by
  induction as generalizing s with
  | nil => rfl
  | cons l as ih => cases h : s.step l <;> simp [h, ih]

theorem run_append_of (h : s.run as = some t) (bs : List Line) : s.run (as ++ bs) = t.run bs := by
  rw [run_append, h, Option.bind_some]

theorem step_past (block : Block) (l : Line) : (past block).step l = pastStep block l := by
  cases block <;> rfl

/-- States in which lines without a meaning change nothing. -/
def idle : State → Bool
  | prose _ | docString .. => false
  | _ => true

theorem step_trivia (hs : s.idle) (hl : l.kind.isTrivia) : s.step l = some s := by
  cases s <;> cases hk : l.kind <;>
    simp_all [idle, step, openingStep, bodyStep, betweenStep, LineKind.isTrivia]

theorem run_trivia (hs : s.idle) (ht : Trivia ts) : s.run ts = some s := by
  induction ts with
  | nil => rfl
  | cons l ts ih =>
    obtain ⟨hl, ht⟩ := List.forall_mem_cons.1 ht
    rw [run_cons, step_trivia hs hl, Option.bind_some, ih ht]

/-- The state that tag lines lead to. -/
def collects : State → Bool
  | opening tagged => tagged
  | between _ tagged => tagged
  | _ => false

theorem idle_of_collects (h : s.collects) : s.idle := by
  cases s <;> simp_all [collects, idle]

theorem step_tags (hs : s.collects) (hl : l.kind = .tags) : s.step l = ofTags l s := by
  cases s <;> simp_all [collects, step, openingStep, betweenStep]


end State

end Document

end Gherkin
