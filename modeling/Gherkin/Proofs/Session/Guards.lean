import Mathlib.Data.List.Perm.Basic
import Gherkin.Session

/-! Guards that are closed in any order. Every guard puts back the override that it displaced, so
the override and what the open guards displaced together are what can still come back into force. A
session starts with the absent override as the only entry. Opening a scope adds an entry and closing
a guard drops the override of that moment; nothing else changes them. So the absent override is
there for good, or it was dropped by a guard that was closed while nothing was overridden. Proved:
once every guard is closed, nothing is overridden just when no guard was closed in that way, and the
default set last is in force; otherwise the code of a guard that is long closed stays in force. -/

namespace Gherkin.Session

/-- What can be done to the dialect. A guard is closed at its position among the open ones, the
oldest first; where there is none nothing happens. -/
inductive Move
  | setDefault (code : Text)
  | enter (code : Text)
  | leaveAt (position : Nat)
deriving DecidableEq

/-- The default that a move sets. -/
def Move.default? : Move → Option Text
  | setDefault code => some code
  | _ => none

/-- The default that was set last. -/
def lastDefault (moves : List Move) : Text :=
  (moves.filterMap Move.default?).getLast?.getD Dialect.defaultCode

/-- The session after a move. -/
def move (s : Session) : Move → Session
  | .setDefault code => s.setDefault code
  | .enter code => s.enter code
  | .leaveAt position => s.leaveAt position

/-- The session after a sequence of moves. -/
def moveAll (s : Session) (moves : List Move) : Session := moves.foldl move s

/-- A move that closes no guard while nothing is overridden. -/
def Keeps (s : Session) : Move → Prop
  | .leaveAt position => s.guards[position]? = none ∨ s.scope.override ≠ none
  | _ => True

/-- No guard is closed while nothing is overridden. -/
def KeepsAll (s : Session) : List Move → Prop
  | [] => True
  | m :: moves => s.Keeps m ∧ (s.move m).KeepsAll moves

instance (s : Session) (m : Move) : Decidable (s.Keeps m) := by
  cases m <;> unfold Keeps <;> infer_instance

instance decidableKeepsAll (s : Session) (moves : List Move) : Decidable (s.KeepsAll moves) :=
  match moves with
  | [] => isTrue trivial
  | m :: moves =>
    have := decidableKeepsAll (s.move m) moves
    inferInstanceAs (Decidable (s.Keeps m ∧ (s.move m).KeepsAll moves))

/-- The override and what the open guards displaced. -/
def held (s : Session) : List (Option Text) := s.scope.override :: s.guards.map (·.displaced)

variable {s : Session}

/-! ### One move -/

theorem held_enter (s : Session) (code : Text) : (s.enter code).held.Perm (some code :: s.held) := by
  have hlast : (s.enter code).held =
      some code :: (s.guards.map (·.displaced) ++ [s.scope.override]) := by
    simp [held, enter, Scope.enter]
  rw [hlast]
  exact (List.perm_append_singleton _ _).cons _

/-- Closing a guard drops the override. -/
theorem held_leaveAt {position : Nat} (h : s.guards[position]? ≠ none) :
    s.held.Perm (s.scope.override :: (s.leaveAt position).held) := by
  obtain ⟨guard, hguard⟩ := Option.ne_none_iff_exists'.1 h
  obtain ⟨hlt, hget⟩ := List.getElem?_eq_some_iff.1 hguard
  have hheld : (s.leaveAt position).held =
      (guard :: s.guards.eraseIdx position).map (·.displaced) := by
    simp [held, leaveAt, hguard, Scope.leave]
  rw [hheld, held, ← hget]
  exact ((List.getElem_cons_eraseIdx_perm hlt).symm.map _).cons _

theorem leaveAt_of_none {position : Nat} (h : s.guards[position]? = none) :
    s.leaveAt position = s := by
  rw [leaveAt, h]

theorem count_none_of_keeps {m : Move} (h : s.Keeps m) :
    (s.move m).held.count none = s.held.count none := by
  cases m with
  | setDefault code => rfl
  | enter code =>
    rw [move, (held_enter s code).count_eq, List.count_cons_of_ne (by simp)]
  | leaveAt position =>
    by_cases hnone : s.guards[position]? = none
    · rw [move, leaveAt_of_none hnone]
    · rw [(held_leaveAt hnone).count_eq, List.count_cons_of_ne (h.resolve_left hnone)]
      rfl

theorem count_none_of_not_keeps {m : Move} (h : ¬s.Keeps m) :
    (s.move m).held.count none + 1 = s.held.count none := by
  cases m with
  | setDefault code => exact absurd trivial h
  | enter code => exact absurd trivial h
  | leaveAt position =>
    obtain ⟨hsome, hnone⟩ := not_or.1 h
    rw [(held_leaveAt hsome).count_eq, not_not.1 hnone, List.count_cons_self]
    rfl

theorem mem_held_move {m : Move} {code : Text} (h : some code ∈ (s.move m).held) :
    m = .enter code ∨ some code ∈ s.held := by
  cases m with
  | setDefault _ => exact .inr h
  | enter other =>
    rcases List.mem_cons.1 ((held_enter s other).mem_iff.1 h) with heq | h
    · exact .inl (by rw [Option.some.inj heq])
    · exact .inr h
  | leaveAt position =>
    by_cases hnone : s.guards[position]? = none
    · rw [move, leaveAt_of_none hnone] at h
      exact .inr h
    · exact .inr ((held_leaveAt hnone).mem_iff.2 (List.mem_cons_of_mem _ h))

theorem default_move (s : Session) (m : Move) :
    (s.move m).scope.default = m.default?.getD s.scope.default := by
  cases m with
  | setDefault code => rfl
  | enter code => rfl
  | leaveAt position =>
    rw [move, leaveAt]
    cases s.guards[position]? <;> rfl

/-! ### Every sequence of moves -/

theorem count_none_moveAll (moves : List Move) (h : s.held.count none ≤ 1) :
    (s.moveAll moves).held.count none = if s.KeepsAll moves then s.held.count none else 0 := by
  induction moves generalizing s with
  | nil => rw [if_pos (show s.KeepsAll [] from trivial)]; rfl
  | cons m moves ih =>
    have hcons : s.KeepsAll (m :: moves) ↔ s.Keeps m ∧ (s.move m).KeepsAll moves := Iff.rfl
    by_cases hm : s.Keeps m
    · have hcount := count_none_of_keeps hm
      rw [moveAll, List.foldl_cons, ← moveAll, ih (hcount ▸ h), hcount]
      simp only [hcons, hm, true_and]
    · -- the one absent override is gone, and no move brings another
      have hcount := count_none_of_not_keeps hm
      have hzero : (s.move m).held.count none = 0 := by omega
      rw [moveAll, List.foldl_cons, ← moveAll, ih (by omega), hzero, ite_self,
        if_neg fun hall => hm (hcons.1 hall).1]

theorem mem_held_moveAll {moves : List Move} {code : Text}
    (h : some code ∈ (s.moveAll moves).held) : .enter code ∈ moves ∨ some code ∈ s.held := by
  induction moves generalizing s with
  | nil => exact .inr h
  | cons m moves ih =>
    rcases ih h with h | h
    · exact .inl (List.mem_cons_of_mem _ h)
    · refine (mem_held_move h).imp_left fun heq => ?_
      rw [heq]
      exact List.mem_cons_self

theorem default_moveAll (moves : List Move) :
    (s.moveAll moves).scope.default =
      (moves.filterMap Move.default?).getLast?.getD s.scope.default := by
  induction moves generalizing s with
  | nil => rfl
  | cons m moves ih =>
    rw [moveAll, List.foldl_cons, ← moveAll, ih, default_move]
    cases hm : m.default? with
    | none => rw [List.filterMap_cons_none hm, Option.getD_none]
    | some code =>
      rw [List.filterMap_cons_some hm, List.getLast?_cons, Option.getD_some, Option.getD_some]

/-- When every guard is closed, nothing is overridden just when no guard was closed while nothing
was overridden, and then the default set last is in force. Otherwise a code that a guard was opened
with stays in force. -/
theorem active_of_all_closed (moves : List Move) (h : (moveAll {} moves).guards = []) :
    ((moveAll {} moves).scope.override = none ↔ KeepsAll {} moves) ∧
      (KeepsAll {} moves → (moveAll {} moves).active = lastDefault moves) ∧
      (¬KeepsAll {} moves → ∃ code, .enter code ∈ moves ∧
        (moveAll {} moves).scope.override = some code ∧ (moveAll {} moves).active = code) := by
  have hheld : (moveAll {} moves).held = [(moveAll {} moves).scope.override] := by
    rw [held, h, List.map_nil]
  have hcount := count_none_moveAll (s := {}) moves (by decide)
  rw [hheld] at hcount
  have hnone : (moveAll {} moves).scope.override = none ↔ KeepsAll {} moves := by
    constructor
    · intro hnone
      by_contra hlost
      rw [if_neg hlost, hnone] at hcount
      simp at hcount
    · intro hkeeps
      rw [if_pos hkeeps] at hcount
      have hmem : none ∈ [(moveAll {} moves).scope.override] :=
        List.count_pos_iff.1 (by rw [hcount]; decide)
      exact (List.mem_singleton.1 hmem).symm
  refine ⟨hnone, fun hkeeps => ?_, fun hlost => ?_⟩
  · rw [active, Scope.active, hnone.2 hkeeps, default_moveAll]
    rfl
  · obtain ⟨code, hoverride⟩ := Option.ne_none_iff_exists'.1 (mt hnone.1 hlost)
    have hmem : some code ∈ (moveAll {} moves).held := by simp [hheld, hoverride]
    have hnot : some code ∉ held {} := by simp [held]
    refine ⟨code, (mem_held_moveAll hmem).resolve_right hnot, hoverride, ?_⟩
    rw [active, Scope.active, hoverride, Option.getD_some]

/-- Guards that cross each other twice, with a default set in between. -/
def crossing : List Move :=
  [.enter ['f', 'r'], .enter ['d', 'e'], .leaveAt 0, .setDefault ['n', 'l'], .enter ['i', 't'],
    .leaveAt 0, .leaveAt 0]

theorem active_of_all_closed_crossing :
    (moveAll {} crossing).guards = [] ∧ KeepsAll {} crossing ∧
      (moveAll {} crossing).active = ['n', 'l'] :=
  ⟨rfl, by decide, (active_of_all_closed crossing rfl).2.1 (by decide)⟩

/-- Two guards closed in the order in which they were opened leave the code of the first in force. -/
theorem first_code_stays :
    ¬∀ moves : List Move, (moveAll {} moves).guards = [] →
      (moveAll {} moves).active = lastDefault moves := by
  intro h
  have hsame := h [.enter ['f', 'r'], .enter ['d', 'e'], .leaveAt 0, .leaveAt 0] rfl
  exact absurd hsame (by decide)

end Gherkin.Session
