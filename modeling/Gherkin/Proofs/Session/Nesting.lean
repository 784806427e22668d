import Mathlib.Data.List.Basic
import Gherkin.Session

/-! Guards that are closed last-in first-out. The codes of the open scopes are kept nowhere; there is
one override, and each guard holds the override that it displaced. Here is the stack that this
stands for, and the calls that keep to it: further calls may be made in a scope of their own, to any
depth, and they close the guards that they open. Proved: at every moment, inside such scopes as well,
the code in force is that of the newest open guard or else the default set last, and opening a guard,
making such calls and closing the guard leaves the override as it was. -/

namespace Gherkin.Session

/-- Calls that are made one after the other. `leave` closes the newest guard; `within` makes calls in
a scope of their own. -/
inductive Calls
  | done
  | setDefault (code : Text) (next : Calls)
  | enter (code : Text) (next : Calls)
  | leave (next : Calls)
  | within (code : Text) (body next : Calls)

/-- What a session tells about its dialect: the code in force and the default. -/
def told (s : Session) : Text × Text := (s.active, s.scope.default)

/-- What a session tells before each call and at the end of the calls, and what becomes of it. -/
def Calls.run : Calls → Session → List (Text × Text) × Session
  | done, s => ([s.told], s)
  | setDefault code next, s => (next.run (s.setDefault code)).map (s.told :: ·) id
  | enter code next, s => (next.run (s.enter code)).map (s.told :: ·) id
  | leave next, s => (next.run s.leave).map (s.told :: ·) id
  | within code body next, s =>
    let (inside, t) := s.within code body.run
    (next.run t).map (fun after => s.told :: (inside ++ after)) id

/-- The default and the codes of the open guards, the newest first. -/
structure Stack where
  default : Text := Dialect.defaultCode
  codes : List Text := []

namespace Stack

/-- The code of the newest guard, or the default where there is none. -/
def told (k : Stack) : Text × Text := (k.codes.headD k.default, k.default)

def push (k : Stack) (code : Text) : Stack := { k with codes := code :: k.codes }

def pop (k : Stack) : Stack := { k with codes := k.codes.tail }

/-- The calls on a stack. -/
def run : Calls → Stack → List (Text × Text) × Stack
  | .done, k => ([k.told], k)
  | .setDefault code next, k => (run next { k with default := code }).map (k.told :: ·) id
  | .enter code next, k => (run next (k.push code)).map (k.told :: ·) id
  | .leave next, k => (run next k.pop).map (k.told :: ·) id
  | .within code body next, k =>
    let (inside, m) := run body (k.push code)
    (run next m.pop).map (fun after => k.told :: (inside ++ after)) id

end Stack

/-- The number of guards that calls leave open where `n` were open before, if they close none but
these and their own, and leave none open in a scope of their own. -/
def Calls.opened? : Calls → Nat → Option Nat
  | done, n => some n
  | setDefault _ next, n => next.opened? n
  | enter _ next, n => next.opened? (n + 1)
  | leave _, 0 => none
  | leave next, n + 1 => next.opened? n
  | within _ body next, n => if body.opened? 0 = some 0 then next.opened? n else none

/-! ### The stack that a session stands for -/

/-- The guards of the codes `own` opened above the codes `below`, the oldest first. -/
def chain : List Text → List Text → List Scope.Guard
  | [], _ => []
  | _ :: own, below => chain own below ++ [⟨(own ++ below).head?⟩]

/-- The session stands for the stack. Of its guards those in `outer` are none of the matter of the
calls that are being made; the others are those of the codes `own`, above the codes `below`. -/
structure StandsFor (outer : List Scope.Guard) (below own : List Text) (s : Session) (k : Stack) :
    Prop where
  default : s.scope.default = k.default
  override : s.scope.override = k.codes.head?
  codes : k.codes = own ++ below
  guards : s.guards = outer ++ chain own below

theorem leave_of_concat {s : Session} {guards : List Scope.Guard} {guard : Scope.Guard}
    (h : s.guards = guards ++ [guard]) :
    s.leave = { s with scope := s.scope.leave guard, guards } := by
  have hlast : s.guards[s.guards.length - 1]? = some guard := by simp [h]
  rw [leave, leaveAt, hlast]
  simp [h, List.eraseIdx_append_of_length_le]

namespace StandsFor

variable {outer : List Scope.Guard} {below own : List Text} {s : Session} {k : Stack}

theorem told_eq (h : StandsFor outer below own s k) : s.told = k.told := by
  rw [told, Stack.told, active, Scope.active, h.override, h.default, List.headD_eq_head?_getD]

theorem setDefault (h : StandsFor outer below own s k) (code : Text) :
    StandsFor outer below own (s.setDefault code) { k with default := code } :=
  ⟨rfl, h.override, h.codes, h.guards⟩

theorem enter (h : StandsFor outer below own s k) (code : Text) :
    StandsFor outer below (code :: own) (s.enter code) (k.push code) where
  default := h.default
  override := rfl
  codes := congrArg (code :: ·) h.codes
  guards := by
    show s.guards ++ [⟨s.scope.override⟩] = outer ++ chain (code :: own) below
    rw [h.guards, h.override, h.codes, chain, List.append_assoc]

theorem leave {code : Text} (h : StandsFor outer below (code :: own) s k) :
    StandsFor outer below own s.leave k.pop := by
  have hguards : s.guards = (outer ++ chain own below) ++ [⟨(own ++ below).head?⟩] := by
    rw [h.guards, chain, List.append_assoc]
  have hcodes : k.codes.tail = own ++ below := by rw [h.codes, List.cons_append, List.tail_cons]
  rw [leave_of_concat hguards]
  exact ⟨h.default, congrArg List.head? hcodes.symm, hcodes, rfl⟩

/-- The state in which the calls of a scope of their own are made. -/
theorem inside (h : StandsFor outer below own s k) (code : Text) :
    StandsFor s.guards (code :: k.codes) [] { s with scope := (s.scope.enter code).2 }
      (k.push code) :=
  ⟨h.default, rfl, rfl, (List.append_nil _).symm⟩

/-- After such calls the guard of the scope puts back the override that it displaced. -/
theorem outside (h : StandsFor outer below own s k) {code : Text} {t : Session} {m : Stack}
    (hinside : StandsFor s.guards (code :: k.codes) [] t m) :
    StandsFor outer below own { t with scope := t.scope.leave ⟨s.scope.override⟩ } m.pop := by
  have hcodes : m.codes.tail = k.codes := by rw [hinside.codes]; rfl
  refine ⟨hinside.default, ?_, hcodes.trans h.codes, ?_⟩
  · exact h.override.trans (congrArg List.head? hcodes.symm)
  · exact (hinside.guards.trans (List.append_nil _)).trans h.guards

/-- Calls tell the same of a session as of the stack that it stands for, and keep it standing for
it. -/
theorem run {calls : Calls} {n : ℕ} (h : StandsFor outer below own s k)
    (hopened : calls.opened? own.length = some n) :
    (calls.run s).1 = (Stack.run calls k).1 ∧
      ∃ own', own'.length = n ∧ StandsFor outer below own' (calls.run s).2 (Stack.run calls k).2 := by
  induction calls generalizing outer below own s k n with
  | done => exact ⟨congrArg ([·]) h.told_eq, own, Option.some.inj hopened, h⟩
  | setDefault code next ih =>
    obtain ⟨htold, hstands⟩ := ih (h.setDefault code) hopened
    exact ⟨congrArg₂ List.cons h.told_eq htold, hstands⟩
  | enter code next ih =>
    obtain ⟨htold, hstands⟩ := ih (h.enter code) hopened
    exact ⟨congrArg₂ List.cons h.told_eq htold, hstands⟩
  | leave next ih =>
    cases own with
    | nil => cases hopened
    | cons code own =>
      obtain ⟨htold, hstands⟩ := ih h.leave hopened
      exact ⟨congrArg₂ List.cons h.told_eq htold, hstands⟩
  | within code body next ihBody ihNext =>
    rw [Calls.opened?] at hopened
    split at hopened
    · next hbody =>
      obtain ⟨hinside, own', hempty, hstands⟩ := ihBody (h.inside code) hbody
      obtain rfl := List.eq_nil_of_length_eq_zero hempty
      obtain ⟨hafter, hend⟩ := ihNext (h.outside hstands) hopened
      exact ⟨congrArg₂ List.cons h.told_eq (congrArg₂ (· ++ ·) hinside hafter), hend⟩
    · cases hopened

end StandsFor

/-- Whatever calls are made that close their guards last-in first-out, a session tells of its dialect
what the stack tells. When they close all that they open, a guard that is opened before them and
closed after them leaves the override as it was. -/
theorem told_run_eq_stack {calls : Calls} {n : ℕ} (h : calls.opened? 0 = some n) :
    (calls.run {}).1 = (Stack.run calls {}).1 ∧
      (n = 0 → ∀ (s : Session) (code : Text),
        (calls.run (s.enter code)).2.leave.scope.override = s.scope.override) := by
  constructor
  · have hstart : StandsFor [] [] [] {} {} := ⟨rfl, rfl, rfl, rfl⟩
    exact (hstart.run h).1
  · rintro rfl s code
    have hentered : StandsFor (s.guards ++ [⟨s.scope.override⟩]) [code] [] (s.enter code)
        ⟨s.scope.default, [code]⟩ := ⟨rfl, rfl, rfl, (List.append_nil _).symm⟩
    obtain ⟨-, own, hempty, hstands⟩ := hentered.run h
    obtain rfl := List.eq_nil_of_length_eq_zero hempty
    rw [leave_of_concat (hstands.guards.trans (List.append_nil _))]
    rfl

/-- A guard around a scope of its own, in which the default is set and another guard comes and
goes. -/
def nestedCalls : Calls :=
  .enter ['f', 'r'] (.within ['d', 'e'] (.setDefault ['n', 'l'] (.enter ['i', 't'] (.leave .done)))
    (.leave .done))

theorem told_run_eq_stack_nested :
    nestedCalls.opened? 0 = some 0 ∧
      (nestedCalls.run {}).1.map Prod.fst =
        [['e', 'n'], ['f', 'r'], ['d', 'e'], ['d', 'e'], ['i', 't'], ['d', 'e'], ['f', 'r'],
          ['n', 'l']] ∧
      (nestedCalls.run (Session.enter {} ['p', 't'])).2.leave.scope.override = none := by
  have hopened : nestedCalls.opened? 0 = some 0 := rfl
  obtain ⟨htold, hleave⟩ := told_run_eq_stack hopened
  exact ⟨hopened, by rw [htold]; decide, hleave rfl {} ['p', 't']⟩

end Gherkin.Session
