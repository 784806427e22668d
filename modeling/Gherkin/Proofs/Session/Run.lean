import Gherkin.Proofs.Forest.Plant
import Gherkin.Proofs.Forest.Release
import Gherkin.Session

/-! Runs of a session: elements are built bare or read from texts, changed, attached to one another,
taken by further names and dropped, in any order. What is refused changes nothing. Proved: in every
state that a run reaches, collections and links agree and nothing contains itself, so no link to
a live parent is ever turned elsewhere while the parent still has the child. -/

namespace Gherkin

/-- An element of a kind with nothing set and no children. -/
def Kind.bare : Kind → Element
  | directory => .directory (.mk [] [] [])
  | featureFile => .featureFile {}
  | feature => .feature {}
  | background => .background {}
  | scenario => .scenario {}
  | outline => .outline {}
  | .example => .example {}
  | step => .step {}
  | tag => .tag {}
  | comment => .comment {}

namespace Session

/-- What can be done in a session. `take` gives a further name to an element that is there, wherever
it was come upon. -/
inductive Action
  | build (name : Text) (kind : Kind)
  | read (name : Text) (kind : Kind) (code path source : Text)
  | change (name : Text) (values : Change)
  | attach (parent child : Text)
  | take (name : Text) (id : Nat)
  | drop (name : Text)

/-- The session after an action. A text that cannot be read, an attachment that is refused, and a
name that is not bound leave it as it is. -/
def act (s : Session) : Action → Session
  | .build name kind => s.plant name false kind.bare
  | .read name kind code path source =>
    match Element.parse? kind code path source with
    | some (.ok e) => s.plant name true e
    | _ => s
  | .change name values =>
    match s.find? name with
    | some id => Session.change s id values
    | none => s
  | .attach parent child =>
    match s.find? parent, s.find? child with
    | some p, some c =>
      match Session.attach s p c with
      | .ok t => t
      | .error _ => s
    | _, _ => s
  | .take name id => if (s.forest.node? id).isSome then s.bind name id else s
  | .drop name => Session.drop s name

/-- The session after a sequence of actions. -/
def run (actions : List Action) : Session := actions.foldl act {}

/-! ### One action -/

theorem children_content (a : Change) (c : Content) : (a.content c).children = c.children := by
  cases c <;> rfl

/-- Changing attributes touches neither collections nor links. -/
theorem sound_change {f : Forest} (h : f.Sound) (id : Nat) (a : Change) :
    (f.change id a).Sound := by
  have hnode : ∀ j, (f.change id a).node? j = (f.node? j).map fun n =>
      { n with content := if j = id then a.content n.content else n.content } := by
    intro j
    rw [Forest.change, Forest.node?_modify]
    cases f.node? j <;> split_ifs <;> rfl
  refine h.congr ?_ ?_ ?_
  · intro j
    simp only [Forest.children, hnode]
    cases f.node? j with
    | none => rfl
    | some n => simp only [Option.map_some, Option.getD_some]; split_ifs <;> simp [children_content]
  · intro j
    simp only [Forest.parent?, hnode]
    cases f.node? j <;> simp
  · intro j n q hn hq
    rw [hnode] at hn
    obtain ⟨m, hm, rfl⟩ := Option.map_eq_some_iff.1 hn
    rw [Forest.change, Forest.length_modify]
    exact h.bounded hm hq

theorem plant_bare (linked : Bool) (f : Forest) (k : Kind) :
    f.plant linked k.bare = f.plant true k.bare := by
  cases k <;> rfl

theorem sound_act {s : Session} (h : s.forest.Sound) (a : Action) : (s.act a).forest.Sound := by
  cases a with
  | build name kind =>
    simp only [act, Session.plant, plant_bare]
    exact (h.plant kind.bare).release _
  | read name kind code path source =>
    simp only [act]
    split
    · next e _ => exact (h.plant e).release _
    · exact h
  | change name values =>
    simp only [act]
    split
    · exact sound_change h _ values
    · exact h
  | attach parent child =>
    simp only [act]
    split
    · next p c _ _ =>
      split
      · next t ht =>
        rw [Session.attach] at ht
        cases hg : s.forest.attach p c with
        | error e => simp [hg, Except.map] at ht
        | ok g =>
          rw [hg] at ht
          obtain rfl := Except.ok.inj ht
          exact (h.attach hg).release _
      · exact h
    · exact h
  | take name id =>
    simp only [act]
    split_ifs
    · exact h.release _
    · exact h
  | drop name => exact h.release _

/-! ### Every run -/

theorem sound_foldl (actions : List Action) {s : Session} (h : s.forest.Sound) :
    (actions.foldl act s).forest.Sound := by
  induction actions generalizing s with
  | nil => exact h
  | cons a actions ih => exact ih (sound_act h a)

theorem sound_run (actions : List Action) : (run actions).forest.Sound :=
  sound_foldl actions Forest.Sound.empty

/-- After every run, collections and links agree, no element is in two slots and none contains
itself; and whatever is done next, a link to a live parent is not turned elsewhere while the
parent has the child. -/
theorem coherent_run (actions : List Action) :
    (run actions).forest.Coherent ∧
      ∀ more, (run actions).forest.Steady (run (actions ++ more)).forest :=
  ⟨(sound_run actions).coherent, fun more _ _ _ hc => (sound_run (actions ++ more)).linked hc⟩

end Session

end Gherkin
