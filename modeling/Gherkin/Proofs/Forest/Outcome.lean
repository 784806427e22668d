import Gherkin.Proofs.Forest.Attach
import Gherkin.Forest.Plant

/-! What an attachment does, for every pair of elements in every forest. Collections and links may
be anything, also such as no sequence of attachments leads to. Proved: which of the three refusals is
given, and when none is; a refusal leaves the forest as it was; otherwise the child is the last
in the one collection for its kind, or alone in the place of its kind, and no other collection,
attribute or link is changed but that of the element whose place it took. An element that is in the
place already, without a link, takes its own place and is left without a link. -/

namespace Gherkin

/-! ### Places for children -/

/-- The collections that an element may have. -/
inductive Slot
  | files
  | directories
  | feature
  | background
  | tests
  | steps
  | examples
  | tags
  | comments
deriving DecidableEq

/-- Whether there is place for only one child. -/
def Slot.isSingle : Slot → Bool
  | feature | background => true
  | _ => false

namespace Kind

/-- The collection that a child of a kind goes into. -/
def slot : Kind → Slot
  | directory => .directories
  | featureFile => .files
  | feature => .feature
  | background => .background
  | scenario | outline => .tests
  | .example => .examples
  | step => .steps
  | tag => .tags
  | comment => .comments

/-- The kinds of children that an element of a kind may have. -/
def places : Kind → List Kind
  | directory => [featureFile, directory]
  | featureFile => [feature]
  | feature => [background, scenario, outline, tag, comment]
  | background => [step]
  | scenario => [step, tag]
  | outline => [step, .example, tag]
  | .example => [tag]
  | step | tag | comment => []

theorem accepts_iff (parent child : Kind) : parent.accepts child ↔ child ∈ parent.places := by
  cases parent <;> cases child <;> decide

end Kind

namespace Content

/-- The children in a collection. -/
def slot : Content → Slot → List Nat
  | directory _ files _, .files => files
  | directory _ _ directories, .directories => directories
  | featureFile _ held, .feature => held.toList
  | feature _ _ first _ _ _, .background => first.toList
  | feature _ _ _ tests _ _, .tests => tests
  | feature _ _ _ _ tags _, .tags => tags
  | feature _ _ _ _ _ comments, .comments => comments
  | background _ steps, .steps => steps
  | scenario _ steps _, .steps => steps
  | scenario _ _ tags, .tags => tags
  | outline _ steps _ _, .steps => steps
  | outline _ _ examples _, .examples => examples
  | outline _ _ _ tags, .tags => tags
  | .example _ _ tags, .tags => tags
  | _, _ => []

/-- The attributes, with nothing in the collections. -/
def attributes : Content → Content
  | directory path _ _ => directory path [] []
  | featureFile path _ => featureFile path none
  | feature head language _ _ _ _ => feature head language none [] [] []
  | background head _ => background head []
  | scenario head _ _ => scenario head [] []
  | outline head _ _ _ => outline head [] [] []
  | .example head rows _ => .example head rows []
  | c => c

variable (c : Content) (kind : Kind) (child : Nat)

theorem attributes_insert : (c.insert kind child).attributes = c.attributes := by
  cases c <;> cases kind <;> rfl

/-- A new child goes to the end of its collection, or into the one place of its kind. -/
theorem slot_insert (h : c.kind.accepts kind) (s : Slot) : (c.insert kind child).slot s =
    if s = kind.slot then if s.isSingle then [child] else c.slot s ++ [child] else c.slot s := by
  cases c <;> cases kind <;> cases h <;> cases s <;> rfl

/-- Only a child in the one place of its kind is displaced. -/
theorem displaced_eq_some_iff (h : c.kind.accepts kind) (old : Nat) :
    c.displaced kind = some old ↔ kind.slot.isSingle ∧ old ∈ c.slot kind.slot := by
  cases c <;> cases kind <;> cases h <;> simp [displaced, Kind.slot, Slot.isSingle, slot]

end Content

namespace Forest

variable {f g : Forest} {p c : Nat} {n m : Node}

/-- Where the link of an element leads, whether or not anything is there. -/
def link? (f : Forest) (id : Nat) : Option Nat := (f.node? id).bind (·.link)

/-- What is in a collection of an element. -/
def slot (f : Forest) (id : Nat) (s : Slot) : List Nat :=
  ((f.node? id).map (·.content.slot s)).getD []

/-- What an element has apart from collections and link. -/
def attributes? (f : Forest) (id : Nat) : Option (Content × Option Origin) :=
  (f.node? id).map fun n => (n.content.attributes, n.origin)

/-- An element that a child of a kind takes the place of, when it comes to a parent. -/
def Yields (f : Forest) (p : Nat) (kind : Kind) (old : Nat) : Prop :=
  kind.slot.isSingle ∧ old ∈ f.slot p kind.slot

instance (f : Forest) (p : Nat) (kind : Kind) (old : Nat) : Decidable (f.Yields p kind old) :=
  inferInstanceAs (Decidable (_ ∧ _))

/-- The forest `g` is `f` with `c` among the children of `p`, and nothing else is different. -/
structure Joins (f g : Forest) (p c : Nat) (kind : Kind) : Prop where
  attributes : ∀ id, g.attributes? id = f.attributes? id
  slots : ∀ id s, g.slot id s =
    if id = p ∧ s = kind.slot then if s.isSingle then [c] else f.slot id s ++ [c] else f.slot id s
  links : ∀ id, g.link? id =
    if f.Yields p kind id then none else if id = c then some p else f.link? id

/-! ### Placing -/

theorem slot_of_node? (hp : f.node? p = some n) (s : Slot) : f.slot p s = n.content.slot s := by
  simp [slot, hp]

theorem yields_iff {kind : Kind} (hp : f.node? p = some n) (hk : n.content.kind.accepts kind)
    (old : Nat) : f.Yields p kind old ↔ n.content.displaced kind = some old := by
  rw [Content.displaced_eq_some_iff _ _ hk, Yields, slot_of_node? hp]

theorem joins_place {kind : Kind} (hne : c ≠ p) (hp : f.node? p = some n)
    (hc : (f.node? c).isSome) (hk : n.content.kind.accepts kind) :
    Joins f (f.place p c kind (n.content.displaced kind)) p c kind where
  attributes id := by
    simp only [attributes?, node?_place hne]
    cases f.node? id with
    | none => rfl
    | some x => by_cases hid : id = p <;> simp [hid, Content.attributes_insert]
  slots id s := by
    simp only [slot, node?_place hne]
    by_cases hid : id = p
    · subst hid
      simp [hp, Content.slot_insert _ _ _ hk]
    · cases f.node? id <;> simp [hid]
  links id := by
    simp only [link?, node?_place hne, yields_iff hp hk]
    cases hid : f.node? id with
    | none =>
      have hidc : id ≠ c := by
        rintro rfl
        simp [hid] at hc
      simp [hidc]
    | some x => rfl

theorem store_setLink (hne : c ≠ p) (hp : f.node? p = some n) (kind : Kind) :
    (f.setLink c (some p)).store p c kind = f.place p c kind (n.content.displaced kind) := by
  have hnode : (f.setLink c (some p)).node? p = some n := by
    rw [setLink, node?_modify, if_neg hne.symm, hp]
  rw [store, hnode, Option.bind_some]
  rfl

/-- Changing the forest step by step comes to the same as changing it at once, and a refusal comes
before any change. -/
theorem attachInPlace_eq (f : Forest) (p c : Nat) :
    f.attachInPlace p c = match f.attach p c with
      | .ok g => (.ok (), g)
      | .error e => (.error e, f) := by
  unfold attachInPlace attach
  split
  · next n m hp hc =>
    by_cases hk : n.content.kind.accepts m.content.kind
    · by_cases hfree : (f.parent? c).isSome
      · simp [hk, hfree]
      · by_cases hcycle : c = p ∨ c ∈ f.ancestors p
        · simp [hk, hfree, hcycle]
        · have hne : c ≠ p := fun e => hcycle (.inl e)
          simp [hk, hfree, hcycle, tie, store_setLink hne hp]
    · simp [hk]
  · rfl

/-! ### Outcomes -/

theorem attach_eq (hp : f.node? p = some n) (hc : f.node? c = some m) : f.attach p c =
    if m.content.kind ∉ n.content.kind.places then
      .error (.invalidChild n.content.kind m.content.kind)
    else if (f.parent? c).isSome then .error (.alreadyAttached m.content.kind)
    else if c = p ∨ c ∈ f.ancestors p then .error (.cycle m.content.kind)
    else .ok (f.place p c m.content.kind (n.content.displaced m.content.kind)) := by
  simp only [attach, hp, hc, Kind.accepts_iff]

/-- An attachment is refused for the kinds, else for a parent that the child has, else for a circle
that links lead round, and else it is done. When it is refused the forest stays as it was. When it is
done the child is in the parent's collection and linked to the parent, unless it was in the one place
for its kind already. -/
theorem attach_outcome (hp : f.node? p = some n) (hc : f.node? c = some m) :
    let kind := m.content.kind
    let r := (f.attachInPlace p c).1
    let g := (f.attachInPlace p c).2
    f.attach p c = r.map (fun _ => g) ∧
    (r = .error (.invalidChild n.content.kind kind) ↔ kind ∉ n.content.kind.places) ∧
    (r = .error (.alreadyAttached kind) ↔
      kind ∈ n.content.kind.places ∧ (f.parent? c).isSome) ∧
    (r = .error (.cycle kind) ↔ kind ∈ n.content.kind.places ∧ f.parent? c = none ∧
      (c = p ∨ c ∈ f.ancestors p)) ∧
    (r = .ok () ↔ kind ∈ n.content.kind.places ∧ f.parent? c = none ∧
      ¬(c = p ∨ c ∈ f.ancestors p)) ∧
    (r ≠ .ok () → g = f) ∧
    (r = .ok () → Joins f g p c kind ∧ (g.parent? c = some p ↔ ¬f.Yields p kind c)) := by
  intro kind r g
  have hinplace := attachInPlace_eq f p c
  rw [attach_eq hp hc] at hinplace ⊢
  by_cases hk : kind ∈ n.content.kind.places
  · by_cases hfree : f.parent? c = none
    · by_cases hcycle : c = p ∨ c ∈ f.ancestors p
      · simp [r, g, kind, hinplace, hk, hfree, hcycle, Except.map]
      · have hne : c ≠ p := fun e => hcycle (.inl e)
        have hjoins := joins_place hne hp (by simp [hc]) ((Kind.accepts_iff _ _).2 hk)
        have hparent : (f.place p c kind (n.content.displaced kind)).parent? c = some p ↔
            ¬f.Yields p kind c := by
          rw [yields_iff hp ((Kind.accepts_iff _ _).2 hk),
            parent?_place hne (by simp [hp]) (by simp [hc])]
          simp
        simp [r, g, kind, hinplace, hk, hfree, hcycle, Except.map, hjoins, hparent]
    · have hsome : (f.parent? c).isSome := Option.isSome_iff_ne_none.2 hfree
      simp [r, g, kind, hinplace, hk, hfree, hsome, Except.map]
  · simp [r, g, kind, hinplace, hk, Except.map]

/-- A feature takes the place of another one in a file. -/
theorem attach_outcome_displaced :
    let f : Forest := ⟨[some ⟨.featureFile [] (some 1), none, none⟩,
      some ⟨.feature {} [] none [] [] [], some 0, none⟩,
      some ⟨.feature {} [] none [] [] [], none, none⟩]⟩
    (f.node? 0).isSome ∧ (f.node? 2).isSome ∧ (f.attachInPlace 0 2).1 = .ok () ∧
      Joins f (f.attachInPlace 0 2).2 0 2 .feature ∧
      (f.attachInPlace 0 2).2.parent? 2 = some 0 ∧ (f.attachInPlace 0 2).2.link? 1 = none := by
  intro f
  obtain ⟨-, -, -, -, hdone, -, hjoins⟩ := attach_outcome (f := f) (p := 0) (c := 2) rfl rfl
  have hok := hdone.2 (by decide)
  obtain ⟨hjoins, hparent⟩ := hjoins hok
  exact ⟨rfl, rfl, hok, hjoins, hparent.2 (by decide), by rw [hjoins.links]; decide⟩

/-- A feature that was put into a file by hand takes its own place when it is attached to the file,
and is then in the file without a parent. -/
theorem attach_leaves_unlinked :
    let f := (Forest.plant false {} (.featureFile ⟨[], some {}⟩)).2
    ∃ g, f.attach 0 1 = .ok g ∧ 1 ∈ g.children 0 ∧ g.parent? 1 = none := by
  intro f
  exact ⟨_, rfl, List.mem_singleton_self 1, rfl⟩

end Forest

end Gherkin
