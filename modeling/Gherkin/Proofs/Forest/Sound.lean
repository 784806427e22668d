import Mathlib.Data.List.Nodup
import Mathlib.Logic.Relation
import Gherkin.Forest.Attach

/-! Forests in which collections and links agree. `Sound` is the invariant that every operation keeps:
a child in a collection is linked to its owner, an element that has a parent stands exactly once in
the parent's collections, containment has no circle, and no link leads to a number that is still to
be given away. `Coherent` is what a reader of the forest sees of it, with all slots of all
collections laid out in one list. Proved: sound forests are coherent, and moving one free element
under another keeps a forest sound. -/

namespace Gherkin.Forest

open Relation

/-! ### Reading elements -/

/-- Whether `p` has `c` in one of its collections. -/
def Holds (f : Forest) (p c : Nat) : Prop := c ∈ f.children p

/-- The slots of all collections in order, each with the number of the child in it. -/
def slots (f : Forest) : List Nat := f.nodes.flatMap fun n => (n.map (·.content.children)).getD []

variable {f g : Forest} {p q c id : Nat}

theorem node?_modify (f : Forest) (i j : Nat) (change : Node → Node) :
    (f.modify i change).node? j = if j = i then (f.node? j).map change else f.node? j := by
  simp only [node?, modify, List.getElem?_modify, eq_comm (a := i)]
  split_ifs with h
  · cases f.nodes[j]? <;> simp
  · cases f.nodes[j]? <;> simp

theorem length_modify (f : Forest) (i : Nat) (change : Node → Node) :
    (f.modify i change).nodes.length = f.nodes.length := by
  simp [modify]

theorem lt_of_node? {n : Node} (h : f.node? id = some n) : id < f.nodes.length := by
  by_contra hlt
  simp [node?, List.getElem?_eq_none (Nat.le_of_not_lt hlt)] at h

theorem parent?_eq_some_iff :
    f.parent? c = some p ↔ (∃ n, f.node? c = some n ∧ n.link = some p) ∧ (f.node? p).isSome := by
  simp [parent?, Option.bind_eq_some_iff]

theorem mem_children_iff :
    c ∈ f.children p ↔ ∃ n, f.node? p = some n ∧ c ∈ n.content.children := by
  cases h : f.node? p <;> simp [children, h]

theorem children_of_node? {n : Node} (h : f.node? p = some n) :
    f.children p = n.content.children := by
  simp [children, h]

theorem slots_eq : f.slots = (List.range f.nodes.length).flatMap f.children := by
  have hmap : f.nodes.map (fun n => (n.map (·.content.children)).getD []) =
      (List.range f.nodes.length).map f.children := by
    apply List.ext_getElem
    · simp
    · intro i h₁ h₂
      simp at h₁
      simp [children, node?, List.getElem?_eq_getElem h₁]
  rw [slots, List.flatMap_def, hmap, ← List.flatMap_def]

/-! ### The invariant -/

/-- Collections and links agree. -/
structure Sound (f : Forest) : Prop where
  linked : ∀ {p c}, c ∈ f.children p → f.parent? c = some p
  once : ∀ {p c}, f.parent? c = some p → (f.children p).count c = 1
  acyclic : ∀ id, ¬ TransGen f.Holds id id
  bounded : ∀ {id n p}, f.node? id = some n → n.link = some p → p < f.nodes.length

/-- What holds of the elements of a forest at any time: every child of an element is linked to it,
an element with a parent stands exactly once in the parent's collections, no element is in two
slots, and no element contains itself, at whatever depth. -/
structure Coherent (f : Forest) : Prop where
  linked : ∀ p c, c ∈ f.children p → f.parent? c = some p
  once : ∀ p c, f.parent? c = some p → (f.children p).count c = 1
  single : f.slots.Nodup
  acyclic : ∀ id, ¬ TransGen f.Holds id id

/-- A child that is linked to a live parent in `f`, and that the parent has in `g`, is linked to that
parent in `g`. -/
def Steady (f g : Forest) : Prop :=
  ∀ p c, f.parent? c = some p → c ∈ g.children p → g.parent? c = some p

namespace Sound

theorem nodup_children (h : f.Sound) (p : Nat) : (f.children p).Nodup := by
  rw [List.nodup_iff_count_le_one]
  intro c
  by_cases hc : c ∈ f.children p
  · exact Nat.le_of_eq (h.once (h.linked hc))
  · simp [List.count_eq_zero_of_not_mem hc]

theorem nodup_slots (h : f.Sound) : f.slots.Nodup := by
  rw [slots_eq, List.nodup_flatMap]
  refine ⟨fun p _ => h.nodup_children p, ?_⟩
  refine List.Pairwise.imp_of_mem ?_ List.nodup_range
  intro p q _ _ hne c hp hq
  exact hne (Option.some.inj ((h.linked hp).symm.trans (h.linked hq)))

theorem coherent (h : f.Sound) : f.Coherent where
  linked _ _ := h.linked
  once _ _ := h.once
  single := h.nodup_slots
  acyclic := h.acyclic

theorem not_mem_children (h : f.Sound) (hc : f.parent? c = none) : c ∉ f.children p := by
  intro hm
  rw [h.linked hm] at hc
  cases hc

/-- The invariant only looks at collections and links. -/
theorem congr (h : f.Sound) (hc : ∀ j, g.children j = f.children j)
    (hp : ∀ j, g.parent? j = f.parent? j)
    (hb : ∀ {id n q}, g.node? id = some n → n.link = some q → q < g.nodes.length) : g.Sound where
  linked {p c} hm := by
    rw [hp]
    exact h.linked (hc p ▸ hm)
  once {p c} hm := by
    rw [hc]
    exact h.once (hp c ▸ hm)
  acyclic id hid := by
    refine h.acyclic id (TransGen.mono ?_ _ _ hid)
    intro a b hab
    simpa [Holds, hc] using hab
  bounded := hb

theorem empty : Sound {} where
  linked h := by simp [children, node?] at h
  once h := by simp [parent?, node?] at h
  acyclic id h := by
    obtain ⟨c, hc, -⟩ := TransGen.head'_iff.1 h
    simp [Holds, children, node?] at hc
  bounded h := by simp [node?] at h

end Sound

/-! ### Grafting -/

/-- One new edge from `p` to `c` makes a circle only if `c` led to `p` before. -/
theorem transGen_of_one_more {R S : Nat → Nat → Prop}
    (hS : ∀ a b, S a b → R a b ∨ (a = p ∧ b = c)) {a b : Nat} (h : TransGen S a b) :
    TransGen R a b ∨ (ReflTransGen R a p ∧ ReflTransGen R c b) := by
  induction h with
  | single hab =>
    rcases hS _ _ hab with hR | ⟨rfl, rfl⟩
    · exact .inl (.single hR)
    · exact .inr ⟨.refl, .refl⟩
  | tail _ hbc ih =>
    rcases hS _ _ hbc with hR | ⟨rfl, rfl⟩
    · rcases ih with ih | ⟨h₁, h₂⟩
      · exact .inl (ih.tail hR)
      · exact .inr ⟨h₁, h₂.tail hR⟩
    · rcases ih with ih | ⟨h₁, -⟩
      · exact .inr ⟨ih.to_reflTransGen, .refl⟩
      · exact .inr ⟨h₁, .refl⟩

/-- The forest `g` is `f` with the free element `c` put among the children of `p`, from where `out`
has gone, if it was there; `rest` are the children of `p` that stay. -/
structure Graft (f g : Forest) (p c : Nat) (out : Option Nat) (rest : List Nat) : Prop where
  before : (f.children p).Perm (out.toList ++ rest)
  after : (g.children p).Perm (c :: rest)
  children : ∀ j, j ≠ p → g.children j = f.children j
  parent : ∀ j, g.parent? j =
    if out = some j then none else if j = c then some p else f.parent? j
  bounded : ∀ {id n q}, g.node? id = some n → n.link = some q → q < g.nodes.length

theorem Sound.graft {out : Option Nat} {rest : List Nat} (h : f.Sound)
    (hg : Graft f g p c out rest) (hfree : f.parent? c = none)
    (hup : ¬ ReflTransGen f.Holds c p) : g.Sound := by
  have hc : ∀ {q}, c ∉ f.children q := h.not_mem_children hfree
  have hout : ∀ {x}, out = some x → x ∈ f.children p ∧ x ∉ rest := by
    rintro x rfl
    have hnd := hg.before.nodup_iff.1 (h.nodup_children p)
    exact ⟨hg.before.mem_iff.2 (by simp), by simpa using (List.nodup_cons.1 hnd).1⟩
  have hrest : ∀ {x}, x ∈ rest → x ∈ f.children p := fun hx => hg.before.mem_iff.2 (by simp [hx])
  refine ⟨?_, ?_, ?_, hg.bounded⟩
  · -- a child of `p` is `c` or one that stayed, and neither has gone
    intro q x hx
    rw [hg.parent]
    by_cases hq : q = p
    · subst hq
      rcases List.mem_cons.1 (hg.after.mem_iff.1 hx) with rfl | hx
      · rw [if_neg fun ho => hc (hout ho).1, if_pos rfl]
      · rw [if_neg fun ho => (hout ho).2 hx, if_neg (by rintro rfl; exact hc (hrest hx)),
          h.linked (hrest hx)]
    · rw [hg.children q hq] at hx
      have hx' := h.linked hx
      rw [if_neg, if_neg (by rintro rfl; exact hc hx), hx']
      intro ho
      rw [h.linked (hout ho).1] at hx'
      exact hq (Option.some.inj hx').symm
  · intro q x hx
    rw [hg.parent] at hx
    split_ifs at hx with ho hxc
    · obtain rfl := Option.some.inj hx
      subst hxc
      rw [hg.after.count_eq, List.count_cons_self,
        List.count_eq_zero_of_not_mem fun hm => hc (hrest hm)]
    · have hone := h.once hx
      by_cases hq : q = p
      · subst hq
        have hx0 : out.toList.count x = 0 := by
          rw [List.count_eq_zero]
          intro hm
          exact ho (by simpa using hm)
        rw [hg.before.count_eq, List.count_append, hx0, Nat.zero_add] at hone
        rw [hg.after.count_eq, List.count_cons_of_ne (Ne.symm hxc), hone]
      · rw [hg.children q hq, hone]
  · intro x hx
    have hstep : ∀ a b, g.Holds a b → f.Holds a b ∨ (a = p ∧ b = c) := by
      intro a b hab
      unfold Holds at hab ⊢
      by_cases ha : a = p
      · subst ha
        rcases List.mem_cons.1 (hg.after.mem_iff.1 hab) with rfl | hm
        · exact .inr ⟨rfl, rfl⟩
        · exact .inl (hrest hm)
      · rw [hg.children a ha] at hab
        exact .inl hab
    rcases transGen_of_one_more hstep hx with hx | ⟨h₁, h₂⟩
    · exact h.acyclic x hx
    · exact hup (h₂.trans h₁)

end Gherkin.Forest
