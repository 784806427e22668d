import Gherkin.Proofs.Forest.Climb

/-! Attaching one element to another keeps a forest sound. The change of the parent's collections is
said once, for every pair of kinds: the displaced child, if any, goes out and the new child
comes in. -/

namespace Gherkin

variable {f g : Forest} {p c : Nat}

namespace Content

/-- Adding a child puts it among the children, in the place of the displaced one if there is one. -/
theorem children_insert (content : Content) (kind : Kind) (child : Nat)
    (h : content.kind.accepts kind) :
    ∃ rest, content.children.Perm ((content.displaced kind).toList ++ rest) ∧
      (content.insert kind child).children.Perm (child :: rest) := by
  cases content <;> cases kind <;> cases h
  all_goals
    simp only [children, displaced, insert, Option.toList_none, Option.toList_some,
      List.nil_append, List.append_assoc, List.cons_append]
  case featureFile.feature => exact ⟨[], by simp, List.Perm.refl _⟩
  case feature.background => exact ⟨_, List.Perm.refl _, List.Perm.refl _⟩
  all_goals exact ⟨_, List.Perm.refl _, by grind⟩

end Content

namespace Forest

theorem node?_place (hne : c ≠ p) (kind : Kind) (out : Option Nat) (j : Nat) :
    (f.place p c kind out).node? j = (f.node? j).map fun n =>
      { n with
        content := if j = p then n.content.insert kind c else n.content
        link := if out = some j then none else if j = c then some p else n.link } := by
  cases hn : f.node? j with
  | none => cases out <;> simp [place, insert, setLink, node?_modify, hn]
  | some n =>
    cases out with
    | none =>
      simp only [place, insert, setLink, node?_modify, hn]
      split_ifs <;> simp_all
    | some old =>
      simp only [place, insert, setLink, node?_modify, hn, Option.some.injEq, eq_comm (a := old)]
      split_ifs <;> simp_all

theorem length_place (kind : Kind) (out : Option Nat) :
    (f.place p c kind out).nodes.length = f.nodes.length := by
  cases out <;> simp [place, insert, setLink, length_modify]

theorem parent?_place {kind : Kind} {out : Option Nat} (hne : c ≠ p) (hp : (f.node? p).isSome)
    (hc : (f.node? c).isSome) (j : Nat) :
    (f.place p c kind out).parent? j =
      if out = some j then none else if j = c then some p else f.parent? j := by
  simp only [parent?, node?_place hne]
  obtain ⟨m, hm⟩ := Option.isSome_iff_exists.1 hc
  cases hj : f.node? j with
  | none =>
    have hjc : j ≠ c := by
      rintro rfl
      rw [hm] at hj
      cases hj
    simp [hjc]
  | some n => split_ifs <;> simp [*]

theorem children_place {kind : Kind} {out : Option Nat} (hne : c ≠ p) {j : Nat} (hj : j ≠ p) :
    (f.place p c kind out).children j = f.children j := by
  cases hn : f.node? j <;> simp [children, node?_place hne, hn, hj]

theorem children_place_self {kind : Kind} {out : Option Nat} {n : Node} (hne : c ≠ p)
    (hp : f.node? p = some n) :
    (f.place p c kind out).children p = (n.content.insert kind c).children := by
  simp [children, node?_place hne, hp]

theorem Sound.bounded_place (h : f.Sound) {n : Node} {kind : Kind} {out : Option Nat}
    (hne : c ≠ p) (hp : f.node? p = some n) {j q : Nat} {m : Node}
    (hm : (f.place p c kind out).node? j = some m) (hq : m.link = some q) :
    q < (f.place p c kind out).nodes.length := by
  rw [node?_place hne] at hm
  obtain ⟨m, hj, rfl⟩ := Option.map_eq_some_iff.1 hm
  rw [length_place]
  simp only at hq
  split_ifs at hq
  · obtain rfl := Option.some.inj hq
    exact lt_of_node? hp
  · exact h.bounded hj hq

/-- Putting a free element into a collection of one that it does not hold keeps the forest sound,
when the child that it displaces is unlinked. -/
theorem Sound.place (h : f.Sound) {n : Node} {kind : Kind} (hp : f.node? p = some n)
    (hc : (f.node? c).isSome) (hk : n.content.kind.accepts kind) (hfree : f.parent? c = none)
    (hup : ¬ Relation.ReflTransGen f.Holds c p) :
    (f.place p c kind (n.content.displaced kind)).Sound := by
  have hne : c ≠ p := by
    rintro rfl
    exact hup .refl
  obtain ⟨rest, hbefore, hafter⟩ := n.content.children_insert kind c hk
  have hgraft : Graft f (f.place p c kind (n.content.displaced kind)) p c
      (n.content.displaced kind) rest := by
    refine ⟨children_of_node? hp ▸ hbefore, children_place_self hne hp ▸ hafter,
      fun j hj => children_place hne hj, parent?_place hne (by simp [hp]) hc, ?_⟩
    exact h.bounded_place hne hp
  exact h.graft hgraft hfree hup

/-- Attaching keeps a forest sound. -/
theorem Sound.attach (h : f.Sound) (ha : f.attach p c = .ok g) : g.Sound := by
  unfold Forest.attach at ha
  split at ha
  · next n m hp hc =>
    simp only at ha
    split_ifs at ha with hk hfree hcycle
    obtain rfl := Except.ok.inj ha
    refine h.place hp (by simp [hc]) (by simpa using hk) (by simpa using hfree) ?_
    intro hholds
    rcases Relation.reflTransGen_iff_eq_or_transGen.1 hholds with rfl | hholds
    · exact hcycle (.inl rfl)
    · exact hcycle (.inr (h.mem_ancestors_of_holds hholds))
  · obtain rfl := Except.ok.inj ha
    exact h

end Forest

end Gherkin
