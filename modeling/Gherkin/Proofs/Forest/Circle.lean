import Gherkin.Forest.Plant
import Gherkin.Proofs.Forest.Attach

/-! Attaching an element below itself. Whether an element lies below another is found out by climbing
the links, so what counts is that the children on the way down are linked to those that hold them.
Proved: attaching is refused when they are, and then no element comes to contain itself, whatever
the links and collections of the others; and one child without a link is enough to close a circle. -/

namespace Gherkin.Forest

open Relation

variable {f g : Forest} {p c : Nat}

/-- Whether `b` is in a collection of `a` and linked to it. -/
def Owns (f : Forest) (a b : Nat) : Prop := f.Holds a b ∧ f.parent? b = some a

/-- No element contains itself, at whatever depth. -/
def Acyclic (f : Forest) : Prop := ∀ id, ¬ TransGen f.Holds id id

/-- Links lead from an element up to everything that owns it. -/
theorem mem_ancestors_of_owns (h : TransGen f.Owns c p) : c ∈ f.ancestors p := by
  apply mem_ancestors
  rw [← transGen_swap]
  exact TransGen.mono (fun _ _ howns => howns.2) _ _ h

/-- Nothing is attached to itself or to what it owns, whatever else there is to say against it. -/
theorem exists_error_of_owns (hp : (f.node? p).isSome) (hc : (f.node? c).isSome)
    (h : ReflTransGen f.Owns c p) : ∃ e, f.attach p c = .error e := by
  obtain ⟨n, hn⟩ := Option.isSome_iff_exists.1 hp
  obtain ⟨m, hm⟩ := Option.isSome_iff_exists.1 hc
  have hcycle : c = p ∨ c ∈ f.ancestors p := by
    rcases reflTransGen_iff_eq_or_transGen.1 h with heq | hup
    · exact .inl heq.symm
    · exact .inr (mem_ancestors_of_owns hup)
  simp only [Forest.attach, hn, hm, if_pos hcycle]
  split_ifs <;> exact ⟨_, rfl⟩

/-- Placing an element adds one edge to those that there were, and may take away one. -/
theorem holds_of_place {n : Node} {kind : Kind} (hne : c ≠ p) (hp : f.node? p = some n)
    (hk : n.content.kind.accepts kind) {a b : Nat}
    (h : (f.place p c kind (n.content.displaced kind)).Holds a b) :
    f.Holds a b ∨ (a = p ∧ b = c) := by
  unfold Holds at h ⊢
  by_cases ha : a = p
  · subst ha
    obtain ⟨rest, hbefore, hafter⟩ := n.content.children_insert kind c hk
    rw [children_place_self hne hp, hafter.mem_iff] at h
    rcases List.mem_cons.1 h with rfl | hrest
    · exact .inr ⟨rfl, rfl⟩
    · rw [children_of_node? hp, hbefore.mem_iff]
      exact .inl (List.mem_append_right _ hrest)
  · rw [children_place hne ha] at h
    exact .inl h

/-- Attaching closes no circle where nothing contains itself, unless the parent is below the child. -/
theorem Acyclic.attach (h : f.Acyclic) (hup : ¬ ReflTransGen f.Holds c p)
    (ha : f.attach p c = .ok g) : g.Acyclic := by
  unfold Forest.attach at ha
  split at ha
  · next n m hp hc =>
    simp only at ha
    split_ifs at ha with hk hfree hcycle
    obtain rfl := Except.ok.inj ha
    have hne : c ≠ p := fun e => hcycle (.inl e)
    intro id hid
    rcases transGen_of_one_more
      (fun a b hab => holds_of_place hne hp (by simpa using hk) hab) hid with hid | ⟨hdown, hback⟩
    · exact h id hid
    · exact hup (hback.trans hdown)
  · obtain rfl := Except.ok.inj ha
    exact h

/-- An element is never attached to one that it owns, at whatever depth; and when it owns the parent
wherever it contains it, attaching closes no circle. -/
theorem attach_below_self (hp : (f.node? p).isSome) (hc : (f.node? c).isSome) :
    (ReflTransGen f.Owns c p → ∃ e, f.attach p c = .error e) ∧
      ((ReflTransGen f.Holds c p → ReflTransGen f.Owns c p) → f.Acyclic →
        ∀ g, f.attach p c = .ok g → g.Acyclic) := by
  refine ⟨exists_error_of_owns hp hc, fun howned hacyclic g hg => hacyclic.attach ?_ hg⟩
  intro hholds
  obtain ⟨e, he⟩ := exists_error_of_owns hp hc (howned hholds)
  rw [hg] at he
  cases he

/-- A directory is not attached to the directory in its sub-directory. -/
theorem attach_below_self_nested :
    let f := (Forest.plant true {} (.directory (.mk [] [] [.mk [] [] [.mk [] [] []]]))).2
    (f.node? 2).isSome ∧ (f.node? 0).isSome ∧ ReflTransGen f.Owns 0 2 ∧
      ∃ e, f.attach 2 0 = .error e := by
  intro f
  have hway : ReflTransGen f.Owns 0 2 :=
    .tail (.single ⟨List.mem_singleton_self 1, rfl⟩) ⟨List.mem_singleton_self 2, rfl⟩
  exact ⟨rfl, rfl, hway, (attach_below_self rfl rfl).1 hway⟩

/-- A directory that was filled by hand is attached to its own sub-directory, which has no link to
it, and then contains itself. -/
theorem attach_closes_circle :
    let f := (Forest.plant false {} (.directory (.mk [] [] [.mk [] [] []]))).2
    f.Acyclic ∧ f.Holds 0 1 ∧ ∃ g, f.attach 1 0 = .ok g ∧ TransGen g.Holds 0 0 := by
  intro f
  have hedge : ∀ a b, f.Holds a b → a = 0 ∧ b = 1 := by
    intro a b hab
    match a with
    | 0 => exact ⟨rfl, List.mem_singleton.1 hab⟩
    | 1 => exact absurd hab List.not_mem_nil
    | _ + 2 => exact absurd hab List.not_mem_nil
  refine ⟨?_, List.mem_singleton_self 1, _, rfl, ?_⟩
  · intro id hid
    obtain ⟨b, hfirst, -⟩ := TransGen.head'_iff.1 hid
    obtain ⟨a, -, hlast⟩ := TransGen.tail'_iff.1 hid
    have hzero := (hedge _ _ hfirst).1
    have hone := (hedge _ _ hlast).2
    omega
  · exact .tail (.single (List.mem_singleton_self 1)) (List.mem_singleton_self 0)

end Gherkin.Forest
