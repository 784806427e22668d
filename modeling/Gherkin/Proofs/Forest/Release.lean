import Gherkin.Forest.Release
import Gherkin.Proofs.Forest.Sound

/-! Freeing what nothing holds keeps a forest sound: a collection that stays keeps what is in it, so
only elements without a parent go. -/

namespace Gherkin.Forest

open Relation

variable {f : Forest} {handles : List Nat} {p c id : Nat}

theorem length_sweep : (f.sweep handles).nodes.length = f.nodes.length := by
  simp [sweep]

theorem node?_sweep (f : Forest) (handles : List Nat) (id : Nat) :
    (f.sweep handles).node? id =
      if handles.contains id || f.isContained id then f.node? id else none := by
  simp only [node?, sweep, List.getElem?_mapIdx]
  cases f.nodes[id]? with
  | none => simp
  | some n => split_ifs <;> simp [*]

theorem isContained_of_mem (h : c ∈ f.children p) : f.isContained c := by
  obtain ⟨n, hn, hc⟩ := mem_children_iff.1 h
  have hget : f.nodes[p]? = some (some n) := by simpa [node?, Option.join_eq_some_iff] using hn
  simp only [isContained, List.any_eq_true]
  exact ⟨some n, List.mem_of_getElem? hget, by simpa using hc⟩

/-- What is there after a sweep was there before, and is unchanged. -/
theorem node?_of_sweep {n : Node} (h : (f.sweep handles).node? id = some n) :
    f.node? id = some n := by
  rw [node?_sweep] at h
  split_ifs at h
  exact h

theorem node?_sweep_of_mem (h : c ∈ f.children p) :
    (f.sweep handles).node? c = f.node? c := by
  rw [node?_sweep, isContained_of_mem h]
  simp

theorem mem_children_of_sweep (h : c ∈ (f.sweep handles).children p) : c ∈ f.children p := by
  obtain ⟨n, hn, hc⟩ := mem_children_iff.1 h
  exact mem_children_iff.2 ⟨n, node?_of_sweep hn, hc⟩

theorem Sound.sweep (h : f.Sound) (handles : List Nat) : (f.sweep handles).Sound where
  linked {p c} hc := by
    obtain ⟨n, hn, -⟩ := mem_children_iff.1 hc
    have hm := mem_children_of_sweep hc
    obtain ⟨hlink, -⟩ := parent?_eq_some_iff.1 (h.linked hm)
    rw [parent?_eq_some_iff, node?_sweep_of_mem hm]
    exact ⟨hlink, by simp [hn]⟩
  once {p c} hc := by
    obtain ⟨⟨m, hm, hl⟩, hp⟩ := parent?_eq_some_iff.1 hc
    obtain ⟨n, hn⟩ := Option.isSome_iff_exists.1 hp
    rw [children_of_node? hn, ← children_of_node? (node?_of_sweep hn)]
    exact h.once (parent?_eq_some_iff.2 ⟨⟨m, node?_of_sweep hm, hl⟩, by simp [node?_of_sweep hn]⟩)
  acyclic id hid :=
    h.acyclic id (TransGen.mono (fun _ _ hc => mem_children_of_sweep hc) _ _ hid)
  bounded hn hl := by
    rw [length_sweep]
    exact h.bounded (node?_of_sweep hn) hl

theorem Sound.sweepAll (h : f.Sound) (handles : List Nat) (fuel : Nat) :
    (Forest.sweepAll handles fuel f).Sound := by
  induction fuel generalizing f with
  | zero => exact h
  | succ fuel ih =>
    simp only [Forest.sweepAll]
    split_ifs
    · exact h
    · exact ih (h.sweep handles)

theorem Sound.release (h : f.Sound) (handles : List Nat) : (f.release handles).Sound :=
  h.sweepAll handles _

end Gherkin.Forest
