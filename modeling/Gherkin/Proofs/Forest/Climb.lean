import Mathlib.Data.List.Perm.Subperm
import Mathlib.Data.List.Range
import Gherkin.Proofs.Forest.Sound

/-! The walk up the links finds every ancestor: with as many steps as there are elements, it leaves
out nothing that links reach, although it never enters an element twice. -/

namespace Gherkin.Forest

open Relation

variable {f : Forest} {a id : Nat}

/-- An element that holds every number below the bound already has no more room. -/
theorem mem_of_nodup_of_length_le {seen : List Nat} {n : Nat} (hnd : seen.Nodup)
    (hlt : ∀ i ∈ seen, i < n) (hlen : n ≤ seen.length) (hid : id < n) : id ∈ seen := by
  have hsub : seen.Subperm (List.range n) :=
    hnd.subperm fun i hi => List.mem_range.2 (hlt i hi)
  have hperm := hsub.perm_of_length_le (by simpa using hlen)
  exact hperm.mem_iff.2 (List.mem_range.2 hid)

theorem lt_of_parent? {p c : Nat} (h : f.parent? c = some p) : p < f.nodes.length := by
  obtain ⟨n, hn⟩ := Option.isSome_iff_exists.1 (parent?_eq_some_iff.1 h).2
  exact lt_of_node? hn

/-- With steps for every element that is still to be seen, the walk is closed under going up: what
it reaches, or had seen before, has its parent there too. -/
theorem climb_closed : ∀ (fuel : Nat) (seen : List Nat) (start : Option Nat), seen.Nodup →
    (∀ i ∈ seen, i < f.nodes.length) → f.nodes.length ≤ fuel + seen.length →
    (∀ i ∈ start, i < f.nodes.length) →
    (∀ i ∈ start, i ∈ climb f fuel seen start ++ seen) ∧
      ∀ x ∈ climb f fuel seen start, ∀ y ∈ f.parent? x, y ∈ climb f fuel seen start ++ seen
  | 0, seen, start, hnd, hlt, hlen, hs => by
    constructor
    · intro i hi
      rw [Nat.zero_add] at hlen
      exact List.mem_append_right _ (mem_of_nodup_of_length_le hnd hlt hlen (hs i hi))
    · intro x hx
      simp [climb] at hx
  | fuel + 1, seen, none, _, _, _, _ => by simp [climb]
  | fuel + 1, seen, some s, hnd, hlt, hlen, hs => by
    by_cases hmem : s ∈ seen
    · simp [climb, hmem]
    · have ih := climb_closed fuel (s :: seen) (f.parent? s) (List.nodup_cons.2 ⟨hmem, hnd⟩)
        (by simpa using ⟨hs s rfl, hlt⟩) (by simp; omega) fun i hi => lt_of_parent? hi
      have hcl : climb f (fuel + 1) seen (some s) =
          s :: climb f fuel (s :: seen) (f.parent? s) := by simp [climb, hmem]
      -- what is found further up counts as found here, `s` itself included
      have hin : ∀ y, y ∈ climb f fuel (s :: seen) (f.parent? s) ++ s :: seen →
          y ∈ climb f (fuel + 1) seen (some s) ++ seen := by
        intro y hy
        rw [hcl]
        simp only [List.mem_append, List.mem_cons] at hy ⊢
        tauto
      refine ⟨by simp [hcl], ?_⟩
      intro x hx y hy
      rw [hcl] at hx
      rcases List.mem_cons.1 hx with rfl | hx
      · exact hin y (ih.1 y hy)
      · exact hin y (ih.2 x hx y hy)

/-- Everything that links lead to is among the ancestors. -/
theorem mem_ancestors (h : TransGen (fun c p => f.parent? c = some p) id a) :
    a ∈ f.ancestors id := by
  have hclosed := climb_closed (f := f) f.nodes.length [] (f.parent? id) List.nodup_nil (by simp)
    (by simp) fun i hi => lt_of_parent? hi
  simp only [List.append_nil] at hclosed
  induction h with
  | single hp => exact hclosed.1 _ hp
  | tail _ hp ih => exact hclosed.2 _ ih _ hp

/-- In a sound forest an element that holds another, at whatever depth, is an ancestor of it. -/
theorem Sound.mem_ancestors_of_holds (h : f.Sound) (hh : TransGen f.Holds a id) :
    a ∈ f.ancestors id := by
  apply mem_ancestors
  rw [← transGen_swap]
  exact TransGen.mono (fun _ _ hc => h.linked hc) _ _ hh

end Gherkin.Forest
