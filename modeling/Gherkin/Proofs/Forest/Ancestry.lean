import Gherkin.Forest.Plant
import Gherkin.Proofs.Forest.Climb

/-! Ancestors under any links. The links of a forest may lead anywhere, in circles too. Proved: the
ancestors of an element are what its links lead to, one step after the other, as far as the
root or the first element that comes up again; the search for an ancestor gives the first of
them that answers the query; and neither walk is cut short by the number of its steps. -/

namespace Gherkin.Forest

variable {f : Forest} {q : Query}

/-- What `n` links lead to from an element. -/
def above? (f : Forest) (id : Nat) : Nat → Option Nat
  | 0 => some id
  | n + 1 => (f.above? id n).bind f.parent?

/-- Whether an element is what a query looks for: of that kind, or any test. -/
def Answers (f : Forest) (q : Query) (id : Nat) : Prop :=
  ∃ k, f.kind? id = some k ∧ (q = .kind k ∨ q = .test ∧ (k = .scenario ∨ k = .outline))

theorem answers_iff (id : Nat) : f.Answers q id ↔ (f.kind? id).any (·.answers q) := by
  cases hk : f.kind? id with
  | none => simp [Answers, hk]
  | some k =>
    rw [Answers, hk, Option.any_some]
    cases q with
    | kind wanted => simp [Kind.answers, Query.covers, eq_comm (a := k)]
    | test => cases k <;> simp [Kind.answers, Query.covers]

/-! ### The walk -/

theorem above?_succ (id : Nat) (n : Nat) :
    f.above? id (n + 1) = (f.parent? id).bind fun p => f.above? p n := by
  induction n with
  | zero => cases h : f.parent? id <;> simp [above?, h]
  | succ n ih =>
    rw [above?, ih]
    cases f.parent? id <;> rfl

/-- With steps for every element that is still to be seen, one step more changes nothing. -/
theorem climb_succ : ∀ (fuel : Nat) (seen : List Nat) (start : Option Nat), seen.Nodup →
    (∀ i ∈ seen, i < f.nodes.length) → f.nodes.length ≤ fuel + seen.length →
    (∀ i ∈ start, i < f.nodes.length) → climb f (fuel + 1) seen start = climb f fuel seen start
  | 0, seen, none, _, _, _, _ => rfl
  | 0, seen, some s, hnd, hlt, hlen, hs => by
    rw [Nat.zero_add] at hlen
    have hmem := mem_of_nodup_of_length_le hnd hlt hlen (hs s rfl)
    simp [climb, hmem]
  | fuel + 1, seen, none, _, _, _, _ => rfl
  | fuel + 1, seen, some s, hnd, hlt, hlen, hs => by
    by_cases hmem : s ∈ seen
    · simp [climb, hmem]
    · have ih := climb_succ fuel (s :: seen) (f.parent? s) (List.nodup_cons.2 ⟨hmem, hnd⟩)
        (by simpa using ⟨hs s rfl, hlt⟩) (by simp; omega) fun i hi => lt_of_parent? hi
      rw [climb, climb, if_neg hmem, if_neg hmem, ih]

theorem climb_of_le (id : Nat) {fuel : Nat} (h : f.nodes.length ≤ fuel) :
    climb f fuel [] (f.parent? id) = f.ancestors id := by
  induction fuel, h using Nat.le_induction with
  | base => rfl
  | succ fuel hle ih =>
    rw [climb_succ fuel [] _ List.nodup_nil (by simp) (by simpa using hle) fun i hi =>
      lt_of_parent? hi, ih]

/-- The walk enters no element twice, nor one that was seen before. -/
theorem nodup_climb (fuel : Nat) (seen : List Nat) (start : Option Nat) :
    (climb f fuel seen start).Nodup ∧ ∀ a ∈ climb f fuel seen start, a ∉ seen := by
  fun_induction climb f fuel seen start with
  | case1 => simp
  | case2 fuel seen id hmem ih =>
    refine ⟨List.nodup_cons.2 ⟨fun hin => ih.2 id hin List.mem_cons_self, ih.1⟩, ?_⟩
    refine List.forall_mem_cons.2 ⟨hmem, fun a ha hseen => ?_⟩
    exact ih.2 a ha (List.mem_cons_of_mem _ hseen)
  | case3 => simp

/-- The walk goes up link by link, and where it stops with steps to spare, the next link leads
nowhere or to an element that it has seen. -/
theorem climb_above (fuel : Nat) (seen : List Nat) (start : Option Nat) :
    let found := climb f fuel seen start
    found.map some = (List.range found.length).map (fun i => start.bind fun s => f.above? s i) ∧
      (found.length < fuel →
        ∀ a ∈ start.bind fun s => f.above? s found.length, a ∈ seen ∨ a ∈ found) := by
  fun_induction climb f fuel seen start with
  | case1 fuel seen id hmem => simp [above?, hmem]
  | case2 fuel seen id hmem ih =>
    simp only [Option.bind_some] at ih ⊢
    have hup : ∀ i, (f.parent? id).bind (fun s => f.above? s i) = f.above? id (i + 1) :=
      fun i => (above?_succ id i).symm
    simp only [hup] at ih
    constructor
    · rw [List.map_cons, List.length_cons, List.range_succ_eq_map, List.map_cons, List.map_map,
        ih.1]
      rfl
    · intro hlt a ha
      rw [List.length_cons] at hlt ha
      rcases ih.2 (by omega) a ha with hseen | hfound
      · rcases List.mem_cons.1 hseen with rfl | hseen
        · exact .inr List.mem_cons_self
        · exact .inl hseen
      · exact .inr (List.mem_cons_of_mem _ hfound)
  | case3 fuel seen start hnone =>
    cases start with
    | none => simp
    | some s => cases fuel with
      | zero => simp
      | succ fuel => exact absurd rfl (hnone fuel s rfl)

theorem lt_of_mem_climb {fuel : Nat} {seen : List Nat} {start : Option Nat}
    (hs : ∀ i ∈ start, i < f.nodes.length) : ∀ a ∈ climb f fuel seen start, a < f.nodes.length := by
  fun_induction climb f fuel seen start with
  | case1 => simp
  | case2 fuel seen id hmem ih =>
    exact List.forall_mem_cons.2 ⟨hs id rfl, ih fun i hi => lt_of_parent? hi⟩
  | case3 => simp

/-- The search takes the first element of the walk that answers. -/
theorem search_eq_find? (fuel : Nat) (seen : List Nat) (start : Option Nat) :
    search f q fuel seen start =
      (climb f fuel seen start).find? fun a => (f.kind? a).any (·.answers q) := by
  fun_induction climb f fuel seen start with
  | case1 fuel seen id hmem => simp [search, hmem]
  | case2 fuel seen id hmem ih =>
    rw [search, if_neg hmem, List.find?_cons]
    split <;> simp_all
  | case3 fuel seen start hnone =>
    cases start with
    | none => cases fuel <;> rfl
    | some s => cases fuel with
      | zero => rfl
      | succ fuel => exact absurd rfl (hnone fuel s rfl)

theorem ancestorOf?_node (id : Nat) (q : Query) :
    (f.node? id).bind (f.ancestorOf? · q) = f.ancestor? id q := by
  rw [ancestor?, parent?]
  cases f.node? id with
  | none => cases f.nodes.length <;> rfl
  | some n => rfl

/-- The ancestors of an element are what one link after the other leads to, up to the root or to an
element that is among them already, and none comes twice. The nearest ancestor that answers a query
is the first of them that does, also for an element given by itself. More steps find no more. -/
theorem ancestors_and_search (f : Forest) (id : Nat) :
    (∃ n, (f.ancestors id).map some = (List.range n).map (fun i => f.above? id (i + 1)) ∧
      ∀ a ∈ f.above? id (n + 1), a ∈ f.ancestors id) ∧
    (f.ancestors id).Nodup ∧
    (∀ more, climb f (f.nodes.length + more) [] (f.parent? id) = f.ancestors id) ∧
    ∀ q,
      (∀ a, f.ancestor? id q = some a ↔ ∃ before after, f.ancestors id = before ++ a :: after ∧
        f.Answers q a ∧ ∀ b ∈ before, ¬f.Answers q b) ∧
      (f.ancestor? id q = none ↔ ∀ a ∈ f.ancestors id, ¬f.Answers q a) ∧
      (f.node? id).bind (f.ancestorOf? · q) = f.ancestor? id q ∧
      ∀ more, search f q (f.nodes.length + more) [] (f.parent? id) = f.ancestor? id q := by
  have hwalk (more : Nat) : climb f (f.nodes.length + more) [] (f.parent? id) = f.ancestors id :=
    climb_of_le id (Nat.le_add_right _ more)
  have hup (i : Nat) : (f.parent? id).bind (fun s => f.above? s i) = f.above? id (i + 1) :=
    (above?_succ id i).symm
  -- one step to spare shows that the walk has come to its end
  obtain ⟨hfound, hend⟩ := climb_above (f := f) (f.nodes.length + 1) [] (f.parent? id)
  simp only [hwalk 1, hup, List.not_mem_nil, false_or] at hfound hend
  have hnodup : (f.ancestors id).Nodup := (nodup_climb _ _ _).1
  have hshort : (f.ancestors id).length ≤ f.nodes.length := by
    have hlt : ∀ a ∈ f.ancestors id, a ∈ List.range f.nodes.length := fun a ha =>
      List.mem_range.2 (lt_of_mem_climb (fun i hi => lt_of_parent? hi) a ha)
    simpa using (hnodup.subperm hlt).length_le
  refine ⟨⟨_, hfound, hend (by omega)⟩, hnodup, hwalk, fun q => ?_⟩
  have hsearch (more : Nat) : search f q (f.nodes.length + more) [] (f.parent? id) =
      (f.ancestors id).find? fun a => (f.kind? a).any (·.answers q) := by
    rw [search_eq_find?, hwalk]
  have hnearest : f.ancestor? id q =
      (f.ancestors id).find? fun a => (f.kind? a).any (·.answers q) := hsearch 0
  refine ⟨fun a => ?_, ?_, ancestorOf?_node id q, fun more => (hsearch more).trans hnearest.symm⟩
  · rw [hnearest, List.find?_eq_some_iff_append]
    constructor
    · rintro ⟨ha, before, after, hsplit, hbefore⟩
      exact ⟨before, after, hsplit, (answers_iff a).2 ha, fun b hb => by
        simpa [answers_iff] using hbefore b hb⟩
    · rintro ⟨before, after, hsplit, ha, hbefore⟩
      exact ⟨(answers_iff a).1 ha, before, after, hsplit, fun b hb => by
        simpa [answers_iff] using hbefore b hb⟩
  · rw [hnearest, List.find?_eq_none]
    simp only [answers_iff]

/-- A tag whose links lead into a circle of a scenario and a feature. -/
theorem ancestors_and_search_circle :
    let f : Forest := ⟨[some ⟨.tag [], some 1, none⟩, some ⟨.scenario {} [] [], some 2, none⟩,
      some ⟨.feature {} [] none [1] [] [], some 1, none⟩]⟩
    f.ancestors 0 = [1, 2] ∧ f.above? 0 3 = some 1 ∧
      (∃ before after, f.ancestors 0 = before ++ 2 :: after ∧ f.Answers (.kind .feature) 2 ∧
        ∀ b ∈ before, ¬f.Answers (.kind .feature) b) ∧
      ∀ a ∈ f.ancestors 0, ¬f.Answers (.kind .directory) a := by
  intro f
  obtain ⟨-, -, -, hsearch⟩ := ancestors_and_search f 0
  exact ⟨by decide, by decide, ((hsearch (.kind .feature)).1 2).1 (by decide),
    (hsearch (.kind .directory)).2.1.1 (by decide)⟩

end Gherkin.Forest
