import Gherkin.Proofs.Settings.Merge

/-! Writes, one after the other. A write assigns a value to a key. It changes what is read at a path
only when something that it puts is on the way of the path, so the last write that reaches a path
decides what is read there. -/

namespace Gherkin.Settings

open Value

/-- A value and the key that it is assigned to. -/
structure Write where
  steps : List Step
  value : Value

namespace Write

variable {w : Write} {old new : Value} {p q : List Text} {x : Scalar}

/-- The values after a write. -/
def run (values : Value) (w : Write) : Option Value := Key.assign w.value w.steps values

/-- What a write puts, and where. Of a write into a list only the names before the list are told. -/
def leaves (w : Write) : List (List Text × Option Value) :=
  if w.steps = (Key.names w.steps).map .field then
    w.value.leaves.map fun l => (Key.names w.steps ++ l.1, some l.2)
  else [(Key.names w.steps, none)]

/-- Nothing that the write puts is on the way of the path. -/
def Spares (w : Write) (q : List Text) : Prop := ∀ l ∈ w.leaves, Apart l.1 q

/-- The last thing on the way of the path that the write puts is the scalar, at the path. -/
def Sets (w : Write) (q : List Text) (x : Scalar) : Prop :=
  ∃ before after, w.leaves = before ++ (q, some (scalar x)) :: after ∧ ∀ l ∈ after, Apart l.1 q

theorem leaves_of_names (v : Value) (p : List Text) :
    leaves ⟨p.map .field, v⟩ = v.leaves.map fun l => (p ++ l.1, some l.2) := by
  rw [leaves, Key.names_fields, if_pos rfl]

theorem run_of_names (v : Value) (p : List Text) (old : Value) :
    run old ⟨p.map .field, v⟩ = some (old.putAll (v.leaves.map fun l => (p ++ l.1, l.2))) := by
  rw [run, Key.assign_fields, put_eq_putAll]

/-- A write along names, or one of which only the names before a list are told. -/
theorem cases_leaves (w : Write) :
    (∃ (p : List Text) (v : Value), w = ⟨p.map .field, v⟩) ∨ w.leaves = [(Key.names w.steps, none)] := by
  by_cases h : w.steps = (Key.names w.steps).map .field
  · obtain ⟨steps, v⟩ := w
    exact .inl ⟨_, v, congrArg (Write.mk · v) h⟩
  · exact .inr (if_neg h)

theorem Spares.find?_run (h : w.Spares q) (hrun : run old w = some new) :
    find? q new = find? q old := by
  rcases w.cases_leaves with ⟨p, v, rfl⟩ | hleaves
  · rw [run_of_names] at hrun
    obtain rfl := Option.some.inj hrun
    refine find?_putAll_of_apart (fun put hput => ?_) old
    obtain ⟨l, hl, rfl⟩ := List.mem_map.1 hput
    have hmem : (p ++ l.1, some l.2) ∈ leaves ⟨p.map .field, v⟩ := by
      rw [leaves_of_names]
      exact List.mem_map.2 ⟨l, hl, rfl⟩
    exact h _ hmem
  · refine Key.find?_assign_of_apart hrun (h (Key.names w.steps, none) ?_)
    rw [hleaves]
    exact List.mem_singleton_self _

theorem Sets.find?_run (h : w.Sets q x) (hrun : run old w = some new) :
    find? q new = some (scalar x) := by
  obtain ⟨before, after, hsplit, hafter⟩ := h
  rcases w.cases_leaves with ⟨p, v, rfl⟩ | hleaves
  · rw [run_of_names] at hrun
    obtain rfl := Option.some.inj hrun
    rw [leaves_of_names] at hsplit
    obtain ⟨front, rest, hv, -, hrest⟩ := List.map_eq_append_iff.1 hsplit
    obtain ⟨l, back, rfl, hl, hback⟩ := List.map_eq_cons_iff.1 hrest
    obtain ⟨hpath, hleaf⟩ := Prod.mk.inj hl
    have hputs : v.leaves.map (fun l => (p ++ l.1, l.2)) =
        front.map (fun l => (p ++ l.1, l.2)) ++
          (q, scalar x) :: back.map (fun l => (p ++ l.1, l.2)) := by
      rw [hv, List.map_append, List.map_cons, hpath, Option.some.inj hleaf]
    rw [hputs]
    refine find?_putAll_of_last (fun put hput => ?_) old
    obtain ⟨k, hk, rfl⟩ := List.mem_map.1 hput
    have hmem : (p ++ k.1, some k.2) ∈ after := by
      rw [← hback]
      exact List.mem_map.2 ⟨k, hk, rfl⟩
    exact hafter _ hmem
  · rw [hleaves] at hsplit
    have hmem : (q, some (scalar x)) ∈ [(Key.names w.steps, none)] := by
      rw [hsplit]
      simp
    simp at hmem

/-- A scalar that is written to the path itself. -/
theorem sets_fields (q : List Text) (x : Scalar) : Sets ⟨q.map .field, scalar x⟩ q x := by
  refine ⟨[], [], ?_, by simp⟩
  rw [leaves_of_names]
  simp [Value.leaves]

end Write

/-! ### Runs of writes -/

/-- The values after writes made one after the other. -/
def runAll (values : Value) (ws : List Write) : Option Value := ws.foldlM Write.run values

section Runs

variable {ws before after : List Write} {w : Write} {old new : Value} {q : List Text} {x : Scalar}

theorem runAll_cons_eq_some :
    runAll old (w :: ws) = some new ↔ ∃ mid, w.run old = some mid ∧ runAll mid ws = some new := by
  rw [runAll, List.foldlM_cons]
  exact Option.bind_eq_some_iff

theorem runAll_append (old : Value) (ws ws' : List Write) :
    runAll old (ws ++ ws') = (runAll old ws).bind (runAll · ws') := by
  rw [runAll, List.foldlM_append]
  rfl

theorem find?_runAll_of_spares (h : ∀ w ∈ ws, w.Spares q) (hrun : runAll old ws = some new) :
    find? q new = find? q old := by
  induction ws generalizing old with
  | nil =>
    obtain rfl := Option.some.inj hrun
    rfl
  | cons w ws ih =>
    obtain ⟨hw, hws⟩ := List.forall_mem_cons.1 h
    obtain ⟨mid, hmid, hrest⟩ := runAll_cons_eq_some.1 hrun
    rw [ih hws hrest, hw.find?_run hmid]

/-- The last write that reaches a path decides what is read there. -/
theorem find?_runAll_of_last (hw : w.Sets q x) (hafter : ∀ w ∈ after, w.Spares q)
    (hrun : runAll old (before ++ w :: after) = some new) : find? q new = some (scalar x) := by
  rw [runAll_append] at hrun
  obtain ⟨mid, -, hrest⟩ := Option.bind_eq_some_iff.1 hrun
  obtain ⟨next, hnext, hrest⟩ := runAll_cons_eq_some.1 hrest
  rw [find?_runAll_of_spares hafter hrest, hw.find?_run hnext]

/-- Writes to fields make tables of tables. -/
theorem exists_table_of_runAll (h : ∀ w ∈ ws, ∃ name rest, w.steps = .field name :: rest)
    {fields : List (Text × Value)} (hrun : runAll (table fields) ws = some new) :
    ∃ fields, new = table fields := by
  induction ws generalizing fields with
  | nil => exact ⟨fields, (Option.some.inj hrun).symm⟩
  | cons w ws ih =>
    obtain ⟨⟨name, rest, hsteps⟩, hws⟩ := List.forall_mem_cons.1 h
    obtain ⟨mid, hmid, hrest⟩ := runAll_cons_eq_some.1 hrun
    rw [Write.run, hsteps, Key.assign] at hmid
    obtain ⟨inner, -, hinner⟩ := Option.bind_eq_some_iff.1 hmid
    obtain rfl := Option.some.inj hinner
    exact ih hws hrest

/-- Writes along names cannot fail. -/
theorem exists_runAll (h : ∀ w ∈ ws, ∃ p : List Text, w.steps = p.map .field) (old : Value) :
    ∃ new, runAll old ws = some new := by
  induction ws generalizing old with
  | nil => exact ⟨old, rfl⟩
  | cons w ws ih =>
    obtain ⟨⟨p, hp⟩, hws⟩ := List.forall_mem_cons.1 h
    have hrun : w.run old = some (put w.value p old) := by
      rw [Write.run, hp, Key.assign_fields]
    obtain ⟨new, hnew⟩ := ih hws (put w.value p old)
    exact ⟨new, runAll_cons_eq_some.2 ⟨_, hrun, hnew⟩⟩

end Runs

end Gherkin.Settings
