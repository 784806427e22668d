import Mathlib.Data.List.Basic
import Gherkin.Settings.Key

/-! What is merged and assigned, path by path. A value has leaves: what stands in it that is no table
with fields, each at a path of names. Merging a value is putting its leaves one after the other, and
assigning to a key puts them below the key. A leaf changes what is read at a path only when one of
the two paths leads on from the other, so the leaf that was put last on the way of a path decides
what is read there. -/

namespace Gherkin.Settings

/-! ### Paths -/

/-- Neither path leads on from the other. -/
def Apart (p q : List Text) : Prop := ¬p <+: q ∧ ¬q <+: p

instance (p q : List Text) : Decidable (Apart p q) := inferInstanceAs (Decidable (_ ∧ _))

theorem Apart.of_cons {p q : List Text} {name : Text} (h : Apart (name :: p) (name :: q)) :
    Apart p q := by
  simpa [Apart] using h

theorem Apart.append {p q : List Text} (h : Apart p q) (r : List Text) : Apart (p ++ r) q := by
  refine ⟨fun hpre => h.1 ((List.prefix_append p r).trans hpre), fun hpre => ?_⟩
  rcases List.prefix_or_prefix_of_prefix hpre (List.prefix_append p r) with hq | hp
  · exact h.2 hq
  · exact h.1 hp

namespace Value

/-- What is read at the end of a path. -/
def find? : List Text → Value → Option Value
  | [], v => some v
  | name :: path, v => (v.fields.lookup name).bind (find? path)

/-- A value merged into what is at the end of a path. What is on the way becomes a table. -/
def put (v : Value) : List Text → Value → Value
  | [], old => old.merge v
  | name :: path, old =>
    table (Entries.set name (put v path ((old.fields.lookup name).getD missing)) old.fields)

mutual

/-- What stands in a value that is no table with fields, at the paths of names in their stored
form. -/
def leaves : Value → List (List Text × Value)
  | table (f :: fields) => fieldLeaves (f :: fields)
  | v => [([], v)]

/-- The leaves of fields. -/
def fieldLeaves : List (Text × Value) → List (List Text × Value)
  | [] => []
  | (name, v) :: rest => (leaves v).map (fun l => (storedName name :: l.1, l.2)) ++ fieldLeaves rest

end

/-- Leaves put one after the other. -/
def putAll (old : Value) (ls : List (List Text × Value)) : Value :=
  ls.foldl (fun old l => put l.2 l.1 old) old

variable {v : Value} {p q : List Text}

@[simp] theorem fields_table (fs : List (Text × Value)) : (table fs).fields = fs := rfl

/-! ### Merging by leaves -/

theorem putAll_append (old : Value) (ls ls' : List (List Text × Value)) :
    old.putAll (ls ++ ls') = (old.putAll ls).putAll ls' :=
  List.foldl_append

theorem putAll_below (name : Text) {ls : List (List Text × Value)} (h : ls ≠ []) (old : Value) :
    old.putAll (ls.map fun l => (name :: l.1, l.2)) =
      table (Entries.set name (((old.fields.lookup name).getD missing).putAll ls) old.fields) := by
  induction ls generalizing old with
  | nil => exact absurd rfl h
  | cons l ls ih =>
    by_cases hls : ls = []
    · rw [hls]
      rfl
    · have hput : put l.2 (name :: l.1) old = table (Entries.set name
          (put l.2 l.1 ((old.fields.lookup name).getD missing)) old.fields) := rfl
      rw [List.map_cons, putAll, List.foldl_cons, ← putAll, ih hls, hput]
      rw [fields_table, Entries.lookup_set_self, Entries.set_set]
      rfl

mutual

theorem leaves_ne_nil : ∀ v : Value, v.leaves ≠ []
  | missing | scalar _ | list _ | table [] => by simp [leaves]
  | table (f :: fields) => by
    rw [leaves]
    exact fieldLeaves_ne_nil f fields

theorem fieldLeaves_ne_nil : ∀ (f : Text × Value) (fields : List (Text × Value)),
    fieldLeaves (f :: fields) ≠ []
  | (name, v), fields => by
    have hv := leaves_ne_nil v
    simp [fieldLeaves, hv]

end

mutual

/-- Merging a value is putting its leaves. -/
theorem merge_eq_putAll : ∀ (v old : Value), old.merge v = old.putAll v.leaves
  | missing, _ | scalar _, _ | list _, _ | table [], _ => rfl
  | table (f :: fields), old => by
    rw [merge, leaves]
    exact mergeFields_eq_putAll (f :: fields) old (List.cons_ne_nil f fields)

theorem mergeFields_eq_putAll : ∀ (fields : List (Text × Value)) (old : Value), fields ≠ [] →
    table (mergeFields old.fields fields) = old.putAll (fieldLeaves fields)
  | [], _, h => absurd rfl h
  | (name, v) :: rest, old, _ => by
    rw [fieldLeaves, putAll_append, putAll_below _ (leaves_ne_nil v), ← merge_eq_putAll v,
      mergeFields]
    by_cases hrest : rest = []
    · rw [hrest]
      rfl
    · rw [← mergeFields_eq_putAll rest _ hrest, fields_table]

end

/-- Merging a value at the end of a path is putting its leaves below the path. -/
theorem put_eq_putAll (v : Value) (p : List Text) (old : Value) :
    put v p old = old.putAll (v.leaves.map fun l => (p ++ l.1, l.2)) := by
  induction p generalizing old with
  | nil =>
    rw [put, merge_eq_putAll]
    simp
  | cons name path ih =>
    have hne : v.leaves.map (fun l => (path ++ l.1, l.2)) ≠ [] := by
      simp [leaves_ne_nil v]
    have hbelow := putAll_below name hne old
    rw [List.map_map] at hbelow
    rw [put, ih]
    exact hbelow.symm

/-! ### Reading -/

theorem find?_missing (h : p ≠ []) : find? p missing = none := by
  cases p with
  | nil => exact absurd rfl h
  | cons name path => rfl

theorem find?_put_self (v : Value) (p : List Text) (old : Value) :
    find? p (put v p old) = some (((find? p old).getD missing).merge v) := by
  induction p generalizing old with
  | nil => rfl
  | cons name path ih =>
    rw [find?, find?, put, fields_table, Entries.lookup_set_self, Option.bind_some, ih]
    cases old.fields.lookup name with
    | some w => rfl
    | none =>
      cases path with
      | nil => rfl
      | cons => rfl

/-- A leaf is read where it is put. -/
theorem find?_put_scalar (x : Scalar) (p : List Text) (old : Value) :
    find? p (put (scalar x) p old) = some (scalar x) :=
  find?_put_self (scalar x) p old

/-- A field that is set is seen only from paths that lead through it. -/
theorem find?_set_of_apart {name : Text} {inner old : Value} (h : Apart (name :: p) q)
    (hinner : ∀ rest, Apart p rest →
      find? rest inner = find? rest ((old.fields.lookup name).getD missing)) :
    find? q (table (Entries.set name inner old.fields)) = find? q old := by
  cases q with
  | nil => exact absurd List.nil_prefix h.2
  | cons other rest =>
    rw [find?, find?, fields_table]
    by_cases hname : other = name
    · subst hname
      have hrest : rest ≠ [] := by
        intro hnil
        rw [hnil] at h
        exact h.2 ⟨p, rfl⟩
      rw [Entries.lookup_set_self, Option.bind_some, hinner rest h.of_cons]
      cases old.fields.lookup other with
      | some w => rfl
      | none => exact find?_missing hrest
    · rw [Entries.lookup_set_of_ne hname]

/-- What is put at a path is not seen from a path apart from it. -/
theorem find?_put_of_apart (h : Apart p q) (v old : Value) :
    find? q (put v p old) = find? q old := by
  induction p generalizing q old with
  | nil => exact absurd List.nil_prefix h.1
  | cons name path ih => exact find?_set_of_apart h fun rest hrest => ih hrest _

/-- Leaves apart from a path leave what is read there as it is. -/
theorem find?_putAll_of_apart {ls : List (List Text × Value)} (h : ∀ l ∈ ls, Apart l.1 q)
    (old : Value) : find? q (old.putAll ls) = find? q old := by
  induction ls generalizing old with
  | nil => rfl
  | cons l ls ih =>
    obtain ⟨hl, hls⟩ := List.forall_mem_cons.1 h
    rw [putAll, List.foldl_cons, ← putAll, ih hls, find?_put_of_apart hl]

/-- The last leaf that is put on the way of a path decides what is read there. -/
theorem find?_putAll_of_last {before after : List (List Text × Value)} {x : Scalar}
    (h : ∀ l ∈ after, Apart l.1 q) (old : Value) :
    find? q (old.putAll (before ++ (q, scalar x) :: after)) = some (scalar x) := by
  rw [putAll, List.foldl_append, List.foldl_cons, ← putAll, ← putAll, find?_putAll_of_apart h,
    find?_put_scalar]

end Value

/-! ### Assignment -/

namespace Key

open Value

/-- The names that steps begin with. -/
def names : List Step → List Text
  | .field name :: rest => name :: names rest
  | _ => []

/-- Along names, assigning is putting. -/
theorem assign_fields (v : Value) (p : List Text) (old : Value) :
    assign v (p.map .field) old = some (put v p old) := by
  induction p generalizing old with
  | nil => rfl
  | cons name path ih =>
    rw [List.map_cons, assign, ih]
    rfl

theorem names_fields (p : List Text) : names (p.map .field) = p := by
  induction p with
  | nil => rfl
  | cons name path ih => rw [List.map_cons, names, ih]

/-- Whatever is assigned below names is not seen from a path apart from them. -/
theorem find?_assign_of_apart {v old new : Value} {steps : List Step} {q : List Text}
    (h : assign v steps old = some new) (hq : Apart (names steps) q) :
    find? q new = find? q old := by
  induction steps generalizing q old new with
  | nil => exact absurd List.nil_prefix hq.1
  | cons step steps ih =>
    cases step with
    | item i => exact absurd List.nil_prefix hq.1
    | field name =>
      obtain ⟨inner, hinner, rfl⟩ : ∃ inner,
          assign v steps ((old.fields.lookup name).getD missing) = some inner ∧
          table (Entries.set name inner old.fields) = new := by
        simpa [assign, Option.bind_eq_some_iff] using h
      exact find?_set_of_apart hq fun rest hrest => ih hinner hrest

end Key

end Gherkin.Settings
