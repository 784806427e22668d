import Gherkin.Proofs.Settings.Merge
import Gherkin.Settings.Toml.Table

/-! Tables as they are filled. What a value says are its scalars, each at a place. Opening a table
says nothing; giving a value to a key says what the value says, at a place under the names of the
key where nothing was before, and leaves everything that was said as it was. Changes deep in a table
reach its top field by field, and one rule lifts a relation between the tables of a field to the
tables that hold the field. -/

namespace Gherkin.Settings

/-! ### Places -/

/-- The way into a value, by the names of fields and the numbers of items. -/
abbrev Place := List (Text ⊕ ℕ)

/-- The names on the way. -/
def Place.names (place : Place) : List Text := place.filterMap Sum.getLeft?

/-- What is said at the end of a way is said at the end of a longer one. -/
def Place.under (front : Place) (said : Place → Scalar → Prop) : Place → Scalar → Prop :=
  fun place x => ∃ rest, place = front ++ rest ∧ said rest x

namespace Value

/-- What one turn leads to. -/
def inner? (v : Value) : Text ⊕ ℕ → Option Value
  | .inl name => v.fields.lookup name
  | .inr i => v.items[i]?

/-- What is at a place of a value. -/
def at? (place : Place) (v : Value) : Option Value := place.foldlM inner? v

/-- What a value says: its scalars, each at a place. -/
def Tells (v : Value) (place : Place) (x : Scalar) : Prop := v.at? place = some (scalar x)

/-- The new value says what the old one says and what is said besides. -/
def Gains (said : Place → Scalar → Prop) (old new : Value) : Prop :=
  ∀ place x, new.Tells place x ↔ old.Tells place x ∨ said place x

/-- The values say the same. -/
def Same : Value → Value → Prop := Gains fun _ _ => False

/-- The new value has `v` at a place under the names where the old one has nothing, and says nothing
else besides. -/
def Receives (v : Value) (names : List Text) (old new : Value) : Prop :=
  ∃ front : Place, front.names = names ∧ old.at? front = none ∧ Gains (front.under v.Tells) old new

variable {v w old new last : Value} {said : Place → Scalar → Prop}

theorem at?_cons (turn : Text ⊕ ℕ) (place : Place) (v : Value) :
    at? (turn :: place) v = (v.inner? turn).bind (at? place) := List.foldlM_cons

/-- A value with nothing in it says nothing. -/
theorem not_tells_of_empty (hscalar : ∀ x, v ≠ scalar x) (hfields : v.fields = [])
    (hitems : v.items = []) (place : Place) (x : Scalar) : ¬v.Tells place x := by
  cases place with
  | nil => exact fun h => hscalar x (Option.some.inj h)
  | cons turn place =>
    rw [Tells, at?_cons]
    cases turn with
    | inl name =>
      rw [inner?, hfields]
      exact nofun
    | inr i =>
      rw [inner?, hitems]
      exact nofun

theorem not_tells_missing : ∀ (place : Place) (x : Scalar), ¬missing.Tells place x :=
  not_tells_of_empty nofun rfl rfl

theorem tells_cons {turn : Text ⊕ ℕ} {place : Place} {x : Scalar} :
    v.Tells (turn :: place) x ↔ ((v.inner? turn).getD missing).Tells place x := by
  rw [Tells, at?_cons]
  cases v.inner? turn with
  | none => exact ⟨nofun, fun h => absurd h (not_tells_missing place x)⟩
  | some w => rfl

theorem under_cons {turn : Text ⊕ ℕ} {place : Place} {x : Scalar} :
    Place.under [turn] said (turn :: place) x ↔ said place x := by
  simp [Place.under]

theorem under_append (front back : Place) (said : Place → Scalar → Prop) :
    Place.under (front ++ back) said = Place.under front (Place.under back said) := by
  funext place x
  apply propext
  constructor
  · rintro ⟨rest, rfl, hsaid⟩
    exact ⟨back ++ rest, List.append_assoc front back rest, rest, rfl, hsaid⟩
  · rintro ⟨_, rfl, rest, rfl, hsaid⟩
    exact ⟨rest, (List.append_assoc front back rest).symm, hsaid⟩

/-- Values that differ at one turn only gain what is gained there. -/
theorem gains_of_turn {turn : Text ⊕ ℕ} (hold : ∀ x, old ≠ scalar x) (hnew : ∀ x, new ≠ scalar x)
    (hturn : Gains said ((old.inner? turn).getD missing) ((new.inner? turn).getD missing))
    (hother : ∀ other, other ≠ turn → new.inner? other = old.inner? other) :
    Gains (Place.under [turn] said) old new := by
  intro place x
  cases place with
  | nil => simp [Tells, at?, hold x, hnew x, Place.under]
  | cons other place =>
    rw [tells_cons, tells_cons]
    by_cases h : other = turn
    · rw [h, under_cons]
      exact hturn place x
    · rw [hother other h]
      simp [Place.under, h]

theorem gains_field {name : Text} {fields : List (Text × Value)}
    (h : Gains said ((fields.lookup name).getD missing) w) :
    Gains (Place.under [.inl name] said) (table fields) (table (Entries.set name w fields)) := by
  refine gains_of_turn nofun nofun ?_ ?_
  · rw [inner?, inner?, fields_table, fields_table, Entries.lookup_set_self]
    exact h
  · intro other hother
    cases other with
    | inl other =>
      have hne : other ≠ name := fun heq => hother (congrArg Sum.inl heq)
      exact Entries.lookup_set_of_ne hne w fields
    | inr i => rfl

theorem gains_last {earlier : List Value} (h : Gains said last w) :
    Gains (Place.under [.inr earlier.length] said) (list (earlier ++ [last]))
      (list (earlier ++ [w])) := by
  refine gains_of_turn nofun nofun ?_ ?_
  · simpa [inner?, items] using h
  · intro other hother
    cases other with
    | inl name => rfl
    | inr i =>
      have hne : i ≠ earlier.length := fun heq => hother (congrArg Sum.inr heq)
      rcases Nat.lt_or_gt_of_ne hne with hlt | hgt
      · simp [inner?, items, List.getElem?_append_left hlt]
      · have hlength : (earlier ++ [last]).length ≤ i := by simp; omega
        have hlength' : (earlier ++ [w]).length ≤ i := by simp; omega
        rw [inner?, inner?, items, items, List.getElem?_eq_none hlength,
          List.getElem?_eq_none hlength']

theorem same_iff : Same old new ↔ ∀ place x, new.Tells place x ↔ old.Tells place x := by
  simp [Same, Gains]

theorem under_false (front : Place) :
    (Place.under front fun _ _ => False) = fun _ _ => False := by
  simp [funext_iff, Place.under]

/-- One more item that says nothing. -/
theorem same_append (items : List Value) (h : ∀ place x, ¬w.Tells place x) :
    Same (list items) (list (items ++ [w])) := by
  refine same_iff.2 fun place x => ?_
  cases place with
  | nil => exact ⟨nofun, nofun⟩
  | cons turn place =>
    rw [tells_cons, tells_cons]
    cases turn with
    | inl name => rfl
    | inr i =>
      show (((items ++ [w])[i]?).getD missing).Tells place x ↔
        ((items[i]?).getD missing).Tells place x
      rcases Nat.lt_trichotomy i items.length with hlt | rfl | hgt
      · rw [List.getElem?_append_left hlt]
      · simp [h, not_tells_missing]
      · have hlength : (items ++ [w]).length ≤ i := by simp; omega
        rw [List.getElem?_eq_none hlength, List.getElem?_eq_none (Nat.le_of_lt hgt)]

end Value

namespace Toml

open Value

/-! ### Fields while they are read -/

/-- The table that fields amount to. -/
def content (fields : List (Text × Item)) : Value := .table (Item.fieldValues fields)

namespace Item

theorem lookup_fieldValues (name : Text) (fields : List (Text × Item)) :
    (fieldValues fields).lookup name = (fields.lookup name).map toValue := by
  induction fields with
  | nil => rfl
  | cons f fields ih =>
    obtain ⟨other, i⟩ := f
    rw [fieldValues, List.lookup_cons, List.lookup_cons, ih]
    cases name == other <;> rfl

theorem fieldValues_set (name : Text) (i : Item) (fields : List (Text × Item)) :
    fieldValues (Entries.set name i fields) = Entries.set name i.toValue (fieldValues fields) := by
  induction fields with
  | nil => rfl
  | cons f fields ih =>
    obtain ⟨other, j⟩ := f
    rw [fieldValues, Entries.set, Entries.set]
    split
    · rfl
    · rw [fieldValues, ih]

end Item

/-- The table inside a field, which is a new one where there is no field yet, and the field that
holds another table in its place. -/
inductive Holds (fresh : Origin) :
    Option Item → List (Text × Item) → (List (Text × Item) → Item) → Prop
  | made : Holds fresh none [] (.table fresh)
  | table {origin old} : Holds fresh (some (.table origin old)) old (.table origin)
  | last {earlier old} : Holds fresh (some (.tables earlier old)) old (.tables earlier)

section Alter

variable {fresh origin : Origin} {name : Text} {path : List Text} {key : Key} {v : Value}
  {change : Origin → List (Text × Item) → Option (List (Text × Item))}
  {fields new root : List (Text × Item)}

theorem alter_cons (h : alter fresh change (name :: path) origin fields = some new) :
    ∃ inner old hold next, Holds fresh (fields.lookup name) old hold ∧
      alter fresh change path inner old = some next ∧
      Entries.set name (hold next) fields = new := by
  rw [alter] at h
  split at h
  · next hnone =>
    obtain ⟨next, hnext, hnew⟩ := Option.map_eq_some_iff.1 h
    rw [hnone]
    exact ⟨fresh, [], .table fresh, next, .made, hnext, hnew⟩
  · cases h
  · next inner old htable =>
    split at h
    · cases h
    · obtain ⟨next, hnext, hnew⟩ := Option.map_eq_some_iff.1 h
      rw [htable]
      exact ⟨inner, old, .table inner, next, .table, hnext, hnew⟩
  · next earlier old htables =>
    obtain ⟨next, hnext, hnew⟩ := Option.map_eq_some_iff.1 h
    rw [htables]
    exact ⟨.header, old, .tables earlier, next, .last, hnext, hnew⟩

/-- A relation that a change brings about in a table, and that tables inherit from the tables in
their fields, is brought about at the end of every path. -/
theorem alter_lift {R : List Text → List (Text × Item) → List (Text × Item) → Prop}
    (hchange : ∀ origin old new, change origin old = some new → R [] old new)
    (hlift : ∀ name path fields old hold next, Holds fresh (fields.lookup name) old hold →
      R path old next → R (name :: path) fields (Entries.set name (hold next) fields))
    (h : alter fresh change path origin fields = some new) : R path fields new := by
  induction path generalizing origin fields new with
  | nil => exact hchange origin fields new h
  | cons name path ih =>
    obtain ⟨inner, old, hold, next, hholds, hnext, rfl⟩ := alter_cons h
    exact hlift name path fields old hold next hholds (ih hnext)

theorem content_set (name : Text) (i : Item) (fields : List (Text × Item)) :
    content (Entries.set name i fields) =
      .table (Entries.set name i.toValue (Item.fieldValues fields)) := by
  rw [content, Item.fieldValues_set]

theorem inner?_content (name : Text) (fields : List (Text × Item)) :
    (content fields).inner? (.inl name) = (fields.lookup name).map Item.toValue :=
  Item.lookup_fieldValues name fields

theorem not_tells_content_nil : ∀ (place : Place) (x : Scalar), ¬(content []).Tells place x :=
  not_tells_of_empty nofun rfl rfl

/-- What is gained in the table inside a field is gained under the name of the field. -/
theorem Holds.exists_front {old : List (Text × Item)} {hold : List (Text × Item) → Item}
    (h : Holds fresh (fields.lookup name) old hold) :
    ∃ front : Place, front.names = [name] ∧
      (∀ place, (content old).at? place = none → (content fields).at? (front ++ place) = none) ∧
      ∀ said next, Gains said (content old) (content next) →
        Gains (front.under said) (content fields)
          (content (Entries.set name (hold next) fields)) := by
  have hlookup := Item.lookup_fieldValues name fields
  generalize fields.lookup name = found at h hlookup
  have hinner : (content fields).inner? (.inl name) = found.map Item.toValue := hlookup
  cases h with
  | made =>
    refine ⟨[.inl name], rfl, fun place _ => ?_, fun said next hgains => ?_⟩
    · rw [List.singleton_append, at?_cons, hinner]
      rfl
    · rw [content_set]
      apply gains_field
      rw [hlookup]
      intro place x
      rw [Item.toValue, ← content, hgains place x]
      simp [not_tells_missing, not_tells_content_nil]
  | table =>
    refine ⟨[.inl name], rfl, fun place hnone => ?_, fun said next hgains => ?_⟩
    · rw [List.singleton_append, at?_cons, hinner]
      exact hnone
    · rw [content_set]
      apply gains_field
      rw [hlookup]
      exact hgains
  | @last earlier =>
    -- the way into the last table of a list takes one turn more
    refine ⟨[.inl name, .inr earlier.length], rfl, fun place hnone => ?_,
      fun said next hgains => ?_⟩
    · rw [List.cons_append, at?_cons, hinner, Option.map_some, Option.bind_some,
        List.singleton_append, at?_cons, Item.toValue]
      simpa [inner?, Value.items, content] using hnone
    · rw [content_set, List.singleton_append.symm, under_append]
      apply gains_field
      rw [hlookup]
      exact gains_last hgains

theorem alter_receives {names : List Text}
    (hchange : ∀ origin old new, change origin old = some new →
      Receives v names (content old) (content new))
    (h : alter fresh change path origin fields = some new) :
    Receives v (path ++ names) (content fields) (content new) := by
  refine alter_lift (R := fun path old new =>
    Receives v (path ++ names) (content old) (content new)) hchange ?_ h
  rintro name path fields old hold next hholds ⟨back, hback, hnone, hgains⟩
  obtain ⟨front, hfront, hfresh, hlift⟩ := hholds.exists_front
  refine ⟨front ++ back, ?_, hfresh back hnone, ?_⟩
  · rw [Place.names, List.filterMap_append, ← Place.names, ← Place.names, hfront, hback]
    rfl
  · rw [under_append]
    exact hlift _ next hgains

theorem alter_same
    (hchange : ∀ origin old new, change origin old = some new → Same (content old) (content new))
    (h : alter fresh change path origin fields = some new) :
    Same (content fields) (content new) := by
  refine alter_lift (R := fun _ old new => Same (content old) (content new)) hchange ?_ h
  intro name path fields old hold next hholds hsame
  obtain ⟨front, -, -, hlift⟩ := hholds.exists_front
  have hgains := hlift _ next hsame
  rw [under_false] at hgains
  exact hgains

/-! ### Keys and headers -/

/-- The names on the way to a field, and its own. -/
def Key.names (key : Key) : List Text := key.path ++ [key.name]

theorem set_same {i : Item}
    (h : Same (((fields.lookup name).map Item.toValue).getD .missing) i.toValue) :
    Same (content fields) (content (Entries.set name i fields)) := by
  rw [content_set, Same, ← under_false [.inl name]]
  apply gains_field
  rw [Item.lookup_fieldValues]
  exact h

/-- A value is given to a key that has none. -/
theorem assign_receives (h : assign key v origin fields = some new) :
    Receives v key.names (content fields) (content new) := by
  refine alter_receives (fun inner old next hnext => ?_) h
  split at hnext
  · next hfree =>
    obtain rfl := Option.some.inj hnext
    have hnone := Option.isNone_iff_eq_none.1 hfree.2
    have hinner := inner?_content key.name old
    rw [hnone] at hinner
    refine ⟨[.inl key.name], rfl, ?_, ?_⟩
    · rw [at?_cons, hinner]
      rfl
    · rw [content_set]
      refine gains_field fun place x => ?_
      rw [Item.lookup_fieldValues, hnone]
      simp [Item.toValue, not_tells_missing]
  · cases hnext

/-- A header says nothing. -/
theorem openTable_same (h : openTable key root = some new) : Same (content root) (content new) := by
  refine alter_same (fun inner old next hnext => ?_) h
  split at hnext
  · next hnone =>
    obtain rfl := Option.some.inj hnext
    refine set_same ?_
    rw [hnone]
    exact same_iff.2 fun place x =>
      iff_of_false (not_tells_content_nil place x) (not_tells_missing place x)
  · next fields hfields =>
    obtain rfl := Option.some.inj hnext
    refine set_same ?_
    rw [hfields]
    exact same_iff.2 fun _ _ => Iff.rfl
  · cases hnext

/-- Nor does the header of a further table in a list. -/
theorem openNext_same (h : openNext key root = some new) : Same (content root) (content new) := by
  refine alter_same (fun inner old next hnext => ?_) h
  split at hnext
  · next hnone =>
    obtain rfl := Option.some.inj hnext
    refine set_same ?_
    rw [hnone]
    have hone := same_iff.1 (same_append [] not_tells_content_nil)
    have hlist : ∀ (place : Place) (x : Scalar), ¬(list []).Tells place x :=
      not_tells_of_empty nofun rfl rfl
    exact same_iff.2 fun place x => (hone place x).trans
      (iff_of_false (hlist place x) (not_tells_missing place x))
  · next earlier last hfields =>
    obtain rfl := Option.some.inj hnext
    refine set_same ?_
    rw [hfields]
    exact same_append _ not_tells_content_nil
  · cases hnext

end Alter

end Toml

end Gherkin.Settings
