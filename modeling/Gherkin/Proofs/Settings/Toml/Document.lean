import Mathlib.Data.List.Induction
import Gherkin.Proofs.Settings.Toml.Table
import Gherkin.Settings.Toml.Document

/-! What a settings file says. Each entry leaves what was said before it; a pair says in addition
what its value says, under the names of the table that is open and of its key. So the table that is
read from a file says what its pairs say: all of it, and nothing else. -/

namespace Gherkin.Settings.Toml

open Value

/-! ### One entry -/

/-- The table that an entry opens, if it is a header. -/
def Entry.opens? : Entry → Option (List Text)
  | header key => some key.names
  | nextHeader key => some key.names
  | _ => none

namespace State

variable {s s' : State} {e : Entry}

theorem current_add (h : s.add e = some s') : s'.current = e.opens?.getD s.current := by
  cases e with
  | blank =>
    obtain rfl := Option.some.inj h
    rfl
  | header key =>
    obtain ⟨root, -, rfl⟩ := Option.map_eq_some_iff.1 h
    rfl
  | nextHeader key =>
    obtain ⟨root, -, rfl⟩ := Option.map_eq_some_iff.1 h
    rfl
  | pair key v =>
    obtain ⟨root, -, rfl⟩ := Option.map_eq_some_iff.1 h
    rfl

/-- A pair says what its value says, where nothing was before. -/
theorem receives_add {key : Key} {v : Value} (h : s.add (.pair key v) = some s') :
    Receives v (s.current ++ key.names) (content s.root) (content s'.root) := by
  obtain ⟨root, hroot, rfl⟩ := Option.map_eq_some_iff.1 h
  exact alter_receives (fun _ _ _ => assign_receives) hroot

/-- Any other entry says nothing. -/
theorem same_add (h : s.add e = some s') (he : ∀ key v, e ≠ .pair key v) :
    Same (content s.root) (content s'.root) := by
  cases e with
  | blank =>
    obtain rfl := Option.some.inj h
    exact same_iff.2 fun _ _ => Iff.rfl
  | header key =>
    obtain ⟨root, hroot, rfl⟩ := Option.map_eq_some_iff.1 h
    exact openTable_same hroot
  | nextHeader key =>
    obtain ⟨root, hroot, rfl⟩ := Option.map_eq_some_iff.1 h
    exact openNext_same hroot
  | pair key v => exact absurd rfl (he key v)

/-- What was said before an entry is said after it. -/
theorem tells_add {place : Place} {x : Scalar} (h : s.add e = some s')
    (htells : (content s.root).Tells place x) : (content s'.root).Tells place x := by
  by_cases he : ∃ key v, e = .pair key v
  · obtain ⟨key, v, rfl⟩ := he
    obtain ⟨front, -, -, hgains⟩ := receives_add h
    exact (hgains place x).2 (.inl htells)
  · push Not at he
    exact (same_iff.1 (same_add h he) place x).2 htells

end State

/-! ### All entries -/

/-- The table that is open after entries. -/
def opened (es : List Entry) : List Text := es.foldl (fun current e => e.opens?.getD current) []

/-- What the pairs among entries say, each under the names of the table that is open and of its
key. -/
def Said (es : List Entry) (place : Place) (x : Scalar) : Prop :=
  ∃ before key v after, es = before ++ .pair key v :: after ∧ ∃ front rest : Place,
    front.names = opened before ++ key.names ∧ place = front ++ rest ∧ v.Tells rest x

section Run

variable {s s' : State} {es before after : List Entry} {e : Entry} {key : Key} {v : Value}
  {place : Place} {x : Scalar}

theorem foldlM_append_cons (h : (before ++ e :: after).foldlM State.add s = some s') :
    ∃ mid next, before.foldlM State.add s = some mid ∧ mid.add e = some next ∧
      after.foldlM State.add next = some s' := by
  rw [List.foldlM_append] at h
  obtain ⟨mid, hmid, hrest⟩ := Option.bind_eq_some_iff.1 h
  rw [List.foldlM_cons] at hrest
  obtain ⟨next, hnext, hafter⟩ := Option.bind_eq_some_iff.1 hrest
  exact ⟨mid, next, hmid, hnext, hafter⟩

theorem Said.append (h : Said es place x) (more : List Entry) : Said (es ++ more) place x := by
  obtain ⟨before, key, v, after, rfl, hsaid⟩ := h
  exact ⟨before, key, v, after ++ more, by simp, hsaid⟩

theorem current_foldlM (h : es.foldlM State.add ⟨[], []⟩ = some s) : s.current = opened es := by
  induction es using List.reverseRecOn generalizing s with
  | nil =>
    obtain rfl := Option.some.inj h
    rfl
  | append_singleton es e ih =>
    obtain ⟨mid, next, hmid, hnext, hs⟩ := foldlM_append_cons h
    obtain rfl := Option.some.inj hs
    rw [State.current_add hnext, ih hmid, opened, opened, List.foldl_append]
    rfl

/-- What each entry keeps is kept by all of them. -/
theorem foldlM_keeps {P : State → Prop} (hstep : ∀ e ∈ es, ∀ s s', s.add e = some s' → P s → P s')
    (h : es.foldlM State.add s = some s') (hs : P s) : P s' := by
  induction es generalizing s with
  | nil =>
    obtain rfl := Option.some.inj h
    exact hs
  | cons e es ih =>
    rw [List.foldlM_cons] at h
    obtain ⟨mid, hmid, hrest⟩ := Option.bind_eq_some_iff.1 h
    obtain ⟨hone, hmore⟩ := List.forall_mem_cons.1 hstep
    exact ih hmore hrest (hone s mid hmid hs)

theorem tells_foldlM (h : es.foldlM State.add s = some s')
    (htells : (content s.root).Tells place x) : (content s'.root).Tells place x :=
  foldlM_keeps (P := fun s => (content s.root).Tells place x)
    (fun _ _ _ _ hadd => State.tells_add hadd) h htells

/-- Whatever is read was said by a pair. -/
theorem said_of_tells (h : es.foldlM State.add ⟨[], []⟩ = some s)
    (htells : (content s.root).Tells place x) : Said es place x := by
  induction es using List.reverseRecOn generalizing s with
  | nil =>
    obtain rfl := Option.some.inj h
    exact absurd htells (not_tells_content_nil place x)
  | append_singleton es e ih =>
    obtain ⟨mid, next, hmid, hnext, hs⟩ := foldlM_append_cons h
    obtain rfl := Option.some.inj hs
    by_cases he : ∃ key v, e = .pair key v
    · obtain ⟨key, v, rfl⟩ := he
      obtain ⟨front, hfront, -, hgains⟩ := State.receives_add hnext
      rcases (hgains place x).1 htells with hold | ⟨rest, hplace, hrest⟩
      · exact (ih hmid hold).append _
      · rw [current_foldlM hmid] at hfront
        exact ⟨es, key, v, [], rfl, front, rest, hfront, hplace, hrest⟩
    · push Not at he
      exact (ih hmid ((same_iff.1 (State.same_add hnext he) place x).1 htells)).append _

/-- Whatever a pair says is read, at one place under the names of its table and its key. -/
theorem exists_front_of_pair
    (h : (before ++ .pair key v :: after).foldlM State.add ⟨[], []⟩ = some s) :
    ∃ front : Place, front.names = opened before ++ key.names ∧
      ∀ rest x, v.Tells rest x → (content s.root).Tells (front ++ rest) x := by
  obtain ⟨mid, next, hmid, hnext, hrun⟩ := foldlM_append_cons h
  obtain ⟨front, hfront, -, hgains⟩ := State.receives_add hnext
  rw [current_foldlM hmid] at hfront
  refine ⟨front, hfront, fun rest x hrest => tells_foldlM hrun ?_⟩
  exact (hgains _ x).2 (.inr ⟨rest, rfl, hrest⟩)

/-! ### Files -/

/-- The entries of a text. A byte order mark at its start does not count. -/
def textEntries? (source : Text) : Option (List Entry) :=
  let t := (Text.after? ['\ufeff'] source).getD source
  entries? (t.length + 1) t

theorem parse?_eq (source : Text) :
    parse? source = (textEntries? source).bind fun es =>
      (es.foldlM State.add ⟨[], []⟩).map fun s => Item.fieldValues s.root := by
  simp only [Option.map_eq_bind]
  rfl

/-- The table that is read from a text says what its pairs say. -/
theorem tells_of_parse? {source : Text} {fields : List (Text × Value)}
    (h : parse? source = some fields) : ∃ es, textEntries? source = some es ∧
      (∀ place x, (Value.table fields).Tells place x → Said es place x) ∧
      ∀ before key v after, es = before ++ .pair key v :: after → ∃ front : Place,
        front.names = opened before ++ key.names ∧
          ∀ rest x, v.Tells rest x → (Value.table fields).Tells (front ++ rest) x := by
  rw [parse?_eq] at h
  obtain ⟨es, hes, hrun⟩ := Option.bind_eq_some_iff.1 h
  obtain ⟨s, hs, rfl⟩ := Option.map_eq_some_iff.1 hrun
  refine ⟨es, hes, fun place x => said_of_tells hs, ?_⟩
  rintro before key v after rfl
  exact exists_front_of_pair hs

end Run

end Gherkin.Settings.Toml
