import Mathlib.Data.List.Perm.Basic
import Gherkin.Element.Rows

/-! The rows of an examples block under calls that add and remove argument rows, in any order and
with any values. One call does one of three things: it puts a row with a value for each parameter
at the end, it takes away one argument row, or it leaves the block as it is. So the parameter row
stays, all rows keep its length, and the number of argument rows is known from what came of the
calls. Adding a row and removing it again restores the rows up to their order. -/

namespace Gherkin.Example

/-- A call on the rows of a block, with pairs of a parameter and a value. -/
inductive Call
  | add (values : List (Text × Text))
  | remove (values : List (Text × Text))

/-- What comes of a call. -/
inductive Outcome
  | added
  | refused
  | removed
  | absent
deriving DecidableEq

/-- What comes of a call, and the block after it. -/
def call (e : Example) : Call → Outcome × Example
  | .add values =>
    match Rows.add? e.rows values with
    | some rows => (.added, { e with rows })
    | none => (.refused, e)
  | .remove values =>
    match Rows.remove? e.rows values with
    | some rows => (.removed, { e with rows })
    | none => (.absent, e)

/-- The block after calls made one after the other. -/
def after (e : Example) : List Call → Example
  | [] => e
  | c :: calls => (e.call c).2.after calls

/-- What comes of calls made one after the other. -/
def outcomes (e : Example) : List Call → List Outcome
  | [] => []
  | c :: calls => (e.call c).1 :: (e.call c).2.outcomes calls

/-- The value is the first that is given for the parameter, or empty when none is. -/
def Gives (values : List (Text × Text)) (parameter value : Text) : Prop :=
  (∃ before after, values = before ++ (parameter, value) :: after ∧
    ∀ pair ∈ before, pair.1 ≠ parameter) ∨
  (∀ pair ∈ values, pair.1 ≠ parameter) ∧ value = []

/-- The row is the one that adding the values puts at the end. -/
def Adds (e : Example) (values : List (Text × Text)) (row : List Text) : Prop :=
  e.call (.add values) = (.added, { e with rows := e.rows ++ [row] })

/-- What a block does with values, whether a row is added for them or removed. -/
structure Answers (e : Example) (values : List (Text × Text)) : Prop where
  refused_iff : (e.call (.add values)).1 = .refused ↔ e.rows = [] ∨ e.rows.head? = some []
  add : e.call (.add values) = (.refused, e) ∨
    ∃ row, e.Adds values row ∧ List.Forall₂ (Gives values) e.parameters row
  remove : (∀ row, e.Adds values row → row ∉ e.argumentRows) ∧
      e.call (.remove values) = (.absent, e) ∨
    ∃ before row after, e.Adds values row ∧ e.argumentRows = before ++ row :: after ∧
      row ∉ before ∧
      e.call (.remove values) = (.removed, { e with rows := e.parameters :: (before ++ after) })
  perm : ((e.call (.add values)).2.after [.remove values]).argumentRows.Perm e.argumentRows
  undone : (∀ row, e.Adds values row → row ∉ e.argumentRows) →
    (e.call (.add values)).2.after [.remove values] = e

/-- What becomes of a block by calls of which the outcomes come: its parameter row and all but its
rows stay, every row is as long as the parameter row, and the argument rows are counted. -/
structure Keeps (e : Example) (outcomes : List Outcome) (last : Example) : Prop where
  parameterRow : last.rows.head? = e.rows.head?
  length : ∀ row ∈ last.rows, row.length = e.parameters.length
  count : last.argumentRows.length + outcomes.count .removed =
    e.argumentRows.length + outcomes.count .added
  rest : { last with rows := e.rows } = e

variable {e : Example} {values : List (Text × Text)} {row : List Text}

/-! ### One call -/

theorem rows_eq_cons (h : e.parameters ≠ []) : e.rows = e.parameters :: e.argumentRows := by
  rw [parameters, argumentRows] at *
  cases hrows : e.rows with
  | nil => exact absurd (congrArg (List.headD · []) hrows) h
  | cons => rfl

theorem rowFor?_of_nil (h : e.parameters = []) (values : List (Text × Text)) :
    Rows.rowFor? e.rows values = none := by
  rw [parameters] at h
  rw [Rows.rowFor?, h]

theorem rowFor?_of_ne_nil (h : e.parameters ≠ []) (values : List (Text × Text)) :
    Rows.rowFor? e.rows values = some (e.parameters.map (Rows.valueOf values)) := by
  obtain ⟨name, names, hnames⟩ := List.exists_cons_of_ne_nil h
  rw [parameters] at hnames
  rw [Rows.rowFor?, parameters, hnames]

theorem call_add_of_nil (h : e.parameters = []) (values : List (Text × Text)) :
    e.call (.add values) = (.refused, e) := by
  rw [call, Rows.add?, rowFor?_of_nil h]
  rfl

theorem call_remove_of_nil (h : e.parameters = []) (values : List (Text × Text)) :
    e.call (.remove values) = (.absent, e) := by
  have hnone : Rows.remove? e.rows values = none := by
    unfold Rows.remove?
    rw [rowFor?_of_nil h]
    cases e.rows <;> rfl
  rw [call, hnone]

theorem adds_of_ne_nil (h : e.parameters ≠ []) (values : List (Text × Text)) :
    e.Adds values (e.parameters.map (Rows.valueOf values)) := by
  rw [Adds, call, Rows.add?, rowFor?_of_ne_nil h]
  rfl

theorem remove?_of_ne_nil (h : e.parameters ≠ []) (values : List (Text × Text)) :
    Rows.remove? e.rows values =
      if e.parameters.map (Rows.valueOf values) ∈ e.argumentRows then
        some (e.parameters :: e.argumentRows.erase (e.parameters.map (Rows.valueOf values)))
      else none := by
  unfold Rows.remove?
  rw [rowFor?_of_ne_nil h, rows_eq_cons h]

theorem call_remove_of_not_mem (h : e.parameters ≠ [])
    (hrow : e.parameters.map (Rows.valueOf values) ∉ e.argumentRows) :
    e.call (.remove values) = (.absent, e) := by
  rw [call, remove?_of_ne_nil h, if_neg hrow]

theorem call_remove_of_mem (h : e.parameters ≠ [])
    (hrow : e.parameters.map (Rows.valueOf values) ∈ e.argumentRows) :
    e.call (.remove values) = (.removed, { e with
      rows := e.parameters :: e.argumentRows.erase (e.parameters.map (Rows.valueOf values)) }) := by
  rw [call, remove?_of_ne_nil h, if_pos hrow]

/-- There is one row at most that the values add. -/
theorem Adds.eq_map (h : e.Adds values row) :
    e.parameters ≠ [] ∧ row = e.parameters.map (Rows.valueOf values) := by
  have hne : e.parameters ≠ [] := by
    intro hnil
    rw [Adds, call_add_of_nil hnil] at h
    cases h
  rw [Adds, adds_of_ne_nil hne values] at h
  have hrows := congrArg (fun result => result.2.rows) h
  exact ⟨hne, (List.singleton_inj.1 (List.append_cancel_left hrows)).symm⟩

/-- A call puts one row as long as the parameter row at the end, takes away one argument row, or
leaves the block as it is. -/
theorem call_cases (e : Example) (c : Call) :
    (∃ row, row.length = e.parameters.length ∧ e.parameters ≠ [] ∧
      e.call c = (.added, { e with rows := e.rows ++ [row] })) ∨
    (∃ before row after, e.rows = e.parameters :: (before ++ row :: after) ∧
      e.call c = (.removed, { e with rows := e.parameters :: (before ++ after) })) ∨
    e.call c = (.refused, e) ∨ e.call c = (.absent, e) := by
  by_cases h : e.parameters = []
  · cases c with
    | add values => exact .inr (.inr (.inl (call_add_of_nil h values)))
    | remove values => exact .inr (.inr (.inr (call_remove_of_nil h values)))
  · cases c with
    | add values => exact .inl ⟨_, List.length_map _, h, adds_of_ne_nil h values⟩
    | remove values =>
      by_cases hrow : e.parameters.map (Rows.valueOf values) ∈ e.argumentRows
      · obtain ⟨before, after, -, hrows, herase⟩ := List.exists_erase_eq hrow
        refine .inr (.inl ⟨before, e.parameters.map (Rows.valueOf values), after, ?_, ?_⟩)
        · rw [← hrows]
          exact rows_eq_cons h
        · rw [call_remove_of_mem h hrow, herase]
      · exact .inr (.inr (.inr (call_remove_of_not_mem h hrow)))

/-! ### What a block does with values -/

theorem gives_valueOf (values : List (Text × Text)) (parameter : Text) :
    Gives values parameter (Rows.valueOf values parameter) := by
  cases hlookup : values.lookup parameter with
  | none =>
    refine .inr ⟨fun pair hpair hname => ?_, by rw [Rows.valueOf, hlookup]; rfl⟩
    have hne := List.lookup_eq_none_iff.1 hlookup pair hpair
    rw [hname, bne_self_eq_false] at hne
    cases hne
  | some value =>
    obtain ⟨before, after, hvalues, hbefore⟩ := List.lookup_eq_some_iff.1 hlookup
    have hvalue : Rows.valueOf values parameter = value := by rw [Rows.valueOf, hlookup]; rfl
    rw [hvalue]
    refine .inl ⟨before, after, hvalues, fun pair hpair hname => ?_⟩
    have hne := hbefore pair hpair
    rw [hname, bne_self_eq_false] at hne
    cases hne

theorem parameters_eq_nil_iff : e.parameters = [] ↔ e.rows = [] ∨ e.rows.head? = some [] := by
  rw [parameters]
  cases e.rows <;> simp

theorem parameters_concat (h : e.parameters ≠ []) (row : List Text) :
    parameters { e with rows := e.rows ++ [row] } = e.parameters := by
  rw [parameters, rows_eq_cons h]
  rfl

theorem argumentRows_concat (h : e.parameters ≠ []) (row : List Text) :
    argumentRows { e with rows := e.rows ++ [row] } = e.argumentRows ++ [row] := by
  rw [argumentRows, rows_eq_cons h]
  rfl

theorem perm_erase_append (rows : List (List Text)) (row : List Text) :
    ((rows ++ [row]).erase row).Perm rows := by
  have hperm := List.perm_append_singleton row rows
  simpa using hperm.erase row

/-- Adding a row and removing it takes away the first argument row that is equal to it. -/
theorem after_add_remove (h : e.parameters ≠ []) (values : List (Text × Text)) :
    (e.call (.add values)).2.after [.remove values] = { e with
      rows := e.parameters ::
        (e.argumentRows ++ [e.parameters.map (Rows.valueOf values)]).erase
          (e.parameters.map (Rows.valueOf values)) } := by
  have hadd : e.call (.add values) = _ := adds_of_ne_nil h values
  have hparameters := parameters_concat h (e.parameters.map (Rows.valueOf values))
  have harguments := argumentRows_concat h (e.parameters.map (Rows.valueOf values))
  rw [hadd, after, after, call_remove_of_mem]
  · rw [hparameters, harguments]
  · rwa [hparameters]
  · rw [hparameters, harguments]
    exact List.mem_concat_self

theorem answers (e : Example) (values : List (Text × Text)) : e.Answers values := by
  by_cases h : e.parameters = []
  · have hadd := call_add_of_nil h values
    have hremove := call_remove_of_nil h values
    have hback : (e.call (.add values)).2.after [.remove values] = e := by
      rw [hadd, after, hremove]
      rfl
    have hnone (row : List Text) : ¬e.Adds values row := fun hrow => hrow.eq_map.1 h
    exact {
      refused_iff := iff_of_true (by rw [hadd]) (parameters_eq_nil_iff.1 h)
      add := .inl hadd
      remove := .inl ⟨fun row hrow => absurd hrow (hnone row), hremove⟩
      perm := by rw [hback]
      undone := fun _ => hback }
  · have hadds := adds_of_ne_nil h values
    have hback := after_add_remove h values
    refine ⟨?_, .inr ⟨_, hadds, ?_⟩, ?_, ?_, fun hrow => ?_⟩
    · rw [← parameters_eq_nil_iff, show e.call (.add values) = _ from hadds]
      exact iff_of_false (by simp) h
    · rw [List.forall₂_map_right_iff, List.forall₂_same]
      exact fun parameter _ => gives_valueOf values parameter
    · by_cases hrow : e.parameters.map (Rows.valueOf values) ∈ e.argumentRows
      · obtain ⟨before, after, hbefore, hrows, herase⟩ := List.exists_erase_eq hrow
        refine .inr ⟨before, _, after, hadds, hrows, hbefore, ?_⟩
        rw [call_remove_of_mem h hrow, herase]
      · refine .inl ⟨fun row hadd => ?_, call_remove_of_not_mem h hrow⟩
        rwa [hadd.eq_map.2]
    · rw [hback, argumentRows, List.tail_cons]
      exact perm_erase_append _ _
    · have hnot := hrow _ hadds
      rw [hback, List.erase_append_right _ hnot, List.erase_cons_head, List.append_nil,
        ← rows_eq_cons h]

/-! ### Any number of calls -/

namespace Keeps

variable {m last : Example} {os os' : List Outcome}

theorem parameters_eq (h : e.Keeps os last) : last.parameters = e.parameters := by
  rw [parameters, parameters, List.headD_eq_head?_getD, h.parameterRow, ← List.headD_eq_head?_getD]

theorem trans (h : e.Keeps os m) (h' : m.Keeps os' last) : e.Keeps (os ++ os') last where
  parameterRow := h'.parameterRow.trans h.parameterRow
  length row hrow := by rw [h'.length row hrow, h.parameters_eq]
  count := by
    have hcount := h.count
    have hcount' := h'.count
    rw [List.count_append, List.count_append]
    omega
  rest := by
    have hrest := congrArg (fun x : Example => { x with rows := e.rows }) h'.rest
    exact hrest.trans h.rest

theorem call (h : ∀ row ∈ e.rows, row.length = e.parameters.length) (c : Call) :
    e.Keeps [(e.call c).1] (e.call c).2 := by
  rcases e.call_cases c with ⟨row, hlength, hne, hcall⟩ | ⟨before, row, after, hrows, hcall⟩ |
    hcall | hcall
  · rw [hcall]
    refine ⟨?_, List.forall_mem_append.2 ⟨h, by simpa using hlength⟩, ?_, rfl⟩
    · rw [rows_eq_cons hne]
      rfl
    · rw [argumentRows_concat hne]
      simp
  · rw [hcall]
    refine ⟨by rw [hrows]; rfl, fun other hother => h other ?_, ?_, rfl⟩
    · have hsub := (List.Sublist.refl before).append (List.sublist_cons_self row after)
      rw [hrows]
      exact (hsub.cons_cons e.parameters).mem hother
    · rw [argumentRows, argumentRows, hrows]
      simp
      omega
  · rw [hcall]
    exact ⟨rfl, h, rfl, rfl⟩
  · rw [hcall]
    exact ⟨rfl, h, rfl, rfl⟩

end Keeps

/-- Calls keep the parameter row and the length of the rows, and the rows are counted by what comes
of the calls. Wherever the calls lead, values add a row unless there are no parameters, and remove
the first argument row that is equal to the one they would add. -/
theorem after_keeps (h : ∀ row ∈ e.rows, row.length = e.parameters.length) (calls : List Call) :
    e.Keeps (e.outcomes calls) (e.after calls) ∧ ∀ values, (e.after calls).Answers values := by
  refine ⟨?_, answers (e.after calls)⟩
  induction calls generalizing e with
  | nil => exact ⟨rfl, h, rfl, rfl⟩
  | cons c calls ih =>
    have hstep := Keeps.call h c
    have hlength : ∀ row ∈ (e.call c).2.rows, row.length = (e.call c).2.parameters.length :=
      fun row hrow => by rw [hstep.length row hrow, hstep.parameters_eq]
    exact hstep.trans (ih hlength)

/-- A row that is equal to the parameter row, and a name that is given twice and one that is not a
parameter. -/
theorem after_keeps_header :
    let e : Example := { rows := [["a".toList, "b".toList], ["a".toList, "b".toList]] }
    let header := [("a".toList, "a".toList), ("b".toList, "b".toList), ("a".toList, "x".toList)]
    let calls := [Call.add header, .add [("c".toList, "x".toList)], .remove header, .remove header,
      .remove header]
    (∀ row ∈ e.rows, row.length = e.parameters.length) ∧
      e.outcomes calls = [.added, .added, .removed, .removed, .absent] ∧
      (e.after calls).rows = [["a".toList, "b".toList], [[], []]] ∧
      e.Keeps (e.outcomes calls) (e.after calls) ∧
      ∀ values, (e.after calls).Answers values := by
  intro e header calls
  have h : ∀ row ∈ e.rows, row.length = e.parameters.length := by decide
  exact ⟨h, by decide, by decide, after_keeps h calls⟩

end Gherkin.Example
