/-! Lists of entries, each with a key, in the order in which the keys first came. -/

namespace Gherkin.Entries

variable {κ α : Type} [DecidableEq κ]

/-- Puts a value in the place of the entry with its key, or at the end. -/
def set (key : κ) (v : α) : List (κ × α) → List (κ × α)
  | [] => [(key, v)]
  | e :: es => if e.1 = key then (key, v) :: es else e :: set key v es

/-! ### Laws -/

theorem set_set (key : κ) (v w : α) (es : List (κ × α)) :
    set key w (set key v es) = set key w es := by
  induction es with
  | nil => simp [set]
  | cons e es ih =>
    by_cases h : e.1 = key
    · simp [set, h]
    · simp [set, h, ih]

theorem mem_of_mem_set {key : κ} {v : α} {es : List (κ × α)} {e : κ × α} (h : e ∈ set key v es) :
    e = (key, v) ∨ e ∈ es := by
  induction es with
  | nil => exact .inl (List.mem_singleton.1 h)
  | cons f es ih =>
    rw [set] at h
    split at h
    · rcases List.mem_cons.1 h with rfl | h
      · exact .inl rfl
      · exact .inr (List.mem_cons_of_mem f h)
    · rcases List.mem_cons.1 h with rfl | h
      · exact .inr List.mem_cons_self
      · exact (ih h).imp_right (List.mem_cons_of_mem f)

/-- No key comes twice when none did before. -/
theorem nodup_set {key : κ} {v : α} {es : List (κ × α)} (h : (es.map Prod.fst).Nodup) :
    ((set key v es).map Prod.fst).Nodup := by
  induction es with
  | nil => simp [set]
  | cons f es ih =>
    rw [List.map_cons, List.nodup_cons] at h
    rw [set]
    split
    · next heq => exact heq ▸ List.nodup_cons.2 h
    · next hne =>
      rw [List.map_cons, List.nodup_cons]
      refine ⟨fun hmem => ?_, ih h.2⟩
      obtain ⟨e, he, hkey⟩ := List.mem_map.1 hmem
      rcases mem_of_mem_set he with rfl | he
      · exact hne hkey.symm
      · exact h.1 (List.mem_map.2 ⟨e, he, hkey⟩)

/-- A new key comes last. -/
theorem set_of_not_mem {key : κ} {es : List (κ × α)} (h : key ∉ es.map Prod.fst) (v : α) :
    set key v es = es ++ [(key, v)] := by
  induction es with
  | nil => rfl
  | cons e es ih =>
    rw [List.map_cons, List.mem_cons, not_or] at h
    rw [set, if_neg (Ne.symm h.1), ih h.2, List.cons_append]

theorem set_append {key : κ} {es : List (κ × α)} (h : key ∉ es.map Prod.fst) (v : α)
    (more : List (κ × α)) : set key v (es ++ more) = es ++ set key v more := by
  induction es with
  | nil => rfl
  | cons e es ih =>
    rw [List.map_cons, List.mem_cons, not_or] at h
    rw [List.cons_append, set, if_neg (Ne.symm h.1), ih h.2, List.cons_append]

variable [BEq κ] [LawfulBEq κ]

omit [DecidableEq κ] in
theorem mem_of_lookup {key : κ} {v : α} {es : List (κ × α)} (h : es.lookup key = some v) :
    (key, v) ∈ es := by
  obtain ⟨before, after, rfl, -⟩ := List.lookup_eq_some_iff.1 h
  simp

omit [DecidableEq κ] in
theorem lookup_append {key : κ} {es : List (κ × α)} (h : key ∉ es.map Prod.fst)
    (more : List (κ × α)) : (es ++ more).lookup key = more.lookup key := by
  induction es with
  | nil => rfl
  | cons e es ih =>
    rw [List.map_cons, List.mem_cons, not_or] at h
    rw [List.cons_append, List.lookup_cons, beq_eq_false_iff_ne.2 h.1]
    exact ih h.2

omit [DecidableEq κ] in
theorem lookup_eq_none {key : κ} {es : List (κ × α)} (h : key ∉ es.map Prod.fst) :
    es.lookup key = none := by
  simpa using lookup_append h []

theorem lookup_set_self (key : κ) (v : α) (es : List (κ × α)) :
    (set key v es).lookup key = some v := by
  induction es with
  | nil => simp [set]
  | cons e es ih =>
    obtain ⟨k, w⟩ := e
    by_cases h : k = key
    · simp [set, h]
    · have hk : (key == k) = false := by simpa using Ne.symm h
      simp [set, h, List.lookup_cons, hk, ih]

theorem lookup_set_of_ne {key other : κ} (h : other ≠ key) (v : α) (es : List (κ × α)) :
    (set key v es).lookup other = es.lookup other := by
  have ho : (other == key) = false := by simpa using h
  induction es with
  | nil => simp [set, List.lookup_cons, ho]
  | cons e es ih =>
    obtain ⟨k, w⟩ := e
    by_cases hk : k = key
    · simp [set, hk, List.lookup_cons, ho]
    · simp [set, hk, List.lookup_cons, ih]

end Gherkin.Entries
