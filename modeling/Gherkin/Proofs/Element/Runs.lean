import Mathlib.Order.Lattice
import Mathlib.Data.Nat.Notation
import Gherkin.Element.OfData

/-! Excerpts as runs of a text's lines. From an excerpt that is such a run, siblings that start inside
it, one after another, get runs inside it that do not meet. A run keeps every line up to its bound
that is neither blank nor a comment. -/

namespace Gherkin

namespace Excerpt

variable {e x : Excerpt} {source : Text} {lines : List Text} {starts : List ℕ}
  {first last n s : ℕ}

/-- The excerpt is a run of the text's lines, with one line at least. -/
structure IsRun (source : Text) (e : Excerpt) : Prop where
  lines : e.lines = source.lines
  pos : 1 ≤ e.first
  le : e.first ≤ e.last
  last_le : e.last ≤ source.lines.length

/-- The line is neither blank nor a comment. -/
def Solid (lines : List Text) (n : ℕ) : Prop := 1 ≤ n ∧ isIdle (lines[n - 1]?.getD []) = false

theorem isRun_whole (source : Text) : IsRun source (whole source) where
  lines := rfl
  pos := le_rfl
  le := List.length_pos_iff.2 (Text.lines_ne_nil source)
  last_le := le_rfl

/-- A slice of the lines of a run is as long as the run. -/
theorem IsRun.length_slice (h : e.IsRun source) :
    ((e.lines.take e.last).drop (e.first - 1)).length = e.last + 1 - e.first := by
  have hlast := h.last_le
  rw [List.length_drop, List.length_take, h.lines, min_eq_left hlast]
  have := h.pos
  omega

/-- The text of a run is its lines, no less. -/
theorem IsRun.text_eq (h : e.IsRun source) :
    e.text = Text.unlines ((source.lines.take e.last).drop (e.first - 1)) := by
  have hpos := h.pos
  have hle := h.le
  rw [text, if_neg (by omega), h.lines]

/-- A number inside an excerpt is not moved. -/
theorem line_eq (hfirst : e.first ≤ n) (hlast : n ≤ e.last) : e.line n = ⟨e.lines, n, n⟩ := by
  have hclamp : max e.first (min n (max e.first e.last)) = n := by omega
  simp only [line, hclamp]

/-! ### The last line that is kept -/

theorem lastKept_le (lines : List Text) (first n : ℕ) : lastKept lines first n ≤ n := by
  fun_induction lastKept lines first n with
  | case1 => exact le_rfl
  | case2 n _ ih => exact ih.trans (Nat.le_succ n)
  | case3 => exact le_rfl

/-- No line of some meaning is left out. -/
theorem Solid.le_lastKept (h : Solid lines n) (hn : n ≤ last) : n ≤ lastKept lines first last := by
  fun_induction lastKept lines first last with
  | case1 => exact hn
  | case2 m hidle ih =>
    refine ih (Nat.le_of_lt_succ (lt_of_le_of_ne hn ?_))
    rintro rfl
    have hsolid := h.2
    rw [Nat.succ_sub_one, hidle.2] at hsolid
    cases hsolid
  | case3 => exact hn

theorem IsRun.trimmed (h : e.IsRun source) (hfirst : e.first ≤ first) (hle : first ≤ last)
    (hlast : last ≤ e.last) : (e.trimmed first last).IsRun source where
  lines := h.lines
  pos := h.pos.trans hfirst
  le := le_max_left _ _
  last_le := (max_le hle (lastKept_le _ _ _)).trans (hlast.trans h.last_le)

/-! ### Siblings -/

/-- The line up to which a sibling may reach when the others start at the given lines. -/
def bound (e : Excerpt) : List ℕ → ℕ
  | [] => e.last
  | next :: _ => min (next - 1) e.last

/-- The first line and the bound of each sibling. -/
def bounds (e : Excerpt) : List ℕ → List (ℕ × ℕ)
  | [] => []
  | start :: rest => (start, e.bound rest) :: bounds e rest

theorem split_cons (e : Excerpt) (start : ℕ) (rest : List ℕ) :
    e.split (start :: rest) = e.trimmed start (e.bound rest) :: e.split rest := by
  cases rest <;> rfl

theorem split_eq_map (e : Excerpt) (starts : List ℕ) :
    e.split starts = (e.bounds starts).map fun b => e.trimmed b.1 b.2 := by
  induction starts with
  | nil => rfl
  | cons start rest ih => rw [split_cons, bounds, List.map_cons, ih]

theorem bound_le (e : Excerpt) (starts : List ℕ) : e.bound starts ≤ e.last := by
  cases starts with
  | nil => exact le_rfl
  | cons next _ => exact min_le_right _ _

/-- The bound is as far as lines go that come before the next sibling. -/
theorem le_bound (hn : n ≤ e.last) (h : ∀ s ∈ starts, n < s) : n ≤ e.bound starts := by
  cases starts with
  | nil => exact hn
  | cons next _ => exact le_min (Nat.le_pred_of_lt (h next List.mem_cons_self)) hn

/-- The lines at which siblings start: one after another, inside the excerpt. -/
structure Starts (e : Excerpt) (starts : List ℕ) : Prop where
  sorted : starts.Pairwise (· < ·)
  inside : ∀ s ∈ starts, e.first ≤ s ∧ s ≤ e.last

theorem Starts.of_cons (h : e.Starts (s :: starts)) : e.Starts starts :=
  ⟨h.sorted.of_cons, fun t ht => h.inside t (List.mem_cons_of_mem s ht)⟩

theorem Starts.lt (h : e.Starts (s :: starts)) : ∀ t ∈ starts, s < t :=
  (List.pairwise_cons.1 h.sorted).1

theorem Starts.le_bound (h : e.Starts (s :: starts)) : s ≤ e.bound starts :=
  Excerpt.le_bound (h.inside s List.mem_cons_self).2 h.lt

theorem Starts.bound_lt (h : e.Starts starts) (hpos : 1 ≤ e.first) :
    ∀ s ∈ starts, e.bound starts < s := by
  cases starts with
  | nil => simp
  | cons next rest =>
    have hnext := (h.inside next List.mem_cons_self).1
    have hlt : e.bound (next :: rest) < next :=
      (min_le_left _ _).trans_lt (Nat.sub_one_lt (by omega))
    exact List.forall_mem_cons.2 ⟨hlt, fun s hs => hlt.trans (h.lt s hs)⟩

/-- No bound is before its first line or outside the excerpt. -/
theorem Starts.bounds (h : e.Starts starts) :
    ∀ b ∈ e.bounds starts, e.first ≤ b.1 ∧ b.1 ≤ b.2 ∧ b.2 ≤ e.last := by
  induction starts with
  | nil => simp [Excerpt.bounds]
  | cons s starts ih =>
    have hs := h.inside s List.mem_cons_self
    exact List.forall_mem_cons.2 ⟨⟨hs.1, h.le_bound, e.bound_le starts⟩, ih h.of_cons⟩

theorem Starts.first_mem (h : x ∈ e.split starts) : x.first ∈ starts := by
  induction starts with
  | nil => cases h
  | cons s starts ih =>
    rw [split_cons] at h
    rcases List.mem_cons.1 h with rfl | h
    · exact List.mem_cons_self
    · exact List.mem_cons_of_mem s (ih h)

/-- The excerpts of siblings are runs inside the one that is cut. -/
theorem Starts.isRun (h : e.Starts starts) (he : e.IsRun source) :
    ∀ x ∈ e.split starts, x.IsRun source ∧ e.first ≤ x.first ∧ x.last ≤ e.last := by
  intro x hx
  rw [split_eq_map] at hx
  obtain ⟨b, hb, rfl⟩ := List.mem_map.1 hx
  obtain ⟨hfirst, hle, hlast⟩ := h.bounds b hb
  exact ⟨he.trimmed hfirst hle hlast, hfirst, (max_le hle (lastKept_le _ _ _)).trans hlast⟩

/-- The excerpts of siblings do not meet, and stand in the order of the siblings. -/
theorem Starts.apart (h : e.Starts starts) (hpos : 1 ≤ e.first) :
    (e.split starts).Pairwise fun x y => x.last < y.first := by
  induction starts with
  | nil => exact .nil
  | cons s starts ih =>
    rw [split_cons]
    refine .cons (fun y hy => ?_) (ih h.of_cons)
    exact (max_le h.le_bound (lastKept_le _ _ _)).trans_lt
      (h.of_cons.bound_lt hpos _ (Starts.first_mem hy))

end Excerpt

end Gherkin
