import Gherkin.Proofs.Element.Drawn
import Gherkin.Proofs.Element.Plan
import Gherkin.Proofs.Element.StepLines

/-! Excerpts below other lines. A text that is put below some lines is cut as on its own, with every
number counted on by these lines; so what is known of the excerpts in a document around a text is
known of those that are taken from the text. -/

open Gherkin.Document

namespace Gherkin

variable {pre lines : List Text} {first last k n : ℕ} {e : Excerpt} {starts : List ℕ}

/-! ### Lines of steps -/

theorem getElem?_below (h : pre.length < n) :
    (pre ++ lines)[n - 1]? = lines[n - pre.length - 1]? := by
  rw [List.getElem?_append_right (by omega), Nat.sub_right_comm]

theorem Fence.marks_below {fence : Fence} (h : pre.length < n) :
    fence.Marks (pre ++ lines) n ↔ fence.Marks lines (n - pre.length) := by
  rw [Marks, Marks, getElem?_below h]

theorem Excerpt.solid_below (h : pre.length < n) :
    Solid (pre ++ lines) n ↔ Solid lines (n - pre.length) := by
  rw [Solid, Solid, getElem?_below h]
  exact and_congr_left' ⟨fun _ => by omega, fun _ => by omega⟩

theorem Step.block_lowerLines (x y : Excerpt) (n : ℕ) (d : Data) :
    (Step.ofData x (d.lowerLines n)).block = (Step.ofData y d).block :=
  congrArg (·.block) (Step.unplaced x y n d)

/-- A step's lines in a text are those below other lines, counted from the text. -/
theorem Step.Reaches.lower {x y : Excerpt} {d : Data}
    (h : (Step.ofData y d).Reaches (pre ++ lines) first last) (hpre : pre.length < first) :
    (Step.ofData x (d.lowerLines pre.length)).Reaches lines (first - pre.length)
      (last - pre.length) := by
  have hlow {t : Data} {m : ℕ} (hm : t.line? = some m) :
      (t.lowerLines pre.length).line? = some (m - pre.length) := by
    rw [Data.line?_lowerLines, hm, Option.map_some]
  have hfield : (d.lowerLines pre.length).field "block" =
      (d.field "block").lowerLines pre.length := Data.field_lowerLines _ (by decide) d
  have hsame := Step.block_lowerLines x y pre.length d
  cases h with
  | bare ho hline hpos hblock =>
    obtain rfl := Option.some.inj ho
    exact .bare rfl (hlow hline) (by omega) (hsame.trans hblock)
  | table ho hline hpos hblock hrow hlast hlt =>
    obtain rfl := Option.some.inj ho
    refine .table rfl (hlow hline) (by omega) (hsame.trans hblock) ?_ (hlow hlast) (by omega)
    change (((d.lowerLines pre.length).field "block").itemsAt "rows").getLast? = _
    rw [hfield, Data.itemsAt_lowerLines _ (by decide), List.getLast?_map]
    exact congrArg (Option.map _) hrow
  | docString ho hline hpos hblock hopening hbelow hopen hlt hclose hfirst =>
    obtain rfl := Option.some.inj ho
    refine .docString rfl (hlow hline) (by omega) (hsame.trans hblock) ?_ (by omega)
      ((Fence.marks_below (by omega)).1 hopen) (by omega) ((Fence.marks_below (by omega)).1 hclose)
      fun m hm hlast hmark => ?_
    · change ((d.lowerLines pre.length).field "block").line? = _
      rw [hfield]
      exact hlow hopening
    · refine hfirst (m + pre.length) (by omega) (by omega) ((Fence.marks_below (by omega)).2 ?_)
      rwa [Nat.add_sub_cancel]

/-! ### Cutting -/

namespace Excerpt

/-- The excerpt when its text is below other lines. -/
def below (pre : List Text) (e : Excerpt) : Excerpt :=
  ⟨pre ++ e.lines, pre.length + e.first, pre.length + e.last⟩

theorem lastKept_below (pre lines : List Text) (first n : ℕ) :
    lastKept (pre ++ lines) (pre.length + first) (pre.length + n) =
      pre.length + lastKept lines first n := by
  induction n with
  | zero =>
    cases hpre : pre.length with
    | zero => rfl
    | succ m => rw [Nat.add_zero, lastKept, lastKept, if_neg fun h => absurd h.1 (by omega)]
  | succ n ih =>
    have hline : (pre ++ lines)[pre.length + n]? = lines[n]? := by
      rw [List.getElem?_append_right (Nat.le_add_right _ _), Nat.add_sub_cancel_left]
    rw [← Nat.add_assoc, lastKept, lastKept, hline, ih]
    by_cases h : first < n + 1 ∧ isIdle (lines[n]?.getD [])
    · rw [if_pos h, if_pos ⟨by omega, h.2⟩]
    · rw [if_neg h, if_neg fun hc => h ⟨by omega, hc.2⟩, Nat.add_assoc]

theorem trimmed_below (pre : List Text) (e : Excerpt) (first last : ℕ) :
    (e.below pre).trimmed (pre.length + first) (pre.length + last) =
      (e.trimmed first last).below pre := by
  simp only [trimmed, below, lastKept_below, Nat.add_max_add_left]

theorem bound_below (e : Excerpt) (h : ∀ s ∈ starts, pre.length < s) :
    (e.below pre).bound starts = pre.length + e.bound (starts.map (· - pre.length)) := by
  cases starts with
  | nil => rfl
  | cons next rest =>
    have hnext := h next List.mem_cons_self
    simp only [bound, below, List.map_cons]
    omega

/-- Below other lines the excerpts of siblings are the same, counted on. -/
theorem split_below (e : Excerpt) (h : ∀ s ∈ starts, pre.length < s) :
    (e.below pre).split starts = (e.split (starts.map (· - pre.length))).map (below pre) := by
  induction starts with
  | nil => rfl
  | cons s starts ih =>
    obtain ⟨hs, hstarts⟩ := List.forall_mem_cons.1 h
    have hsame : s = pre.length + (s - pre.length) := by omega
    rw [split_cons, List.map_cons, split_cons, List.map_cons, ih hstarts, bound_below e hstarts,
      ← trimmed_below, ← hsame]

theorem startLine_lowerLines {d : Data} (h : d.line?.isSome) (n : ℕ) :
    (d.lowerLines n).startLine = d.startLine - n := by
  obtain ⟨m, hm⟩ := Option.isSome_iff_exists.1 h
  have hmin (ns : List ℕ) : (ns.map (· - n)).foldr min (m - n) = ns.foldr min m - n := by
    induction ns with
    | nil => rfl
    | cons a ns ih => rw [List.map_cons, List.foldr_cons, List.foldr_cons, ih]; omega
  rw [Data.startLine, Data.startLine, Data.itemsAt_lowerLines n (by decide),
    Data.line?_lowerLines, hm, List.filterMap_map]
  have hlines : (d.itemsAt "tags").filterMap (Data.line? ∘ Data.lowerLines n) =
      ((d.itemsAt "tags").filterMap Data.line?).map (· - n) := by
    rw [List.map_filterMap]
    exact List.filterMap_congr fun t _ => Data.line?_lowerLines n t
  rw [hlines]
  exact hmin _

/-- All siblings but the last get the same excerpts, whatever comes after them. -/
theorem split_concat {e x : Excerpt} (hlines : e.lines = x.lines) {front : List ℕ} {s : ℕ}
    (h : ∀ t ∈ front ++ [s], t - 1 ≤ e.last ∧ t - 1 ≤ x.last) :
    ∃ es, e.split (front ++ [s]) = es ++ [e.trimmed s e.last] ∧
      x.split (front ++ [s]) = es ++ [x.trimmed s x.last] := by
  have htrimmed (a b : ℕ) : x.trimmed a b = e.trimmed a b := by
    simp only [trimmed, hlines]
  induction front with
  | nil => exact ⟨[], rfl, rfl⟩
  | cons a front ih =>
    rw [List.cons_append] at h ⊢
    obtain ⟨-, h⟩ := List.forall_mem_cons.1 h
    obtain ⟨es, he, hx⟩ := ih h
    have hbound : x.bound (front ++ [s]) = e.bound (front ++ [s]) := by
      cases hfront : front ++ [s] with
      | nil => simp at hfront
      | cons next rest =>
        have hnext := h next (hfront ▸ List.mem_cons_self)
        rw [bound, bound, min_eq_left hnext.1, min_eq_left hnext.2]
    refine ⟨e.trimmed a (e.bound (front ++ [s])) :: es, ?_, ?_⟩
    · rw [split_cons, he, List.cons_append]
    · rw [split_cons, hx, hbound, htrimmed, List.cons_append]

/-- Siblings in a text get the excerpts that they get below other lines. Only the last one depends on
where the excerpt that is cut ends. -/
theorem exists_split_below {e x : Excerpt} (hlines : e.lines = pre ++ x.lines) {front : List ℕ}
    {s : ℕ}
    (h : ∀ t ∈ front ++ [s], pre.length < t ∧ t ≤ e.last ∧ t ≤ pre.length + x.last) :
    ∃ es, es.length = front.length ∧
      x.split ((front ++ [s]).map (· - pre.length)) =
        es ++ [x.trimmed (s - pre.length) x.last] ∧
      e.split (front ++ [s]) = es.map (below pre) ++ [e.trimmed s e.last] := by
  obtain ⟨es, hx, hlength⟩ := x.split_append (front.map (· - pre.length)) [s - pre.length]
  have hsplit : x.split ((front ++ [s]).map (· - pre.length)) =
      es ++ [x.trimmed (s - pre.length) x.last] := by
    rw [List.map_append]
    exact hx
  have hbelow := split_below x fun t ht => (h t ht).1
  have hbounds : ∀ t ∈ front ++ [s], t - 1 ≤ e.last ∧ t - 1 ≤ (x.below pre).last := fun t ht =>
    ⟨(Nat.sub_le t 1).trans (h t ht).2.1, (Nat.sub_le t 1).trans (h t ht).2.2⟩
  obtain ⟨fs, he, hfs⟩ := split_concat hlines hbounds
  rw [hsplit, hfs, List.map_append] at hbelow
  obtain rfl : fs = es.map (below pre) := (List.append_inj' hbelow rfl).1
  exact ⟨es, by rw [hlength, List.length_map], hsplit, he⟩

theorem exists_splitAt_below {e x : Excerpt} (hlines : e.lines = pre ++ x.lines) {front : List Data}
    {node : Data} (h : ∀ d ∈ front ++ [node], d.line?.isSome ∧ pre.length < d.startLine ∧
      d.startLine ≤ e.last ∧ d.startLine ≤ pre.length + x.last) :
    ∃ es, es.length = front.length ∧
      x.splitAt ((front ++ [node]).map (Data.lowerLines pre.length)) =
        es ++ [x.trimmed (node.startLine - pre.length) x.last] ∧
      e.splitAt (front ++ [node]) = es.map (below pre) ++ [e.trimmed node.startLine e.last] := by
  have hstarts : ((front ++ [node]).map (Data.lowerLines pre.length)).map Data.startLine =
      ((front ++ [node]).map Data.startLine).map (· - pre.length) := by
    rw [List.map_map, List.map_map]
    exact List.map_congr_left fun d hd => startLine_lowerLines (h d hd).1 _
  have hmap : (front ++ [node]).map Data.startLine =
      front.map Data.startLine ++ [node.startLine] := by
    simp
  have hbounds : ∀ t ∈ front.map Data.startLine ++ [node.startLine],
      pre.length < t ∧ t ≤ e.last ∧ t ≤ pre.length + x.last := by
    rw [← hmap]
    exact List.forall_mem_map.2 fun d hd => (h d hd).2
  obtain ⟨es, hlength, hx, he⟩ := exists_split_below hlines hbounds
  rw [splitAt, splitAt, hstarts, hmap]
  exact ⟨es, by rw [hlength, List.length_map], hx, he⟩

/-! ### The last line that is kept -/

/-- The lines that are left out are blank or comments. -/
theorem isIdle_of_lastKept_lt (h : lastKept lines first last < n) (hn : n ≤ last) :
    isIdle (lines[n - 1]?.getD []) := by
  fun_induction lastKept lines first last with
  | case1 => omega
  | case2 m hidle ih =>
    rcases Nat.lt_or_eq_of_le hn with hlt | rfl
    · exact ih h (by omega)
    · exact hidle.2
  | case3 => omega

theorem solid_lastKept (h : first < lastKept lines first last) :
    Solid lines (lastKept lines first last) := by
  fun_induction lastKept lines first last with
  | case1 => omega
  | case2 m _ ih => exact ih h
  | case3 m hnot =>
    refine ⟨by omega, ?_⟩
    rw [Nat.succ_sub_one]
    simpa [h] using hnot

end Excerpt

end Gherkin
