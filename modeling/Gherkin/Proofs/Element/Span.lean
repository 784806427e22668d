import Gherkin.Element.OfData
import Gherkin.Proofs.Document.Core
import Gherkin.Proofs.Document.Lines

/-! Excerpts and the lines that they reach over. When the lines of a run fall into cores, cutting the
run at the first lines of the cores gives the cores back: what is left out at the end of a part are
the trivia before the next core, and no more, since no core ends in trivia. -/

open Gherkin.Document

namespace Gherkin

namespace Excerpt

theorem trim_dropReturn (t : Text) : (Text.dropReturn t).trim = t.trim := by
  unfold Text.dropReturn
  split
  · next hlast =>
    obtain ⟨hne, hlast⟩ := List.getLast?_eq_some_iff.1 hlast
    rw [hlast, List.dropLast_concat, Text.trim_append_right_of_blank (List.forall_mem_singleton.2 rfl)]
  · rfl

/-- The lines that are left out at the end of an excerpt are the trivia. -/
theorem isIdle_eq (v : Vocabulary) (t : Text) :
    isIdle t = (v.kindOf (Text.dropReturn t)).isTrivia := by
  rw [Bool.eq_iff_iff, Vocabulary.isTrivia_kindOf_iff, trim_dropReturn, isIdle]
  split <;> simp_all

/-! ### The last line that is kept -/

variable {lines : List Text} {first k : ℕ}

theorem lastKept_of_idle (hk : first ≤ k) (m : ℕ)
    (h : ∀ i, k ≤ i → i < k + m → isIdle (lines[i]?.getD [])) :
    lastKept lines first (k + m) = lastKept lines first k := by
  induction m with
  | zero => rfl
  | succ m ih =>
    have hidle := h (k + m) (by omega) (by omega)
    rw [← Nat.add_assoc, lastKept, if_pos ⟨by omega, hidle⟩]
    exact ih fun i hi hlt => h i hi (by omega)

theorem lastKept_of_not_idle (h : isIdle (lines[k]?.getD []) = false) :
    lastKept lines first (k + 1) = k + 1 := by
  rw [lastKept, if_neg]
  simp [h]

end Excerpt

section Spans

variable (d : Dialect) (header : Option ℕ) (source : Text)

/-- The excerpt of the text reaches over these lines. -/
structure Excerpt.Spans (e : Excerpt) (ls : List Line) : Prop where
  lines : e.lines = source.lines
  part : ∃ before after, linesIn d header source = before ++ (ls ++ after) ∧
    e.first = before.length + 1 ∧ e.last = before.length + ls.length

variable {d header source} {e : Excerpt} {before ls ts us core after : List Line}

theorem isTrivia_demote (header : Option ℕ) (l : Line) :
    (demote header l).kind.isTrivia = l.kind.isTrivia := by
  unfold demote
  split
  · next code hk =>
    split
    · rfl
    · rw [hk]
      rfl
  · rfl

theorem isIdle_of_linesIn {i : ℕ} {l : Line} (h : (linesIn d header source)[i]? = some l) :
    Excerpt.isIdle (source.lines[i]?.getD []) = l.kind.isTrivia := by
  rw [linesIn, Vocabulary.classify, List.getElem?_map, List.getElem?_mapIdx, Option.map_map] at h
  obtain ⟨t, ht, rfl⟩ := Option.map_eq_some_iff.1 h
  rw [ht, Option.getD_some, Excerpt.isIdle_eq d.vocabulary, Function.comp_apply, isTrivia_demote]

theorem spans_whole : Excerpt.Spans d header source (.whole source) (linesIn d header source) where
  lines := rfl
  part := ⟨[], [], by simp, rfl, by simp [Excerpt.whole, length_linesIn]⟩

/-- The excerpt of a line of a text reaches over just that line. -/
theorem spans_line {l : Line} (hl : l ∈ linesIn d header source) :
    ((Excerpt.whole source).line l.number).Spans d header source [l] := by
  obtain ⟨before, after, hall⟩ := List.append_of_mem hl
  have hget : (linesIn d header source)[before.length]? = some l := by
    rw [hall]
    simp
  have hnumber := number_of_linesIn hget
  have hlen : before.length + 1 ≤ source.lines.length := by
    rw [← length_linesIn d header source, hall]
    simp
  have hclamp : max 1 (min l.number (max 1 source.lines.length)) = before.length + 1 := by
    omega
  exact ⟨rfl, before, after, hall, hclamp, hclamp⟩

/-- Trivia after a core are left out. -/
theorem spans_trimmed (hlines : e.lines = source.lines)
    (h : linesIn d header source = before ++ (core ++ (us ++ after))) (hc : IsCore core)
    (hu : Trivia us) :
    Excerpt.Spans d header source
      (e.trimmed (before.length + 1) (before.length + core.length + us.length)) core := by
  obtain ⟨front, l, rfl⟩ : ∃ front l, core = front ++ [l] :=
    ⟨core.dropLast, core.getLast hc.ne_nil, (List.dropLast_concat_getLast hc.ne_nil).symm⟩
  have hl : l.kind.isTrivia = false := hc.ends l (by simp)
  have hlast : (linesIn d header source)[before.length + front.length]? = some l := by
    rw [h]
    simp
  have hkept : Excerpt.isIdle (source.lines[before.length + front.length]?.getD []) = false := by
    rw [isIdle_of_linesIn hlast, hl]
  have hidle : ∀ i, before.length + (front ++ [l]).length ≤ i →
      i < before.length + (front ++ [l]).length + us.length →
      Excerpt.isIdle (source.lines[i]?.getD []) := by
    intro i hi hlt
    obtain ⟨j, rfl⟩ := Nat.exists_eq_add_of_le hi
    have hj : j < us.length := by omega
    have hget : (linesIn d header source)[before.length + (front ++ [l]).length + j]? =
        some us[j] := by
      rw [h, ← List.append_assoc, ← List.length_append,
        List.getElem?_append_right (Nat.le_add_right _ _), Nat.add_sub_cancel_left,
        List.getElem?_append_left hj, List.getElem?_eq_getElem hj]
    rw [isIdle_of_linesIn hget]
    exact hu _ (List.getElem_mem hj)
  have hlen : before.length + (front ++ [l]).length = before.length + front.length + 1 := by
    simp [Nat.add_assoc]
  have hend : Excerpt.lastKept source.lines (before.length + 1)
      (before.length + (front ++ [l]).length + us.length) =
        before.length + (front ++ [l]).length := by
    rw [Excerpt.lastKept_of_idle (by omega) _ hidle, hlen, Excerpt.lastKept_of_not_idle hkept]
  refine ⟨hlines, before, us ++ after, h, rfl, ?_⟩
  have hmax : before.length + 1 ≤ before.length + (front ++ [l]).length := by omega
  rw [Excerpt.trimmed, hlines, hend, max_eq_right hmax]

/-- The number of the first line. -/
def Begins (start : ℕ) (core : List Line) : Prop := core.head?.map Line.number = some start

theorem begins_eq (h : linesIn d header source = before ++ (core ++ after)) {start : ℕ}
    (hstart : Begins start core) : start = before.length + 1 := by
  obtain ⟨l, hl, rfl⟩ := Option.map_eq_some_iff.1 hstart
  obtain ⟨core, rfl⟩ := List.head?_eq_some_iff.1 hl
  have hget : (linesIn d header source)[before.length]? = some l := by
    rw [h]
    simp
  exact number_of_linesIn hget

/-- Cutting a run of lines at the first lines of its cores gives the cores. -/
theorem spans_split (hlines : e.lines = source.lines) {cores : List (List Line)} {starts : List ℕ}
    (hs : Segmented ls cores) (hstarts : List.Forall₂ Begins starts cores)
    (h : linesIn d header source = before ++ (ls ++ after))
    (hlast : e.last = before.length + ls.length) :
    List.Forall₂ (Excerpt.Spans d header source) (e.split starts) cores := by
  induction hs generalizing before starts with
  | nil =>
    rw [List.forall₂_nil_right_iff.1 hstarts]
    exact .nil
  | @cons ts core ls cores ht hc hs ih =>
    obtain ⟨start, rest, hstart, hrest, rfl⟩ := List.forall₂_cons_right_iff.1 hstarts
    have hcore : linesIn d header source = (before ++ ts) ++ (core ++ (ls ++ after)) := by
      rw [h]
      simp
    have hmore : linesIn d header source = (before ++ ts ++ core) ++ (ls ++ after) := by
      rw [h]
      simp
    obtain rfl := begins_eq hcore hstart
    have hparts := ih hrest hmore (by rw [hlast]; simp [Nat.add_assoc])
    cases hrest with
    | nil =>
      cases hs with
      | nil hu =>
        have hspan := spans_trimmed hlines hcore hc hu
        rw [Excerpt.split, hlast]
        have hlength : before.length + (ts ++ (core ++ ls)).length =
            (before ++ ts).length + core.length + ls.length := by
          simp [Nat.add_assoc]
        rw [hlength]
        exact .cons hspan .nil
    | @cons next core' rest cores hnext hrest =>
      cases hs with
      | @cons us _ ls _ hu hc' hs =>
        have hcore' : linesIn d header source =
            (before ++ ts ++ core ++ us) ++ (core' ++ (ls ++ after)) := by
          rw [h]
          simp
        obtain rfl := begins_eq hcore' hnext
        have hcut : linesIn d header source =
            (before ++ ts) ++ (core ++ (us ++ (core' ++ (ls ++ after)))) := by
          rw [h]
          simp
        have hspan := spans_trimmed hlines hcut hc hu
        have hend : min ((before ++ ts ++ core ++ us).length + 1 - 1) e.last =
            (before ++ ts).length + core.length + us.length := by
          rw [hlast]
          simp
          omega
        rw [Excerpt.split, hend]
        exact .cons hspan hparts

end Spans

end Gherkin
