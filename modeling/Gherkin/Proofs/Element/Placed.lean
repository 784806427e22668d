import Gherkin.Proofs.Document.Recount
import Gherkin.Proofs.Element.Start
import Gherkin.Proofs.Layout.RoundTrip

/-! Nodes and the texts of their excerpts. The excerpt of a node reaches over a core that holds the
node; put behind the lines that make a document of it, its text is read as a node of the same
element. Inside the excerpt of a block lie the excerpts of its parts. -/

open Gherkin.Document

namespace Gherkin

variable {d : Dialect} {header : Option ℕ} {source : Text} {e : Excerpt} {ls : List Line}

/-- The text of an excerpt is some lines of the source, and these are the lines that it reaches
over. -/
theorem Excerpt.Spans.exists_text (h : e.Spans d header source ls) (hne : ls ≠ []) :
    ∃ n ts, e.text = Text.unlines ts ∧ ts ≠ [] ∧ (∀ t ∈ ts, '\n' ∉ t) ∧
      ls = (d.vocabulary.linesAt n ts).map (demote header) := by
  obtain ⟨hlines, before, after, hall, hfirst, hlast⟩ := h
  have hpos : 0 < ls.length := List.length_pos_of_ne_nil hne
  have htext : e.text = Text.unlines ((source.lines.take e.last).drop before.length) := by
    rw [Excerpt.text, if_neg (by omega), hlines, hfirst, Nat.add_sub_cancel]
  have hcut : ((linesIn d header source).take e.last).drop before.length = ls := by
    rw [hall, ← List.append_assoc, hlast, ← List.length_append, List.take_left, List.drop_left]
  have hle : before.length ≤ (source.lines.take e.last).length := by
    have hlen := congrArg List.length hall
    rw [length_linesIn] at hlen
    simp only [List.length_append] at hlen
    rw [List.length_take]
    omega
  have hspan : ls = (d.vocabulary.linesAt (0 + before.length)
      ((source.lines.take e.last).drop before.length)).map (demote header) := by
    rw [← hcut, linesIn, Vocabulary.classify_eq, ← List.map_take, ← List.map_drop,
      ← Vocabulary.linesAt_take, Vocabulary.linesAt_drop _ _ _ hle]
  refine ⟨_, _, htext, ?_, fun t ht => ?_, hspan⟩
  · intro hnil
    rw [hnil] at hspan
    exact hne hspan
  · exact Text.not_mem_lines (List.mem_of_mem_take (List.mem_of_mem_drop ht))

/-- Lines that are put below a language header are counted anew. -/
theorem exists_recounts (v : Vocabulary) (header : Option ℕ) (n : ℕ) {m : ℕ} (hm : 1 ≤ m)
    (ts : List Text) :
    ∃ g, Recounts g ∧ (v.linesAt m ts).map (demote (some 1)) =
      ((v.linesAt n ts).map (demote header)).map g := by
  refine ⟨fun l => ⟨l.number - n + m, l.raw, l.kind.demoted⟩, ⟨fun _ => rfl, fun _ => rfl⟩, ?_⟩
  have hsame : ∀ l : Line, l.number ≠ 1 → demote (some 1) l = ⟨l.number, l.raw, l.kind.demoted⟩ := by
    rintro ⟨number, raw, kind⟩ hone
    cases kind <;> simp_all [demote, LineKind.demoted]
  have hdemoted : ∀ l : Line, (demote header l).kind.demoted = l.kind.demoted := by
    rintro ⟨number, raw, kind⟩
    by_cases hn : some number = header <;> cases kind <;> simp [demote, LineKind.demoted, hn]
  refine List.ext_getElem (by simp) fun i hi _ => ?_
  simp only [List.getElem_map, Vocabulary.linesAt, List.getElem_mapIdx]
  rw [hsame _ (by simp; omega)]
  simp only [number_demote, raw_demote, hdemoted]
  congr 1
  omega

/-! ### Nodes and their excerpts -/

/-- The excerpt reaches over a core that holds the node. -/
def Placed {α : Type} (d : Dialect) (header : Option ℕ) (source : Text)
    (R : List Line → α → List Document.Comment → Prop) (a : α) (e : Excerpt) : Prop :=
  ∃ core, HasCore R a core ∧ e.Spans d header source core

variable {α β : Type} {R : List Line → α → List Document.Comment → Prop} {plain : α → β}
  {a : α} {code : Text}

/-- The text of a node's excerpt holds the node on its own. -/
theorem Placed.exists_readWith {k : Snippet} {before : List Text} {ofData : Excerpt → Data → β}
    {forget : β → β} (hplaced : Placed d header source R a e)
    (hframe : Frames d code k before R plain ofData forget) (hR : Recountable R plain)
    (hunplaced : Unplaced forget ofData) (absent : β) (hcode : Dialect.get? code = some d)
    (hopening : k.opening code d = Snippet.languageLine code :: before)
    (hclosing : k.closing d = []) :
    ∃ r, k.readWith ofData absent code e.text = .ok r ∧ forget r = plain a := by
  obtain ⟨core, ⟨hcore, cs, ha⟩, hspans⟩ := hplaced
  obtain ⟨n, ts, htext, hne, hlines, rfl⟩ := hspans.exists_text hcore.ne_nil
  obtain ⟨g, hg, hcount⟩ := exists_recounts d.vocabulary header n
    (Nat.le_add_right 1 before.length) ts
  obtain ⟨a', cs', ha', hplain⟩ := hR hg ha
  rw [← hcount] at ha'
  have hw : Written d.vocabulary [] before ((d.vocabulary.linesAt 1 before).map (demote (some 1))) :=
    written_linesAt d.vocabulary (by simp) hframe.line
  obtain ⟨f, hf, hout⟩ := hframe.reading Text.IsIndent.nil hw ha'
  rw [← List.map_append, ← Vocabulary.linesAt_append] at hf
  rw [← hplain, htext]
  refine readWith_of_parse hunplaced absent hcode ?_ hout
  rw [wrap_eq hopening hclosing hne]
  refine parse_languageLine hcode hcode (List.forall_mem_append.2 ⟨fun t ht => ?_, hlines⟩) hf
  exact (hframe.line t ht).1

/-! ### Nodes one after another -/

/-- A run of lines of a text is ordered and tidy, as all of them are. -/
theorem Excerpt.Spans.sublist (h : e.Spans d header source ls) :
    ls.Sublist (linesIn d header source) := by
  obtain ⟨-, before, after, hall, -, -⟩ := h
  rw [hall]
  exact (List.sublist_append_left ls after).trans (List.sublist_append_right before _)

theorem Excerpt.Spans.ordered (h : e.Spans d header source ls) : Ordered ls :=
  (ordered_linesIn d header source).of_sublist h.sublist

theorem Excerpt.Spans.tidy (h : e.Spans d header source ls) : Tidy ls :=
  fun l hl => tidy_linesIn d header source l (h.sublist.subset hl)

/-- The nodes begin on the first lines of the cores. -/
def BeginAll (nodes : List Data) (cores : List (List Line)) : Prop :=
  List.Forall₂ (fun node core => Begins node.startLine core) nodes cores

theorem Excerpt.Spans.splitAt {pre : List Line} {nodes : List Data} {cores : List (List Line)}
    (h : e.Spans d header source (pre ++ ls)) (hs : Segmented ls cores)
    (hbegins : BeginAll nodes cores) :
    List.Forall₂ (Excerpt.Spans d header source) (e.splitAt nodes) cores := by
  obtain ⟨hlines, before, after, hall, -, hlast⟩ := h
  have hcut : linesIn d header source = (before ++ pre) ++ (ls ++ after) := by
    rw [hall]
    simp
  refine spans_split hlines hs (List.forall₂_map_left_iff.2 hbegins) hcut ?_
  rw [hlast]
  simp [Nat.add_assoc]

theorem beginAll_map {node : α → Data} (hnode : BeginsAt R node) {items : List α}
    {cores : List (List Line)} (hitems : List.Forall₂ (HasCore R) items cores)
    (hordered : ∀ core ∈ cores, Ordered core) : BeginAll (items.map node) cores := by
  induction hitems with
  | nil => exact .nil
  | cons hitem _ ih =>
    obtain ⟨hcore, hmore⟩ := List.forall_mem_cons.1 hordered
    exact .cons (hnode hitem hcore) (ih hmore)

theorem placed_of_spans {items : List α} {es : List Excerpt} {cores : List (List Line)}
    (hitems : List.Forall₂ (HasCore R) items cores)
    (hes : List.Forall₂ (Excerpt.Spans d header source) es cores) :
    List.Forall₂ (Placed d header source R) items es := by
  induction hitems generalizing es with
  | nil =>
    rw [List.forall₂_nil_right_iff.1 hes]
    exact .nil
  | cons hitem _ ih =>
    obtain ⟨part, parts, hpart, hparts, rfl⟩ := List.forall₂_cons_right_iff.1 hes
    exact .cons ⟨_, hitem, hpart⟩ (ih hparts)

/-- The nodes of a sequence get the excerpts of their cores, whatever nodes come after them. -/
theorem Excerpt.Spans.placed {node : α → Data} {pre bs : List Line} {items : List α}
    {cs : List Document.Comment} {later : List Data} {cores : List (List Line)}
    (h : e.Spans d header source (pre ++ (ls ++ bs))) (hR : Pares R) (hnode : BeginsAt R node)
    (hmany : Reading.Many R ls items cs) (hs : Segmented bs cores) (hlater : BeginAll later cores) :
    List.Forall₂ (Placed d header source R) items
      ((e.splitAt (items.map node ++ later)).take items.length) := by
  obtain ⟨own, hown, hitems⟩ := exists_segmented hR hmany
    h.tidy.of_append_right.of_append_left
  have hordered : ∀ core ∈ own, Ordered core := fun core hcore =>
    h.ordered.of_sublist ((hown.sublist core hcore).trans
      ((List.sublist_append_left ls bs).trans (List.sublist_append_right pre _)))
  have hall := h.splitAt (hown.append hs)
    (List.rel_append (beginAll_map hnode hitems hordered) hlater)
  have htake := List.forall₂_take_append _ _ _ hall
  rw [← hitems.length_eq] at htake
  exact placed_of_spans hitems htake

/-- The nodes of a sequence that nothing comes after. -/
theorem Excerpt.Spans.placed_last {node : α → Data} {pre : List Line} {items : List α}
    {cs : List Document.Comment} (h : e.Spans d header source (pre ++ ls)) (hR : Pares R)
    (hnode : BeginsAt R node) (hmany : Reading.Many R ls items cs) :
    List.Forall₂ (Placed d header source R) items (e.splitAt (items.map node)) := by
  rw [← List.append_nil ls] at h
  have hall := h.placed hR hnode hmany (.nil .nil) .nil
  rwa [List.append_nil, List.take_of_length_le (by simp [length_splitAt])] at hall

/-- What is read from nodes and their excerpts. -/
theorem exists_of_mem_zipWith {γ : Type} {Q : α → β → Prop} {f : α → β → γ} {xs : List α}
    {ys : List β} (h : List.Forall₂ Q xs (ys.take xs.length)) {z : γ} (hz : z ∈ xs.zipWith f ys) :
    ∃ x y, Q x y ∧ z = f x y := by
  induction xs generalizing ys with
  | nil => simp at hz
  | cons x xs ih => cases ys with
    | nil => simp at hz
    | cons y ys =>
      rw [List.length_cons, List.take_succ_cons, List.forall₂_cons] at h
      rw [List.zipWith_cons_cons, List.mem_cons] at hz
      rcases hz with rfl | hz
      · exact ⟨x, y, h.1, rfl⟩
      · exact ih h.2 hz

end Gherkin
