import Gherkin.Proofs.Element.Alone
import Gherkin.Proofs.Element.Part
import Gherkin.Proofs.Element.Runs
import Gherkin.Proofs.Line.Mark

/-! The lines of a step: from its own line to the end of its argument, which is the last row of a
table or the closing fence of a doc string. The core of a step is just these lines, so a step whose
excerpt reaches over its core has them for its text. -/

open Gherkin.Document Gherkin.Document.Parser

namespace Gherkin

/-- The lines from `first` to `last`, counted from one, as one text. -/
def Text.run (lines : List Text) (first last : ℕ) : Text :=
  Text.unlines ((lines.take last).drop (first - 1))

/-- A line begins with the mark of a fence. -/
def Fence.Marks (fence : Fence) (lines : List Text) (n : ℕ) : Prop :=
  ∃ t, lines[n - 1]? = some t ∧ fence.mark <+: t.trim

/-- The line of a step and the last line of its argument. A doc string is closed by the first line
below its opening fence that begins with the same mark. -/
inductive Step.Reaches (lines : List Text) (s : Step) : ℕ → ℕ → Prop
  | bare {o n} (ho : s.origin = some o) (hline : o.line = some n) (hpos : 1 ≤ n)
    (hblock : s.block = none) : Reaches lines s n n
  | table {o n rows row last} (ho : s.origin = some o) (hline : o.line = some n) (hpos : 1 ≤ n)
    (hblock : s.block = some (.table rows))
    (hrow : ((o.data.field "block").itemsAt "rows").getLast? = some row)
    (hlast : row.line? = some last) (hlt : n < last) : Reaches lines s n last
  | docString {o n content contentType opening last} {fence : Fence} (ho : s.origin = some o)
    (hline : o.line = some n) (hpos : 1 ≤ n)
    (hblock : s.block = some (.docString content contentType))
    (hopening : (o.data.field "block").line? = some opening) (hbelow : n < opening)
    (hopen : fence.Marks lines opening) (hlt : opening < last) (hclose : fence.Marks lines last)
    (hfirst : ∀ m, opening < m → m < last → ¬fence.Marks lines m) : Reaches lines s n last

/-- The text of the step is that of its lines, from its own to the last one of its argument. -/
def Step.Covers (lines : List Text) (s : Step) : Prop :=
  ∃ first last, s.Reaches lines first last ∧ last ≤ lines.length ∧
    s.origin.map (·.text) = some (Text.run lines first last)

namespace Step

variable {lines : List Text} {s : Step} {first last first' last' : ℕ}

theorem Reaches.pos (h : s.Reaches lines first last) : 1 ≤ first := by cases h <;> assumption

theorem Reaches.le (h : s.Reaches lines first last) : first ≤ last := by cases h <;> omega

/-- A step has no two ends. -/
theorem Reaches.unique (h : s.Reaches lines first last) (h' : s.Reaches lines first' last') :
    first = first' ∧ last = last' := by
  cases h with
  | bare ho hline _ hblock =>
    cases h' with
    | bare ho' hline' => simp_all
    | table _ _ _ hblock' | docString _ _ _ hblock' => simp [hblock] at hblock'
  | table ho hline _ hblock hrow hlast =>
    cases h' with
    | table ho' hline' _ _ hrow' hlast' => simp_all
    | bare _ _ _ hblock' | docString _ _ _ hblock' => simp [hblock] at hblock'
  | docString ho hline _ hblock hopening _ hopen hlt hclose hfirst =>
    cases h' with
    | bare _ _ _ hblock' | table _ _ _ hblock' => simp [hblock] at hblock'
    | docString ho' hline' _ _ hopening' _ hopen' hlt' hclose' hfirst' =>
      obtain rfl := Option.some.inj (ho.symm.trans ho')
      obtain rfl := Option.some.inj (hline.symm.trans hline')
      obtain rfl := Option.some.inj (hopening.symm.trans hopening')
      obtain ⟨t, ht, hmark⟩ := hopen
      obtain ⟨t', ht', hmark'⟩ := hopen'
      obtain rfl := Option.some.inj (ht.symm.trans ht')
      obtain rfl := Fence.eq_of_prefix hmark hmark'
      refine ⟨rfl, le_antisymm (le_of_not_gt fun hgt => ?_) (le_of_not_gt fun hgt => ?_)⟩
      · exact hfirst _ hlt' hgt hclose'
      · exact hfirst' _ hlt hgt hclose

end Step

namespace Document

variable {d : Dialect} {header : Option ℕ} {source code : Text} {ls : List Line}
  {cs : List Comment}

/-- The lines of rows end with the last row, but for trivia. -/
theorem exists_last_row {width : ℕ} {rows : List Row} (h : Reading.Rows width ls rows cs)
    (hne : rows ≠ []) :
    ∃ row l as us, rows.getLast? = some row ∧ row.location.line = l.number ∧ ls = as ++ l :: us ∧
      l.kind = .row ∧ Trivia us := by
  induction h with
  | nil => exact absurd rfl hne
  | @cons ts l ls more cs ht hl hw h ih =>
    cases more with
    | nil =>
      cases h with
      | nil hu => exact ⟨_, l, ts, ls, rfl, rfl, rfl, hl, hu⟩
    | cons r more =>
      obtain ⟨row, m, as, us, hrow, hnumber, rfl, hm, hu⟩ := ih (List.cons_ne_nil _ _)
      exact ⟨row, m, ts ++ l :: as, us, by rw [List.getLast?_cons_cons]; exact hrow, hnumber,
        by simp, hm, hu⟩

/-- The text behind a line. -/
theorem exists_of_linesIn {i : ℕ} {l : Line} (h : (linesIn d header source)[i]? = some l) :
    ∃ t, source.lines[i]? = some t ∧
      l = demote header ⟨i + 1, Text.dropReturn t, d.vocabulary.kindOf (Text.dropReturn t)⟩ := by
  rw [linesIn, Vocabulary.classify, List.getElem?_map, List.getElem?_mapIdx, Option.map_map] at h
  obtain ⟨t, ht, rfl⟩ := Option.map_eq_some_iff.1 h
  exact ⟨t, ht, rfl⟩

theorem isFence_demote (header : Option ℕ) (fence : Fence) (l : Line) :
    isFence fence (demote header l).kind = isFence fence l.kind := by
  unfold demote
  split
  · next code hk =>
    split
    · rfl
    · rw [hk]
      rfl
  · rfl

/-- In the lines of a text just those that begin with the mark are fences. -/
theorem marks_iff (hcode : Dialect.get? code = some d) {i : ℕ} {l : Line}
    (h : (linesIn d header source)[i]? = some l) (fence : Fence) :
    fence.Marks source.lines (i + 1) ↔ isFence fence l.kind := by
  obtain ⟨t, ht, rfl⟩ := exists_of_linesIn h
  rw [isFence_demote, Vocabulary.isFence_kindOf_iff hcode, Text.trim_dropReturn, Fence.Marks,
    Nat.add_sub_cancel, ht]
  simp

/-! ### The argument in the normal form -/

theorem line?_row (r : Row) : (Normal.row r.toData).line? = some r.location.line := by
  simp [Data.line?, Normal.row, Normal.copy, Row.toData, Data.field, Location.toData]

theorem field_block {s : Step} {a : Argument} (h : s.argument = some a) :
    (Normal.step s.toData).field "block" = Normal.block a.toData := by
  have hnull : a.toData.isNull = false := by cases a <;> rfl
  simp [Normal.step, Step.toData, h, Data.field, Data.present?, optionalField, Normal.copy,
    List.lookup_cons, Option.filter, hnull]

theorem itemsAt_rows_block (location : Location) (rows : List Row) :
    (Normal.block (Argument.table location rows).toData).itemsAt "rows" =
      rows.map fun r => Normal.row r.toData := by
  rw [block_table]
  simp [Data.itemsAt, Data.field, Data.items, List.lookup_cons]

theorem line?_block (location : Location) (contentType : Option Text) (content : Text)
    (fence : Fence) :
    (Normal.block (Argument.docString location contentType content fence).toData).line? =
      some location.line := by
  rw [block_docString]
  simp [Data.line?, Location.toData, List.lookup_cons]

theorem block_ofData (e : Excerpt) (s : Step) :
    (Step.ofData e (Normal.step s.toData)).block = s.argument.map Argument.plain :=
  congrArg (·.block) (step_plain e s)

/-! ### Cores -/

/-- There are no trivia at the end of lines that do not end with any. -/
theorem eq_nil_of_ends {as us : List Line} {l : Line} (h : Ends (as ++ l :: us)) (hu : Trivia us) :
    us = [] := by
  rcases List.eq_nil_or_concat' us with rfl | ⟨us, m, rfl⟩
  · rfl
  · have hm := h m (by rw [← List.cons_append, ← List.append_assoc, List.getLast?_concat]; rfl)
    rw [hu m (by simp)] at hm
    cases hm

/-- The core of a step reaches from the line of the step to the end of its argument. -/
theorem reaches_of_core (hcode : Dialect.get? code = some d) (e : Excerpt) {s : Step}
    {before core after : List Line} (hcore : HasCore Reading.Step s core)
    (hall : linesIn d header source = before ++ (core ++ after)) :
    (Step.ofData e (Normal.step s.toData)).Reaches source.lines (before.length + 1)
      (before.length + core.length) := by
  obtain ⟨⟨-, hstarts, hends⟩, cs, h⟩ := hcore
  have hget (as : List Line) (l : Line) (bs : List Line) (h : core = as ++ l :: bs) :
      (linesIn d header source)[before.length + as.length]? = some l := by
    rw [hall, h]
    simp
  have hblock := block_ofData e s
  cases h with
  | @mk ts l ls keyword text argument _ ht hl h =>
    obtain rfl := hstarts.eq_nil ht
    have hline : (Normal.step (Step.toData ⟨l.location, keyword, text, argument⟩)).line? =
        some (before.length + 1) := by
      rw [line?_step]
      exact congrArg some (number_of_linesIn (hget [] l ls rfl))
    cases h with
    | @none us hu =>
      obtain rfl := eq_nil_of_ends hends hu
      exact .bare rfl hline (Nat.le_add_left 1 _) hblock
    | @table width _ row rows _ h =>
      obtain ⟨lastRow, m, as, us, hrow, hnumber, rfl, -, hu⟩ :=
        exists_last_row h (List.cons_ne_nil _ _)
      have hends' : Ends ((l :: as) ++ m :: us) := hends
      obtain rfl := eq_nil_of_ends hends' hu
      have hm := number_of_linesIn (hget (l :: as) m [] rfl)
      have hlength : before.length + ([] ++ l :: (as ++ [m])).length = m.number := by
        simp only [hm, List.nil_append, List.length_cons, List.length_append, List.length_nil]
        omega
      have hlast : (((Normal.step (Step.toData ⟨l.location, keyword, text,
          some (.table row.location (row :: rows))⟩)).field "block").itemsAt "rows").getLast? =
            some (Normal.row lastRow.toData) := by
        rw [field_block rfl, itemsAt_rows_block, List.getLast?_map, hrow, Option.map_some]
      rw [hlength]
      refine .table rfl hline (Nat.le_add_left 1 _) hblock hlast
        ((line?_row _).trans (congrArg some hnumber)) ?_
      simp only [hm, List.length_cons]
      omega
    | @docString us first body last fence contentType hu ho hb hc =>
      have hfirst := hget (l :: us) first (body ++ [last]) (by simp)
      have hlast := hget (l :: us ++ first :: body) last [] (by simp)
      have hopening : ((Normal.step (Step.toData ⟨l.location, keyword, text,
          some (.docString first.location (if contentType = [] then none else some contentType)
            (Text.unlines (body.map (contentLine first.indent fence))) fence)⟩)).field "block").line? =
              some (before.length + (l :: us).length + 1) := by
        rw [field_block rfl, line?_block]
        exact congrArg some (number_of_linesIn hfirst)
      have hlength : before.length + ([] ++ l :: (us ++ first :: body ++ [last])).length =
          before.length + (l :: us ++ first :: body).length + 1 := by
        simp only [List.nil_append, List.length_cons, List.length_append, List.length_nil]
        omega
      rw [hlength]
      refine .docString rfl hline (Nat.le_add_left 1 _) hblock hopening ?_
        ((marks_iff hcode hfirst fence).2 (by simp [ho, isFence])) ?_
        ((marks_iff hcode hlast fence).2 hc) fun m hlow hhigh => ?_
      · simp
      · simp
      · -- the lines in between are those of the content
        obtain ⟨i, rfl⟩ : ∃ i, m = before.length + (l :: us).length + 1 + i + 1 :=
          ⟨m - (before.length + (l :: us).length + 1) - 1, by omega⟩
        have hi : i < body.length := by
          simp only [List.length_cons, List.length_append] at hhigh
          omega
        obtain ⟨bs, x, ds, hbody, hlen⟩ : ∃ bs x ds, body = bs ++ x :: ds ∧ bs.length = i :=
          ⟨body.take i, body[i], body.drop (i + 1),
            by rw [List.cons_getElem_drop_succ, List.take_append_drop], by simp [hi.le]⟩
        subst hbody
        have hx := hget (l :: us ++ first :: bs) x (ds ++ [last]) (by simp)
        have hindex : before.length + (l :: us ++ first :: bs).length =
            before.length + (l :: us).length + 1 + i := by
          simp only [List.length_cons, List.length_append]
          omega
        rw [hindex] at hx
        rw [marks_iff hcode hx, hb x (by simp)]
        exact Bool.false_ne_true

end Document

variable {code source : Text} {d : Dialect} {header : Option ℕ} {e : Excerpt} {ls : List Line}

theorem Excerpt.Spans.isRun (h : e.Spans d header source ls) (hne : ls ≠ []) : e.IsRun source := by
  obtain ⟨hlines, before, after, hall, hfirst, hlast⟩ := h
  have hpos := List.length_pos_iff.2 hne
  have hlength := congrArg List.length hall
  rw [length_linesIn] at hlength
  simp only [List.length_append] at hlength
  exact ⟨hlines, by omega, by omega, by omega⟩

/-- The lines that a step's excerpt reaches over, when it reaches over a core of the step. -/
theorem Placed.reaches (hcode : Dialect.get? code = some d) {s : Document.Step}
    (h : Placed d header source Reading.Step s e) (x : Excerpt) :
    (Step.ofData x (Normal.step s.toData)).Reaches source.lines e.first e.last := by
  obtain ⟨core, hcore, -, before, after, hall, hfirst, hlast⟩ := h
  rw [hfirst, hlast]
  exact reaches_of_core hcode x hcore hall

theorem Placed.isRun {α : Type} {R : List Line → α → List Document.Comment → Prop} {a : α}
    (h : Placed d header source R a e) : e.IsRun source := by
  obtain ⟨core, hcore, hspans⟩ := h
  exact hspans.isRun hcore.1.ne_nil

theorem Placed.covers (hcode : Dialect.get? code = some d) {s : Document.Step}
    (h : Placed d header source Reading.Step s e) :
    (Step.ofData e (Normal.step s.toData)).Covers source.lines := by
  have hrun := h.isRun
  exact ⟨e.first, e.last, h.reaches hcode e, hrun.last_le, congrArg some hrun.text_eq⟩

end Gherkin
