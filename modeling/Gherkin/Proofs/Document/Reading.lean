import Gherkin.Document.Parser.Block

/-! What lines hold which node. For every part of a document there is a relation between lines, the
node that they hold, and the comments among them. Blank lines and comments may stand before any
item and after the last one. The relations do not say how lines are divided: a run of blank lines
may count as the end of a description or as trivia before the next item. -/

open Gherkin.Document.Parser

namespace Gherkin

/-- Blank lines, comments and the language header say nothing about the structure. -/
def LineKind.isTrivia : LineKind → Bool
  | .blank | .comment | .language _ => true
  | _ => false

namespace Document

/-- A run of lines that say nothing about the structure. -/
def Trivia (ts : List Line) : Prop := ∀ l ∈ ts, l.kind.isTrivia

/-- The comments among some lines. -/
def commentsOf (ts : List Line) : List Comment := (ts.filter (·.kind = .comment)).map commentOf

namespace Reading

/-- Tag lines, all of them well formed. -/
inductive Tags : List Line → List LocatedTag → List Comment → Prop
  | nil {ts} (ht : Trivia ts) : Tags ts [] (commentsOf ts)
  | cons {ts l ls found more cs} (ht : Trivia ts) (hl : l.kind = .tags)
    (hf : LocatedTag.split l.text l.location = .ok found) (h : Tags ls more cs) :
    Tags (ts ++ l :: ls) (found ++ more) (commentsOf ts ++ cs)

/-- Table rows of `width` cells each. -/
inductive Rows (width : Nat) : List Line → List Row → List Comment → Prop
  | nil {ts} (ht : Trivia ts) : Rows width ts [] (commentsOf ts)
  | cons {ts l ls more cs} (ht : Trivia ts) (hl : l.kind = .row)
    (hw : (Cell.split l.text l.location).length = width) (h : Rows width ls more cs) :
    Rows width (ts ++ l :: ls) (⟨l.location, Cell.split l.text l.location⟩ :: more)
      (commentsOf ts ++ cs)

/-- The table or the doc string after a step line, or neither. Only the closing fence ends a doc
string. -/
inductive Argument : List Line → Option Document.Argument → List Comment → Prop
  | none {ts} (ht : Trivia ts) : Argument ts .none (commentsOf ts)
  | table {width ls row rows cs} (h : Rows width ls (row :: rows) cs) :
    Argument ls (some (.table row.location (row :: rows))) cs
  | docString {ts first body last fence contentType} (ht : Trivia ts)
    (ho : first.kind = .fence fence contentType) (hb : ∀ l ∈ body, isFence fence l.kind = false)
    (hc : isFence fence last.kind) :
    Argument (ts ++ first :: body ++ [last])
      (some (.docString first.location (if contentType = [] then .none else some contentType)
        (Text.unlines (body.map (contentLine first.indent fence))) fence)) (commentsOf ts)

/-- A step line with its argument. -/
inductive Step : List Line → Document.Step → List Comment → Prop
  | mk {ts l ls keyword text arg cs} (ht : Trivia ts) (hl : l.kind = .step keyword text)
    (h : Argument ls arg cs) :
    Step (ts ++ l :: ls) ⟨l.location, keyword, text, arg⟩ (commentsOf ts ++ cs)

/-- A sequence of items of one sort. -/
inductive Many {α : Type} (R : List Line → α → List Comment → Prop) :
    List Line → List α → List Comment → Prop
  | nil {ts} (ht : Trivia ts) : Many R ts [] (commentsOf ts)
  | cons {as a cs ls more ds} (h : R as a cs) (hs : Many R ls more ds) :
    Many R (as ++ ls) (a :: more) (cs ++ ds)

/-- A header line of a block with the description that follows it directly. -/
inductive Headed (block : Block) : List Line → Document.Heading → List Comment → Prop
  | mk {ts l body keyword name} (ht : Trivia ts) (hl : l.kind = .header block keyword name)
    (hb : ∀ x ∈ body, endsDescription block x.kind = false) :
    Headed block (ts ++ l :: body)
      ⟨l.location, keyword, name, descriptionText (body.dropWhile (·.kind = .blank))⟩
      (commentsOf ts)

inductive Background : List Line → Document.Background → List Comment → Prop
  | mk {hs ss head steps cs ds} (hh : Headed .background hs head cs)
    (h : Many Step ss steps ds) : Background (hs ++ ss) ⟨head, steps⟩ (cs ++ ds)

inductive Examples : List Line → Document.Examples → List Comment → Prop
  | mk {ts hs rs found head width rows bs cs ds} (ht : Tags ts found bs)
    (hh : Headed .examples hs head cs) (hr : Rows width rs rows ds) :
    Examples (ts ++ (hs ++ rs)) ⟨head, found, rows.head?, rows.tail⟩ (bs ++ (cs ++ ds))

/-- A scenario, or an outline with its examples. -/
inductive Test : List Line → Child → List Comment → Prop
  | scenario {ts hs ss found head steps bs cs ds} (ht : Tags ts found bs)
    (hh : Headed .scenario hs head cs) (h : Many Step ss steps ds) :
    Test (ts ++ (hs ++ ss)) (.scenario ⟨head, found, steps⟩) (bs ++ (cs ++ ds))
  | outline {ts hs ss es found head steps examples bs cs ds fs} (ht : Tags ts found bs)
    (hh : Headed .outline hs head cs) (h : Many Step ss steps ds)
    (he : Many Examples es examples fs) :
    Test (ts ++ (hs ++ (ss ++ es))) (.outline ⟨head, found, steps, examples⟩)
      (bs ++ (cs ++ (ds ++ fs)))

/-- The blocks of a feature: at most one background, and it comes first. -/
inductive Children : List Line → List Child → List Comment → Prop
  | tests {ls tests cs} (h : Many Test ls tests cs) : Children ls tests cs
  | background {as b cs ls tests ds} (hb : Background as b cs) (h : Many Test ls tests ds) :
    Children (as ++ ls) (.background b :: tests) (cs ++ ds)

inductive Feature (language : Text) : List Line → Document.Feature → List Comment → Prop
  | mk {ts hs ls found head children bs cs ds} (ht : Tags ts found bs)
    (hh : Headed .feature hs head cs) (h : Children ls children ds) :
    Feature language (ts ++ (hs ++ ls)) ⟨head, found, language, children⟩ (bs ++ (cs ++ ds))

end Reading

/-- The document that lines hold. -/
inductive Reading (language : Text) : List Line → Document → Prop
  | empty {ts} (ht : Trivia ts) : Reading language ts ⟨none, commentsOf ts⟩
  | feature {ls feature cs} (h : Reading.Feature language ls feature cs) :
    Reading language ls ⟨some feature, cs⟩

/-- A feature is in the language that it is read in. -/
theorem Reading.Feature.language_eq {language : Text} {ls : List Line} {f : Document.Feature}
    {cs : List Comment} (h : Reading.Feature language ls f cs) : f.language = language := by
  cases h
  rfl

/-! ### Trivia -/

namespace Trivia

variable {ts us : List Line} {l : Line}

theorem nil : Trivia [] := fun _ h => nomatch h

theorem cons (hl : l.kind.isTrivia) (h : Trivia ts) : Trivia (l :: ts) :=
  List.forall_mem_cons.2 ⟨hl, h⟩

theorem append (h : Trivia ts) (h' : Trivia us) : Trivia (ts ++ us) :=
  List.forall_mem_append.2 ⟨h, h'⟩

end Trivia

@[simp] theorem commentsOf_nil : commentsOf [] = [] := rfl

@[simp] theorem commentsOf_append (ts us : List Line) :
    commentsOf (ts ++ us) = commentsOf ts ++ commentsOf us := by
  simp [commentsOf]

theorem exists_trivia (ls : List Line) :
    ∃ ts, Trivia ts ∧ ls = ts ++ (skipTrivia ls).2 ∧ (skipTrivia ls).1 = commentsOf ts := by
  fun_induction skipTrivia ls with
  | case1 => exact ⟨[], .nil, rfl, rfl⟩
  | case2 l ls hl ih =>
    obtain ⟨ts, ht, hls, hcs⟩ := ih
    exact ⟨l :: ts, ht.cons (by simp [hl, LineKind.isTrivia]), by rw [List.cons_append, ← hls],
      by simp [hcs, commentsOf, hl]⟩
  | case3 l ls code hl ih =>
    obtain ⟨ts, ht, hls, hcs⟩ := ih
    exact ⟨l :: ts, ht.cons (by simp [hl, LineKind.isTrivia]), by rw [List.cons_append, ← hls],
      by simp [hcs, commentsOf, hl]⟩
  | case4 l ls hl ih =>
    obtain ⟨ts, ht, hls, hcs⟩ := ih
    exact ⟨l :: ts, ht.cons (by simp [hl, LineKind.isTrivia]), by
      rw [List.cons_append, ← hls], by simp [hcs, commentsOf, hl]⟩
  | case5 l ls => exact ⟨[], .nil, rfl, rfl⟩

/-- Passing over trivia splits the lines into trivia and a rest. -/
theorem trivia_of_skipTrivia {ls rest : List Line} {passed : List Comment}
    (h : skipTrivia ls = (passed, rest)) :
    ∃ ts, Trivia ts ∧ ls = ts ++ rest ∧ passed = commentsOf ts := by
  simpa [h] using exists_trivia ls

theorem skipTrivia_cons_of_not {l : Line} {ls : List Line} (h : l.kind.isTrivia = false) :
    skipTrivia (l :: ls) = ([], l :: ls) := by
  cases hk : l.kind <;> simp_all [skipTrivia, LineKind.isTrivia]

theorem skipTrivia_append {ts : List Line} (ht : Trivia ts) (ls : List Line) :
    skipTrivia (ts ++ ls) = (commentsOf ts ++ (skipTrivia ls).1, (skipTrivia ls).2) := by
  induction ts with
  | nil => rfl
  | cons l ts ih =>
    obtain ⟨hl, ht⟩ := List.forall_mem_cons.1 ht
    cases hk : l.kind <;> simp_all [skipTrivia, LineKind.isTrivia, commentsOf, Trivia]

theorem not_isTrivia_of_skipTrivia {ls : List Line} {l : Line} (h : (skipTrivia ls).2.head? = some l) :
    l.kind.isTrivia = false := by
  fun_induction skipTrivia ls with
  | case1 => cases h
  | case2 _ _ _ ih | case3 _ _ _ _ ih | case4 _ _ _ ih => exact ih h
  | case5 m ls h₁ h₂ h₃ =>
    obtain rfl := Option.some.inj h
    cases hk : m.kind <;> simp_all [LineKind.isTrivia]

/-- There is nothing more to pass. -/
theorem skipTrivia_rest (ls : List Line) : skipTrivia (skipTrivia ls).2 = ([], (skipTrivia ls).2) := by
  cases hrest : (skipTrivia ls).2 with
  | nil => rfl
  | cons l rest => exact skipTrivia_cons_of_not (not_isTrivia_of_skipTrivia (by rw [hrest]; rfl))

end Document

end Gherkin
