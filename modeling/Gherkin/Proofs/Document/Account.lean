import Gherkin.Proofs.Document.Parse

/-! What becomes of each line of a document. A tree shows tags, headers, steps, rows and doc strings
in the order of the text, a node's tags right before its header. Set aside the lines inside its doc
strings, and the comments of the document are those of its lines, its tags and headers are those of
its lines, and its steps and rows come from lines of their kind. Lines of step or row kind in a
description show nothing, so for these there is no converse. -/

open Gherkin.Document.Parser

namespace Gherkin

namespace Document

/-! ### Events -/

/-- What a tree or a line shows. -/
inductive Event
  | tag (t : LocatedTag)
  | header (location : Location) (block : Block) (keyword name : Text)
  | step (location : Location) (keyword text : Text)
  | row (r : Row)
  | docString (line : ℕ) (fence : Fence)

namespace Event

/-- Tags and headers show wherever they stand outside a doc string. -/
def isMark : Event → Bool
  | tag _ | header .. => true
  | _ => false

/-- The line of an event that has a line of its own; several tags may share one. -/
def line? : Event → Option ℕ
  | tag _ => none
  | header location .. => some location.line
  | step location .. => some location.line
  | row r => some r.location.line
  | docString line _ => some line

/-- The line and the mark of the fence that opens a doc string. -/
def opening? : Event → Option (ℕ × Fence)
  | docString line fence => some (line, fence)
  | _ => none

end Event

def Argument.events : Argument → List Event
  | table _ rows => rows.map .row
  | docString location _ _ fence => [.docString location.line fence]

def Step.events (s : Step) : List Event :=
  .step s.location s.keyword s.text :: s.argument.toList.flatMap Argument.events

def Heading.event (block : Block) (h : Heading) : Event :=
  .header h.location block h.keyword h.name

def Background.events (b : Background) : List Event :=
  b.toHeading.event .background :: b.steps.flatMap Step.events

def Examples.events (e : Examples) : List Event :=
  e.tags.map .tag ++ e.toHeading.event .examples :: (e.header.toList ++ e.body).map .row

def Child.events : Child → List Event
  | background b => b.events
  | scenario s => s.tags.map .tag ++ s.toHeading.event .scenario :: s.steps.flatMap Step.events
  | outline o => o.tags.map .tag ++ o.toHeading.event .outline ::
      (o.steps.flatMap Step.events ++ o.examples.flatMap Examples.events)

def Feature.events (f : Feature) : List Event :=
  f.tags.map .tag ++ f.toHeading.event .feature :: f.children.flatMap Child.events

end Document

/-- The events of a tree in document order. -/
def Document.events (d : Document) : List Document.Event :=
  d.feature.toList.flatMap Document.Feature.events

open Document

/-- What a line shows when it is not inside a doc string. -/
def Line.events (l : Line) : List Event :=
  match l.kind with
  | .tags => match LocatedTag.split l.text l.location with
    | .ok found => found.map .tag
    | .error _ => []
  | .header block keyword name => [.header l.location block keyword name]
  | .step keyword text => [.step l.location keyword text]
  | .row => [.row ⟨l.location, Cell.split l.text l.location⟩]
  | .fence fence _ => [.docString l.number fence]
  | _ => []

namespace Document

/-! ### Doc strings -/

/-- A line after the fence that opens a doc string, with no fence of its mark in between or on the
line itself. -/
def Inside (ls : List Line) (opening : ℕ × Fence) (l : Line) : Prop :=
  opening.1 < l.number ∧
    ∀ k ∈ ls, opening.1 < k.number → k.number ≤ l.number → isFence opening.2 k.kind = false

instance (ls : List Line) (opening : ℕ × Fence) (l : Line) : Decidable (Inside ls opening l) :=
  inferInstanceAs (Decidable (_ ∧ _))

/-- The lines that are not inside a doc string. -/
def outside (ls : List Line) (openings : List (ℕ × Fence)) : List Line :=
  ls.filter fun l => ∀ o ∈ openings, ¬Inside ls o l

/-- Lines, those of them that are kept, and the openings of the doc strings whose insides are not. -/
inductive Kept : List Line → List Line → List (ℕ × Fence) → Prop
  | nil : Kept [] [] []
  | line {l ls out os} (h : Kept ls out os) : Kept (l :: ls) (l :: out) os
  | docString {first body last ls out os fence contentType}
    (ho : first.kind = .fence fence contentType) (hb : ∀ l ∈ body, isFence fence l.kind = false)
    (hc : isFence fence last.kind) (h : Kept ls out os) :
    Kept ((first :: body ++ [last]) ++ ls) (first :: last :: out) ((first.number, fence) :: os)

namespace Kept

variable {ls ls' out out' : List Line} {os os' : List (ℕ × Fence)}

theorem append (h : Kept ls out os) (h' : Kept ls' out' os') :
    Kept (ls ++ ls') (out ++ out') (os ++ os') := by
  induction h with
  | nil => exact h'
  | line _ ih => exact .line ih
  | docString ho hb hc _ ih =>
    rw [List.append_assoc]
    exact .docString ho hb hc ih

theorem all (ls : List Line) : Kept ls ls [] := by
  induction ls with
  | nil => exact .nil
  | cons l ls ih => exact .line ih

/-- A doc string is opened by a line. -/
theorem exists_opening (h : Kept ls out os) : ∀ o ∈ os, ∃ l ∈ ls, l.number = o.1 := by
  induction h with
  | nil => simp
  | line _ ih =>
    intro o ho
    obtain ⟨l, hl, hnum⟩ := ih o ho
    exact ⟨l, List.mem_cons_of_mem _ hl, hnum⟩
  | @docString first _ _ _ _ _ _ _ _ _ _ _ ih =>
    intro o ho
    rcases List.mem_cons.1 ho with rfl | ho
    · exact ⟨first, by simp, rfl⟩
    · obtain ⟨l, hl, hnum⟩ := ih o ho
      exact ⟨l, List.mem_append_right _ hl, hnum⟩

end Kept

/-- Lines before a doc string do not decide what is inside it. -/
theorem inside_append_iff {as bs : List Line} {o : ℕ × Fence} {l : Line}
    (h : ∀ k ∈ as, k.number < o.1) : Inside (as ++ bs) o l ↔ Inside bs o l := by
  constructor
  · rintro ⟨hlt, hall⟩
    exact ⟨hlt, fun k hk => hall k (List.mem_append_right _ hk)⟩
  · rintro ⟨hlt, hall⟩
    refine ⟨hlt, fun k hk hopen => ?_⟩
    rcases List.mem_append.1 hk with hk | hk
    · exact absurd (h k hk) (Nat.not_lt_of_gt hopen)
    · exact hall k hk hopen

/-- Lines after a line do not decide whether it is inside a doc string. -/
theorem inside_append_left_iff {as bs : List Line} {o : ℕ × Fence} {l : Line}
    (h : ∀ k ∈ bs, l.number < k.number) : Inside (as ++ bs) o l ↔ Inside as o l := by
  constructor
  · rintro ⟨hlt, hall⟩
    exact ⟨hlt, fun k hk => hall k (List.mem_append_left _ hk)⟩
  · rintro ⟨hlt, hall⟩
    refine ⟨hlt, fun k hk hopen hle => ?_⟩
    rcases List.mem_append.1 hk with hk | hk
    · exact hall k hk hopen hle
    · exact absurd (h k hk) (Nat.not_lt_of_ge hle)

/-- The doc strings of the first lines are closed there, and the others are opened after them. -/
theorem outside_append {as bs : List Line} {os ps : List (ℕ × Fence)}
    (hs : (as ++ bs).Pairwise (·.number < ·.number))
    (hclosed : ∀ o ∈ os, ∃ k ∈ as, o.1 < k.number ∧ isFence o.2 k.kind)
    (hopen : ∀ p ∈ ps, ∃ k ∈ bs, k.number = p.1) :
    outside (as ++ bs) (os ++ ps) = outside as os ++ outside bs ps := by
  obtain ⟨-, -, hlt⟩ := List.pairwise_append.1 hs
  have hlater : ∀ l ∈ as, ∀ p ∈ ps, l.number < p.1 := by
    intro l hl p hp
    obtain ⟨k, hk, hnum⟩ := hopen p hp
    exact hnum ▸ hlt l hl k hk
  rw [outside, List.filter_append]
  congr 1
  · refine List.filter_congr fun l hl => decide_eq_decide.2 ?_
    rw [List.forall_mem_append]
    constructor
    · rintro ⟨hout, -⟩ o ho
      exact fun hin => hout o ho ((inside_append_left_iff (hlt l hl)).2 hin)
    · intro hout
      refine ⟨fun o ho hin => hout o ho ((inside_append_left_iff (hlt l hl)).1 hin), ?_⟩
      exact fun p hp hin => Nat.lt_asymm hin.1 (hlater l hl p hp)
  · refine List.filter_congr fun l hl => decide_eq_decide.2 ?_
    rw [List.forall_mem_append]
    constructor
    · rintro ⟨-, hout⟩ p hp
      exact fun hin => hout p hp ((inside_append_iff fun k hk => hlater k hk p hp).2 hin)
    · intro hout
      refine ⟨fun o ho hin => ?_, fun p hp hin =>
        hout p hp ((inside_append_iff fun k hk => hlater k hk p hp).1 hin)⟩
      obtain ⟨k, hk, hafter, hfence⟩ := hclosed o ho
      have hnot := hin.2 k (List.mem_append_left _ hk) hafter (hlt k hk l hl).le
      rw [hfence] at hnot
      cases hnot

/-- Of the lines of a doc string just its fences are outside. -/
theorem outside_docString {first last : Line} {body : List Line} {fence : Fence}
    (hs : (first :: body ++ [last]).Pairwise (·.number < ·.number))
    (hb : ∀ l ∈ body, isFence fence l.kind = false) (hc : isFence fence last.kind) :
    outside (first :: body ++ [last]) [(first.number, fence)] = [first, last] := by
  obtain ⟨hbefore, -, hafter⟩ := List.pairwise_append.1 hs
  have hlast : ∀ l ∈ body, l.number < last.number := fun l hl =>
    hafter l (List.mem_cons_of_mem _ hl) last (by simp)
  have hfirst : ¬Inside (first :: body ++ [last]) (first.number, fence) first := fun hin =>
    absurd hin.1 (Nat.lt_irrefl _)
  have hclose : ¬Inside (first :: body ++ [last]) (first.number, fence) last := by
    intro hin
    have hnot := hin.2 last (by simp) hin.1 le_rfl
    rw [hc] at hnot
    cases hnot
  have hin : ∀ l ∈ body, Inside (first :: body ++ [last]) (first.number, fence) l := by
    intro l hl
    refine ⟨(List.pairwise_cons.1 hbefore).1 l hl, fun k hk hopen hle => ?_⟩
    rcases List.mem_append.1 hk with hk | hk
    · rcases List.mem_cons.1 hk with rfl | hk
      · exact absurd hopen (Nat.lt_irrefl _)
      · exact hb k hk
    · rw [List.mem_singleton.1 hk] at hle
      exact absurd (hlast l hl) (Nat.not_lt_of_ge hle)
  have hnone : body.filter (fun l => ∀ o ∈ [(first.number, fence)],
      ¬Inside (first :: body ++ [last]) o l) = [] := by
    rw [List.filter_eq_nil_iff]
    intro l hl
    simpa using hin l hl
  rw [outside, List.filter_append, List.filter_cons_of_pos (by simpa using hfirst), hnone,
    List.filter_cons_of_pos (by simpa using hclose)]
  rfl

/-- What is kept is what is outside, when lines are numbered in their order. -/
theorem Kept.eq_outside {ls out : List Line} {os : List (ℕ × Fence)} (h : Kept ls out os)
    (hs : ls.Pairwise (·.number < ·.number)) : out = outside ls os := by
  induction h with
  | nil => rfl
  | @line l ls out os h ih =>
    have hcut : outside ([l] ++ ls) ([] ++ os) = outside [l] [] ++ outside ls os :=
      outside_append hs (by simp) h.exists_opening
    rw [ih (List.pairwise_cons.1 hs).2]
    exact hcut.symm
  | @docString first body last ls out os fence contentType ho hb hc h ih =>
    obtain ⟨hhead, htail, -⟩ := List.pairwise_append.1 hs
    have hafter : first.number < last.number :=
      (List.pairwise_append.1 hhead).2.2 first (by simp) last (by simp)
    have hclosed : ∀ o ∈ [(first.number, fence)], ∃ k ∈ first :: body ++ [last],
        o.1 < k.number ∧ isFence o.2 k.kind :=
      List.forall_mem_singleton.2 ⟨last, by simp, hafter, hc⟩
    have hcut := outside_append hs hclosed h.exists_opening
    rw [outside_docString hhead hb hc] at hcut
    rw [ih htail]
    exact hcut.symm

/-! ### Accounts -/

/-- The lines kept of some lines stand for the comments and the events of what they hold: the
comments and the marks are all there is of them, every tag line has its tags, and the other events
come from a line of their kind. -/
structure Ledger (ls out : List Line) (cs : List Comment) (es : List Event) : Prop where
  kept : Kept ls out (es.filterMap Event.opening?)
  comments : cs = commentsOf out
  tags : ∀ l ∈ out, l.kind = .tags → ∃ found, LocatedTag.split l.text l.location = .ok found
  marks : es.filter Event.isMark = (out.flatMap Line.events).filter Event.isMark
  events : es.Sublist (out.flatMap Line.events)

def Accounts (ls : List Line) (cs : List Comment) (es : List Event) : Prop :=
  ∃ out, Ledger ls out cs es

namespace Accounts

variable {ls ls' ts : List Line} {cs cs' : List Comment} {es es' : List Event} {l : Line}

theorem append (h : Accounts ls cs es) (h' : Accounts ls' cs' es') :
    Accounts (ls ++ ls') (cs ++ cs') (es ++ es') := by
  obtain ⟨out, h⟩ := h
  obtain ⟨out', h'⟩ := h'
  refine ⟨out ++ out', ?_, ?_, List.forall_mem_append.2 ⟨h.tags, h'.tags⟩, ?_, ?_⟩
  · rw [List.filterMap_append]
    exact h.kept.append h'.kept
  · rw [h.comments, h'.comments, commentsOf_append]
  · rw [List.filter_append, h.marks, h'.marks, List.flatMap_append, List.filter_append]
  · rw [List.flatMap_append]
    exact h.events.append h'.events

/-- Lines without marks need not show anything. -/
theorem unmarked (htags : ∀ l ∈ ls, l.kind ≠ .tags)
    (h : ∀ l ∈ ls, l.events.filter Event.isMark = []) : Accounts ls (commentsOf ls) [] := by
  refine ⟨ls, .all ls, rfl, fun l hl hk => absurd hk (htags l hl), ?_, List.nil_sublist _⟩
  rw [List.filter_flatMap, List.flatMap_eq_nil_iff.2 h, List.filter_nil]

theorem of_trivia (ht : Trivia ts) : Accounts ts (commentsOf ts) [] := by
  refine unmarked (fun l hl hk => ?_) fun l hl => ?_
  · have hkind := ht l hl
    rw [hk] at hkind
    cases hkind
  · have hkind := ht l hl
    cases hk : l.kind <;> simp_all [LineKind.isTrivia, Line.events]

/-- A description has neither marks nor comments in it. -/
theorem of_prose {block : Block} (h : ∀ l ∈ ls, endsDescription block l.kind = false) :
    Accounts ls [] [] := by
  have hcomments : commentsOf ls = [] := by
    rw [commentsOf, List.map_eq_nil_iff, List.filter_eq_nil_iff]
    intro l hl hcomment
    have hends := h l hl
    rw [of_decide_eq_true hcomment] at hends
    cases hends
  rw [← hcomments]
  refine unmarked (fun l hl hk => ?_) fun l hl => ?_
  · have hends := h l hl
    rw [hk] at hends
    cases hends
  · have hkind := h l hl
    cases hk : l.kind <;> simp_all [endsDescription, Line.events, Event.isMark]

/-- A line that is neither a comment nor a fence stands for its own events. -/
theorem single (hcomment : l.kind ≠ .comment)
    (htags : l.kind = .tags → ∃ found, LocatedTag.split l.text l.location = .ok found)
    (hfence : l.events.filterMap Event.opening? = []) : Accounts [l] [] l.events := by
  have hout : [l].flatMap Line.events = l.events := List.flatMap_singleton _ _
  refine ⟨[l], hfence ▸ .all [l], (commentsOf_of_ne hcomment).symm, ?_, ?_, ?_⟩
  · exact List.forall_mem_singleton.2 htags
  · rw [hout]
  · rw [hout]

theorem header {block : Block} {keyword name : Text} (hl : l.kind = .header block keyword name) :
    Accounts [l] [] [.header l.location block keyword name] := by
  have hevents : l.events = [.header l.location block keyword name] := by simp [Line.events, hl]
  rw [← hevents]
  exact single (by simp [hl]) (by simp [hl]) (by simp [hevents, Event.opening?])

theorem many {α : Type} {R : List Line → α → List Comment → Prop} (events : α → List Event)
    (hR : ∀ as a bs, R as a bs → Accounts as bs (events a)) {items : List α}
    (h : Reading.Many R ls items cs) : Accounts ls cs (items.flatMap events) := by
  induction h with
  | nil ht => exact of_trivia ht
  | cons h _ ih =>
    rw [List.flatMap_cons]
    exact (hR _ _ _ h).append ih

end Accounts

variable {ls : List Line} {cs : List Comment}

theorem accounts_tags {found : List LocatedTag} (h : Reading.Tags ls found cs) :
    Accounts ls cs (found.map .tag) := by
  induction h with
  | nil ht => exact .of_trivia ht
  | @cons ts l ls found more cs ht hl hf _ ih =>
    have hevents : l.events = found.map .tag := by simp [Line.events, hl, hf]
    have hline : Accounts [l] [] (found.map .tag) := by
      rw [← hevents]
      refine .single (by simp [hl]) (fun _ => ⟨found, hf⟩) ?_
      rw [hevents, List.filterMap_map]
      exact List.filterMap_eq_nil_iff.2 fun _ _ => rfl
    rw [List.map_append]
    exact (Accounts.of_trivia ht).append (hline.append ih)

theorem accounts_rows {width : ℕ} {found : List Row} (h : Reading.Rows width ls found cs) :
    Accounts ls cs (found.map .row) := by
  induction h with
  | nil ht => exact .of_trivia ht
  | @cons ts l ls more cs ht hl _ _ ih =>
    have hevents : l.events = [.row ⟨l.location, Cell.split l.text l.location⟩] := by
      simp [Line.events, hl]
    have hline := Accounts.single (l := l) (by simp [hl]) (by simp [hl])
      (by simp [hevents, Event.opening?])
    rw [hevents] at hline
    exact (Accounts.of_trivia ht).append (hline.append ih)

theorem accounts_argument {arg : Option Argument} (h : Reading.Argument ls arg cs) :
    Accounts ls cs (arg.toList.flatMap Argument.events) := by
  cases h with
  | none ht => exact .of_trivia ht
  | table h =>
    have hrows := accounts_rows h
    simpa [Argument.events] using hrows
  | @docString ts first body last fence contentType ht ho hb hc =>
    have hopen : first.events = [.docString first.number fence] := by simp [Line.events, ho]
    obtain ⟨_, hlast⟩ := Grammar.isFence_iff.1 hc
    have hclose : last.events = [.docString last.number fence] := by simp [Line.events, hlast]
    have hout : [first, last].flatMap Line.events =
        [.docString first.number fence, .docString last.number fence] := by
      simp [hopen, hclose]
    have hkept := Kept.docString ho hb hc .nil
    rw [List.append_nil] at hkept
    have hblock : Accounts (first :: body ++ [last]) [] [.docString first.number fence] := by
      refine ⟨[first, last], hkept, by simp [commentsOf, ho, hlast], by simp [ho, hlast], ?_, ?_⟩
      · rw [hout]
        rfl
      · rw [hout]
        exact List.singleton_sublist.2 List.mem_cons_self
    have hall := (Accounts.of_trivia ht).append hblock
    simpa [Argument.events, Line.location] using hall

theorem accounts_step {step : Step} (h : Reading.Step ls step cs) : Accounts ls cs step.events := by
  cases h with
  | @mk ts l ls keyword text arg cs ht hl h =>
    have hevents : l.events = [.step l.location keyword text] := by simp [Line.events, hl]
    have hline := Accounts.single (l := l) (by simp [hl]) (by simp [hl])
      (by simp [hevents, Event.opening?])
    rw [hevents] at hline
    exact (Accounts.of_trivia ht).append (hline.append (accounts_argument h))

theorem accounts_headed {block : Block} {head : Heading} (h : Reading.Headed block ls head cs) :
    Accounts ls cs [head.event block] := by
  cases h with
  | mk ht hl hb =>
    have hall := (Accounts.of_trivia ht).append ((Accounts.header hl).append (.of_prose hb))
    simpa [Heading.event] using hall

theorem accounts_background {b : Background} (h : Reading.Background ls b cs) :
    Accounts ls cs b.events := by
  cases h with
  | mk hh h => exact (accounts_headed hh).append (.many Step.events (fun _ _ _ => accounts_step) h)

theorem accounts_examples {e : Examples} (h : Reading.Examples ls e cs) :
    Accounts ls cs e.events := by
  cases h with
  | @mk ts hs rs found head width rows bs cs ds ht hh hr =>
    have hrows : rows.head?.toList ++ rows.tail = rows := by cases rows <;> rfl
    rw [Examples.events, hrows]
    exact (accounts_tags ht).append ((accounts_headed hh).append (accounts_rows hr))

theorem accounts_test {t : Child} (h : Reading.Test ls t cs) : Accounts ls cs t.events := by
  cases h with
  | scenario ht hh h =>
    have hsteps := Accounts.many Step.events (fun _ _ _ => accounts_step) h
    exact (accounts_tags ht).append ((accounts_headed hh).append hsteps)
  | outline ht hh h he =>
    have hsteps := Accounts.many Step.events (fun _ _ _ => accounts_step) h
    have hblocks := Accounts.many Examples.events (fun _ _ _ => accounts_examples) he
    exact (accounts_tags ht).append ((accounts_headed hh).append (hsteps.append hblocks))

theorem accounts_children {children : List Child} (h : Reading.Children ls children cs) :
    Accounts ls cs (children.flatMap Child.events) := by
  cases h with
  | tests h => exact .many Child.events (fun _ _ _ => accounts_test) h
  | background hb h =>
    exact (accounts_background hb).append (.many Child.events (fun _ _ _ => accounts_test) h)

theorem accounts_feature {language : Text} {f : Feature} (h : Reading.Feature language ls f cs) :
    Accounts ls cs f.events := by
  cases h with
  | mk ht hh h =>
    exact (accounts_tags ht).append ((accounts_headed hh).append (accounts_children h))

/-- Every line of a document is accounted for. -/
theorem accounts_document {language : Text} {d : Document} (h : Reading language ls d) :
    Accounts ls d.comments d.events := by
  cases h with
  | empty ht => exact .of_trivia ht
  | feature h =>
    have hall := accounts_feature h
    simpa [Document.events] using hall

/-! ### Order -/

theorem filterMap_line?_events (l : Line) :
    l.events.filterMap Event.line? = [] ∨ l.events.filterMap Event.line? = [l.number] := by
  unfold Line.events
  split
  · split
    · rw [List.filterMap_map]
      exact .inl (List.filterMap_eq_nil_iff.2 fun _ _ => rfl)
    · exact .inl rfl
  all_goals first | exact .inl rfl | exact .inr rfl

theorem filterMap_line?_sublist (out : List Line) :
    ((out.flatMap Line.events).filterMap Event.line?).Sublist (out.map Line.number) := by
  induction out with
  | nil => exact .slnil
  | cons l out ih =>
    rw [List.flatMap_cons, List.filterMap_append, List.map_cons]
    rcases filterMap_line?_events l with h | h
    · rw [h]
      exact ih.cons _
    · rw [h]
      exact ih.cons_cons _

theorem map_line_commentsOf (out : List Line) :
    ((commentsOf out).map (·.location.line)).Sublist (out.map Line.number) := by
  rw [commentsOf, List.map_map]
  exact List.filter_sublist.map _

/-- Outside its doc strings, nothing of a text that is read is lost, and nothing is counted twice:
comments are the comment lines in their order, tags and headers are those of the lines, with the
tags of a node right before its header, and headers, steps and rows are lines of their kind, each
below the ones before. -/
theorem account_of_parse {code source : Text} {doc : Document} (h : parse code source = .ok doc) :
    ∃ fallback d header out, Dialect.get? code = some fallback ∧ ReadIn fallback source d header ∧
      out = outside (linesIn d header source) (doc.events.filterMap Event.opening?) ∧
      doc.comments = commentsOf out ∧ (doc.comments.map (·.location.line)).Pairwise (· < ·) ∧
      (∀ l ∈ out, l.kind = .tags → ∃ found, LocatedTag.split l.text l.location = .ok found) ∧
      doc.events.filter Event.isMark = (out.flatMap Line.events).filter Event.isMark ∧
      doc.events.Sublist (out.flatMap Line.events) ∧
      (doc.events.filterMap Event.line?).Pairwise (· < ·) := by
  obtain ⟨fallback, language, d, header, hcode, hread, -, hreading⟩ := reading_of_parse h
  obtain ⟨out, hledger⟩ := accounts_document hreading
  have hsorted := pairwise_linesIn d header source
  have hout := hledger.kept.eq_outside hsorted
  have hnumbers : (out.map Line.number).Pairwise (· < ·) := by
    rw [List.pairwise_map, hout]
    exact hsorted.sublist List.filter_sublist
  refine ⟨fallback, d, header, out, hcode, hread, hout, hledger.comments, ?_, hledger.tags,
    hledger.marks, hledger.events, ?_⟩
  · rw [hledger.comments]
    exact hnumbers.sublist (map_line_commentsOf out)
  · exact hnumbers.sublist ((hledger.events.filterMap _).trans (filterMap_line?_sublist out))

/-- A number sign in a doc string makes no comment. -/
theorem account_of_parse_docString :
    let source := "#a\nFeature: b\n@t\nScenario: c\n* d\n\"\"\"\n#e\n\"\"\"".toList
    ∃ doc, parse Dialect.defaultCode source = .ok doc ∧ doc.comments.length = 1 ∧
      ∃ d header out, ReadIn Dialect.english source d header ∧
        out = outside (linesIn d header source) (doc.events.filterMap Event.opening?) ∧
        doc.comments = commentsOf out ∧ doc.events.Sublist (out.flatMap Line.events) := by
  intro source
  have hone : (parse Dialect.defaultCode source).toOption.map (·.comments.length) = some 1 := by
    decide +kernel
  cases hparse : parse Dialect.defaultCode source with
  | error e => simp [hparse, Except.toOption] at hone
  | ok doc =>
    obtain ⟨fallback, d, header, out, hcode, hread, hout, hcomments, -, -, -, hevents, -⟩ :=
      account_of_parse hparse
    obtain rfl : fallback = Dialect.english := Option.some.inj (hcode.symm.trans rfl)
    rw [hparse] at hone
    exact ⟨doc, rfl, Option.some.inj hone, d, header, out, hread, hout, hcomments, hevents⟩

end Document

end Gherkin
