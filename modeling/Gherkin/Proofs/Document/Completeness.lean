import Gherkin.Proofs.Document.Soundness

/-! What lines hold is read. A parser that meets the lines of its node takes up just these, whatever
comes after, as long as what comes after cannot go on with the node. How far a description or a
table reaches is decided greedily, so each statement says with what kind of line the rest may
start. -/

open Gherkin.Document.Parser

namespace Gherkin.Document

variable {ls ts rest : List Line} {cs : List Comment}

/-! ### What comes after -/

/-- If anything but trivia is there, it starts with a line of such a kind. -/
def Stops (p : LineKind → Bool) (ls : List Line) : Prop :=
  ∀ l, (skipTrivia ls).2.head? = some l → p l.kind

/-- Tag lines and headers start a block. -/
def startsBlock : LineKind → Bool
  | .tags | .header .. => true
  | _ => false

/-- Neither a table nor a doc string starts here. -/
def noArgument : LineKind → Bool
  | .row | .fence .. => false
  | _ => true

theorem ne_row_of_noArgument {k : LineKind} (h : noArgument k) : decide (k ≠ .row) := by
  cases k <;> simp_all [noArgument]

theorem noArgument_of_startsBlock {k : LineKind} (h : startsBlock k) : noArgument k := by
  cases k <;> simp_all [startsBlock, noArgument]

theorem Stops.mono {p q : LineKind → Bool} (h : Stops p ls) (hpq : ∀ k, p k → q k) : Stops q ls :=
  fun l hl => hpq _ (h l hl)

theorem Stops.of_trivia {p : LineKind → Bool} (ht : Trivia ts) : Stops p ts := by
  intro l hl
  have h := skipTrivia_append ht []
  rw [List.append_nil] at h
  simp [h, skipTrivia] at hl

theorem Stops.append {p : LineKind → Bool} (ht : Trivia ts) (h : Stops p ls) :
    Stops p (ts ++ ls) := by
  simpa [Stops, skipTrivia_append ht] using h

theorem Stops.cons {p : LineKind → Bool} {l : Line} (hl : l.kind.isTrivia = false)
    (hp : p l.kind) : Stops p (l :: ls) := by
  rintro m hm
  rw [skipTrivia_cons_of_not hl] at hm
  obtain rfl := Option.some.inj hm
  exact hp

/-- Past the trivia there is nothing, or a line of the kind said. -/
theorem Stops.cases {p : LineKind → Bool} (h : Stops p ls) :
    ∃ ts, Trivia ts ∧ (skipTrivia ls).1 = commentsOf ts ∧ ls = ts ++ (skipTrivia ls).2 ∧
      ((skipTrivia ls).2 = [] ∨
        ∃ l more, (skipTrivia ls).2 = l :: more ∧ l.kind.isTrivia = false ∧ p l.kind) := by
  obtain ⟨ts, ht, hls, hcs⟩ := exists_trivia ls
  refine ⟨ts, ht, hcs, hls, ?_⟩
  cases hrest : (skipTrivia ls).2 with
  | nil => exact .inl rfl
  | cons l more =>
    have hhead : (skipTrivia ls).2.head? = some l := by rw [hrest]; rfl
    exact .inr ⟨l, more, rfl, not_isTrivia_of_skipTrivia hhead, h l hhead⟩

/-- A parsed value with more comments before its own. -/
def pass {α : Type} (cs : List Comment) (p : Parsed α) : Parsed α :=
  { p with comments := cs ++ p.comments }

@[simp] theorem pass_nil {α : Type} (p : Parsed α) : pass [] p = p := rfl

/-- The value, with all trivia passed that comes after it. -/
def upTo {α : Type} (a : α) (cs : List Comment) (ls : List Line) : Parsed α :=
  ⟨a, cs ++ (skipTrivia ls).1, (skipTrivia ls).2⟩

@[simp] theorem pass_upTo {α : Type} (a : α) (bs cs : List Comment) (ls : List Line) :
    pass bs (upTo a cs ls) = upTo a (bs ++ cs) ls := by
  simp [pass, upTo]

theorem map_pass_nil {α : Type} (x : Outcome α) : x.map (pass []) = x := by
  cases x <;> rfl

theorem map_pass_pass {α : Type} (x : Outcome α) (bs cs : List Comment) :
    (x.map (pass cs)).map (pass bs) = x.map (pass (bs ++ cs)) := by
  cases x <;> simp [Except.map, pass]

/-- A parser that passes trivia on the way goes on where the trivia end. -/
theorem resume {α : Type} {f : List Line → Outcome α}
    (hf : ∀ {ts}, Trivia ts → ∀ ls, f (ts ++ ls) = (f ls).map (pass (commentsOf ts)))
    (ls : List Line) : f ls = (f (skipTrivia ls).2).map (pass (skipTrivia ls).1) := by
  obtain ⟨ts, ht, hls, hcs⟩ := exists_trivia ls
  rw [hcs, ← hf ht, ← hls]

/-- What it reads from there. -/
theorem resume_ok {α : Type} {f : List Line → Outcome α} {p : Parsed α}
    (hf : ∀ {ts}, Trivia ts → ∀ ls, f (ts ++ ls) = (f ls).map (pass (commentsOf ts)))
    (h : f ls = .ok p) :
    ∃ q, f (skipTrivia ls).2 = .ok q ∧ q.value = p.value ∧ q.rest = p.rest ∧
      (skipTrivia ls).1 ++ q.comments = p.comments := by
  rw [resume hf ls] at h
  obtain ⟨q, hq, rfl⟩ := map_eq_ok_iff.1 h
  exact ⟨q, hq, rfl, rfl, rfl⟩

/-! ### Runs of like lines -/

theorem tags_trivia (ht : Trivia ts) (ls : List Line) :
    tags (ts ++ ls) = (tags ls).map (pass (commentsOf ts)) := by
  induction ts with
  | nil => exact (map_pass_nil _).symm
  | cons l ts ih =>
    obtain ⟨hl, ht⟩ := List.forall_mem_cons.1 ht
    rw [← List.singleton_append, commentsOf_append, ← map_pass_pass, List.append_assoc, ← ih ht]
    cases hk : l.kind with
    | blank => simp [tags, hk, commentsOf, map_pass_nil]
    | language code => simp [tags, hk, commentsOf, map_pass_nil]
    | comment => simp [tags, hk, commentsOf]; rfl
    | _ => simp [hk, LineKind.isTrivia] at hl

theorem tags_stops (h : Stops (· ≠ .tags) rest) : tags rest = .ok (upTo [] [] rest) := by
  obtain ⟨-, -, -, -, hrest⟩ := h.cases
  rw [upTo, List.nil_append, resume tags_trivia rest]
  rcases hrest with hnil | ⟨l, more, hcons, hl, hk⟩
  · simp [hnil, tags, Except.map, pass]
  · rw [hcons]
    cases hkind : l.kind <;> simp_all [tags, Except.map, pass, LineKind.isTrivia]

theorem tags_append {found} (h : Reading.Tags ls found cs) (hr : Stops (· ≠ .tags) rest) :
    tags (ls ++ rest) = .ok (upTo found cs rest) := by
  induction h with
  | nil ht =>
    rw [tags_trivia ht, tags_stops hr]
    simp [Except.map]
  | @cons ts l ls found more cs ht hl hf _ ih =>
    rw [List.append_assoc, tags_trivia ht, List.cons_append]
    simp only [tags, hl, hf, ih]
    simp [Except.map, pass, upTo]

theorem rows_trivia (width : Option Nat) (ht : Trivia ts) (ls : List Line) :
    rows width (ts ++ ls) = (rows width ls).map (pass (commentsOf ts)) := by
  induction ts with
  | nil => exact (map_pass_nil _).symm
  | cons l ts ih =>
    obtain ⟨hl, ht⟩ := List.forall_mem_cons.1 ht
    rw [← List.singleton_append, commentsOf_append, ← map_pass_pass, List.append_assoc, ← ih ht]
    cases hk : l.kind with
    | blank => simp [rows, hk, commentsOf, map_pass_nil]
    | language code => simp [rows, hk, commentsOf, map_pass_nil]
    | comment => simp [rows, hk, commentsOf]; rfl
    | _ => simp [hk, LineKind.isTrivia] at hl

theorem rows_stops (width : Option Nat) (h : Stops (· ≠ .row) rest) :
    rows width rest = .ok (upTo [] [] rest) := by
  obtain ⟨-, -, -, -, hrest⟩ := h.cases
  rw [upTo, List.nil_append, resume (rows_trivia width) rest]
  rcases hrest with hnil | ⟨l, more, hcons, hl, hk⟩
  · simp [hnil, rows, Except.map, pass]
  · rw [hcons]
    cases hkind : l.kind <;> simp_all [rows, Except.map, pass, LineKind.isTrivia]

theorem rows_append {w : Nat} {found} {width : Option Nat} (h : Reading.Rows w ls found cs)
    (hw : ∀ v ∈ width, v = w) (hr : Stops (· ≠ .row) rest) :
    rows width (ls ++ rest) = .ok (upTo found cs rest) := by
  induction h generalizing width with
  | nil ht =>
    rw [rows_trivia width ht, rows_stops width hr]
    simp [Except.map]
  | @cons ts l ls more cs ht hl hc _ ih =>
    have hwidth : width.getD w = w := by
      cases width with
      | none => rfl
      | some v => exact hw v rfl
    rw [List.append_assoc, rows_trivia width ht, List.cons_append]
    simp only [rows, hl, hc, hwidth, if_true]
    rw [ih (by simp)]
    simp [Except.map, pass, upTo]

/-! ### Descriptions -/

/-- Lines that count as blank are blank. -/
def Tidy (ls : List Line) : Prop := ∀ l ∈ ls, l.kind = .blank → l.raw.trimEnd = []

theorem Tidy.of_append_right (h : Tidy (ls ++ rest)) : Tidy rest :=
  fun l hl => h l (List.mem_append_right _ hl)

theorem descriptionText_append_blank {blanks : List Line}
    (h : ∀ l ∈ blanks, l.raw.trimEnd = []) (ls : List Line) :
    descriptionText (ls ++ blanks) = descriptionText ls := by
  have hdrop : ((blanks.map fun l => l.raw.trimEnd).reverse).dropWhile List.isEmpty = [] := by
    rw [List.dropWhile_eq_nil_iff]
    intro t ht
    obtain ⟨l, hl, rfl⟩ := List.mem_map.1 (List.mem_reverse.1 ht)
    simp [h l hl]
  rw [descriptionText, descriptionText, List.map_append, List.reverse_append, List.dropWhile_append,
    hdrop]
  rfl

/-- The blank lines in front. -/
theorem exists_blanks (ls : List Line) : ∃ blanks more, ls = blanks ++ more ∧
    (∀ l ∈ blanks, l.kind = .blank) ∧ ∀ l ∈ more.head?, l.kind ≠ .blank := by
  induction ls with
  | nil => exact ⟨[], [], rfl, by simp, by simp⟩
  | cons l ls ih =>
    by_cases hl : l.kind = .blank
    · obtain ⟨blanks, more, hls, hb, hm⟩ := ih
      exact ⟨l :: blanks, more, by rw [hls]; rfl, List.forall_mem_cons.2 ⟨hl, hb⟩, hm⟩
    · exact ⟨[], l :: ls, rfl, by simp, by simpa using hl⟩

/-- A description goes on through the blank lines after it, and these do not show in it. -/
theorem description_append {block : Block} {body : List Line}
    (hb : ∀ x ∈ body, endsDescription block x.kind = false) (htidy : Tidy rest)
    (hr : Stops (endsDescription block) rest) :
    ∃ blanks more, Trivia blanks ∧ commentsOf blanks = [] ∧ rest = blanks ++ more ∧
      description block (body ++ rest) = (descriptionText (body.dropWhile (·.kind = .blank)), more) := by
  obtain ⟨blanks, more, rfl, hblank, hmore⟩ := exists_blanks rest
  have ht : Trivia blanks := fun l hl => by simp [hblank l hl, LineKind.isTrivia]
  have hcs : commentsOf blanks = [] := by
    simp only [commentsOf, List.map_eq_nil_iff, List.filter_eq_nil_iff]
    intro l hl
    simp [hblank l hl]
  -- what is left starts with a line that ends the description, be it only a comment
  have hend : ∀ l tail, more = l :: tail → endsDescription block l.kind := by
    rintro l tail rfl
    have hnot : l.kind ≠ .blank := hmore l rfl
    cases hk : l.kind.isTrivia with
    | true => cases hkind : l.kind <;> simp_all [LineKind.isTrivia, endsDescription]
    | false =>
      refine hr l ?_
      rw [skipTrivia_append ht, skipTrivia_cons_of_not hk]
      rfl
  have hall : ∀ x ∈ body ++ blanks, (!endsDescription block x.kind) = true := by
    intro x hx
    rcases List.mem_append.1 hx with hx | hx
    · simp [hb x hx]
    · simp [endsDescription_blank block (hblank x hx)]
  have htake : more.takeWhile (fun l => !endsDescription block l.kind) = [] := by
    cases more with
    | nil => rfl
    | cons m tail => simp [hend m tail rfl]
  have hdrop : more.dropWhile (fun l => !endsDescription block l.kind) = more := by
    cases more with
    | nil => rfl
    | cons m tail => simp [hend m tail rfl]
  have hnone : blanks.dropWhile (·.kind = .blank) = [] := by
    rw [List.dropWhile_eq_nil_iff]
    exact fun l hl => by simp [hblank l hl]
  refine ⟨blanks, more, ht, hcs, rfl, Prod.ext ?_ ?_⟩
  · rw [description_text, ← List.append_assoc, List.takeWhile_append_of_pos hall, htake,
      List.append_nil, List.dropWhile_append]
    split_ifs with hempty
    · rw [hnone, List.isEmpty_iff.1 hempty]
    · exact descriptionText_append_blank
        (fun l hl => htidy l (List.mem_append_left _ hl) (hblank l hl)) _
  · rw [description_rest, ← List.append_assoc, List.dropWhile_append_of_pos hall, hdrop]

/-! ### Steps -/

theorem docString_append {indent : Nat} {fence : Fence} {body : List Line} {last : Line}
    (hb : ∀ l ∈ body, isFence fence l.kind = false) (hc : isFence fence last.kind)
    (rest : List Line) :
    docString indent fence (body ++ last :: rest) =
      some (body.map (contentLine indent fence), rest) := by
  induction body with
  | nil => simp [docString, hc]
  | cons l body ih =>
    obtain ⟨hl, hb⟩ := List.forall_mem_cons.1 hb
    simp [docString, hl, ih hb]

theorem docString_eq_none_iff {indent : Nat} {fence : Fence} :
    docString indent fence ls = none ↔ ∀ l ∈ ls, isFence fence l.kind = false := by
  induction ls with
  | nil => simp [docString]
  | cons l ls ih =>
    rw [docString, List.forall_mem_cons, ← ih]
    cases isFence fence l.kind <;> simp

theorem argument_of_nil {passed : List Comment} (h : skipTrivia ls = (passed, [])) :
    argument ls = .ok ⟨none, passed, []⟩ := by
  rw [argument, h]

theorem argument_of_other {passed : List Comment} {l : Line}
    (h : skipTrivia ls = (passed, l :: rest)) (hl : noArgument l.kind) :
    argument ls = .ok ⟨none, passed, l :: rest⟩ := by
  rw [argument, h]
  cases hk : l.kind <;> simp_all [noArgument]

/-- After an argument some trivia may have been passed already. -/
theorem argument_append {arg} (h : Reading.Argument ls arg cs) (hr : Stops noArgument rest) :
    ∃ passed more, Trivia passed ∧ rest = passed ++ more ∧
      argument (ls ++ rest) = .ok ⟨arg, cs ++ commentsOf passed, more⟩ := by
  obtain ⟨passed, hp, hcs, hls, hrest⟩ := hr.cases
  cases h with
  | none ht =>
    refine ⟨passed, (skipTrivia rest).2, hp, hls, ?_⟩
    have hs := skipTrivia_append ht rest
    rw [hcs] at hs
    rcases hrest with hnil | ⟨l, more, hcons, -, hk⟩
    · rw [hnil] at hs ⊢
      exact argument_of_nil hs
    · rw [hcons] at hs ⊢
      exact argument_of_other hs hk
  | @table width _ row rows _ h =>
    refine ⟨passed, (skipTrivia rest).2, hp, hls, ?_⟩
    have hrow : Stops (· ≠ .row) rest := hr.mono fun _ => ne_row_of_noArgument
    cases h with
    | @cons ts l ls more cs ht hl hw h =>
      have hnot : l.kind.isTrivia = false := by simp [hl, LineKind.isTrivia]
      have hread : Parser.rows none _ = _ := rows_append (.cons .nil hl hw h) (by simp) hrow
      simp only [List.nil_append, List.cons_append, commentsOf_nil] at hread
      rw [argument, List.append_assoc, skipTrivia_append ht, List.cons_append,
        skipTrivia_cons_of_not hnot]
      simp only [hl, hread]
      simp [Except.map, upTo, hcs]
  | @docString ts first body last fence contentType ht ho hb hc =>
    refine ⟨[], rest, .nil, rfl, ?_⟩
    have hnot : first.kind.isTrivia = false := by simp [ho, LineKind.isTrivia]
    have hread : docString first.indent fence _ = _ := docString_append hb hc rest
    rw [argument, List.append_assoc, List.append_assoc, skipTrivia_append ht, List.cons_append,
      skipTrivia_cons_of_not hnot]
    simp [ho, hread]

theorem steps_of_nil {passed : List Comment} (h : skipTrivia ls = (passed, [])) :
    steps ls = .ok ⟨[], passed, []⟩ := by
  rw [steps]
  split
  · simp_all
  · simp_all

theorem steps_of_step {passed : List Comment} {l : Line} {keyword text : Text}
    (h : skipTrivia ls = (passed, l :: rest)) (hl : l.kind = .step keyword text) :
    steps ls = (argument rest).bind fun arg => (steps arg.rest).map fun more =>
      ⟨⟨l.location, keyword, text, arg.value⟩ :: more.value,
        passed ++ arg.comments ++ more.comments, more.rest⟩ := by
  rw [steps]
  split
  · simp_all
  · next hs =>
    obtain ⟨rfl, hcons⟩ := Prod.mk.inj (hs.symm.trans h)
    obtain ⟨rfl, rfl⟩ := List.cons.inj hcons
    split
    · next hk =>
      obtain ⟨rfl, rfl⟩ := LineKind.step.inj (hk.symm.trans hl)
      split <;> simp_all [Except.bind]
    · next hk => exact absurd hl (hk _ _)

theorem steps_of_other {passed : List Comment} {l : Line}
    (h : skipTrivia ls = (passed, l :: rest)) (hl : ∀ keyword text, l.kind ≠ .step keyword text) :
    steps ls = .ok ⟨[], passed, l :: rest⟩ := by
  rw [steps]
  split
  · simp_all
  · next hs =>
    obtain ⟨rfl, hcons⟩ := Prod.mk.inj (hs.symm.trans h)
    obtain ⟨rfl, rfl⟩ := List.cons.inj hcons
    split
    · next hk => exact absurd hk (hl _ _)
    · rfl

theorem steps_trivia (ht : Trivia ts) (ls : List Line) :
    steps (ts ++ ls) = (steps ls).map (pass (commentsOf ts)) := by
  have hs := skipTrivia_append ht ls
  rcases hrest : (skipTrivia ls).2 with - | ⟨l, rest⟩
  · rw [hrest] at hs
    have hls : skipTrivia ls = ((skipTrivia ls).1, []) := Prod.ext rfl hrest
    rw [steps_of_nil hs, steps_of_nil hls]
    rfl
  · rw [hrest] at hs
    have hls : skipTrivia ls = ((skipTrivia ls).1, l :: rest) := Prod.ext rfl hrest
    by_cases hk : ∃ keyword text, l.kind = .step keyword text
    · obtain ⟨keyword, text, hk⟩ := hk
      rw [steps_of_step hs hk, steps_of_step hls hk]
      cases argument rest with
      | error e => rfl
      | ok arg =>
        simp only [Except.bind]
        cases steps arg.rest <;> simp [Except.map, pass]
    · have hk' : ∀ keyword text, l.kind ≠ .step keyword text := fun k t e => hk ⟨k, t, e⟩
      rw [steps_of_other hs hk', steps_of_other hls hk']
      rfl

/-- A step starts with a step line. -/
theorem stops_step {step} {p : LineKind → Bool} (h : Reading.Step ls step cs)
    (hp : ∀ keyword text, p (.step keyword text)) (rest : List Line) : Stops p (ls ++ rest) := by
  cases h with
  | mk ht hl ha =>
    rw [List.append_assoc, List.cons_append]
    exact .append ht (.cons (by simp [hl, LineKind.isTrivia]) (hl ▸ hp _ _))

/-- Steps start with a step line, unless there are none. -/
theorem stops_steps {found} {p : LineKind → Bool}
    (h : Reading.Many Reading.Step ls found cs) (hp : ∀ keyword text, p (.step keyword text))
    (hr : Stops p rest) : Stops p (ls ++ rest) := by
  cases h with
  | nil ht => exact hr.append ht
  | cons h hs =>
    rw [List.append_assoc]
    exact stops_step h hp _

theorem steps_append {found} (h : Reading.Many Reading.Step ls found cs)
    (hr : Stops startsBlock rest) : steps (ls ++ rest) = .ok (upTo found cs rest) := by
  induction h with
  | nil ht =>
    have hs := skipTrivia_append ht rest
    obtain ⟨-, -, -, -, hrest⟩ := hr.cases
    rcases hrest with hnil | ⟨l, more, hcons, -, hk⟩
    · rw [upTo, hnil]
      exact steps_of_nil (hnil ▸ hs)
    · rw [upTo, hcons]
      exact steps_of_other (hcons ▸ hs) fun _ _ hl => by simp [hl, startsBlock] at hk
  | @cons as step cs ls more ds h hs ih =>
    cases h with
    | @mk ts l as keyword text arg cs ht hl ha =>
      have hnot : l.kind.isTrivia = false := by simp [hl, LineKind.isTrivia]
      have hnext : Stops noArgument (ls ++ rest) :=
        stops_steps hs (fun _ _ => rfl) (hr.mono fun _ => noArgument_of_startsBlock)
      obtain ⟨passed, left, hp, hsplit, harg⟩ := argument_append ha hnext
      have hskip : skipTrivia (ts ++ l :: as ++ ls ++ rest) =
          (commentsOf ts, l :: (as ++ (ls ++ rest))) := by
        simp [skipTrivia_append ht, skipTrivia_cons_of_not hnot]
      -- the steps after this one are those of the rest, less the trivia passed already
      rw [hsplit, steps_trivia hp] at ih
      obtain ⟨q, hq, hqeq⟩ := map_eq_ok_iff.1 ih
      have hcomments : commentsOf passed ++ q.comments = ds ++ (skipTrivia rest).1 :=
        congrArg Parsed.comments hqeq
      have hvalue : q.value = more := congrArg Parsed.value hqeq
      have hleft : q.rest = (skipTrivia rest).2 := congrArg Parsed.rest hqeq
      rw [steps_of_step hskip hl, harg]
      simp [Except.bind, hq, Except.map, upTo, hvalue, hleft, hcomments]

/-! ### Blocks -/

/-- A heading from its header line and what follows it; blank lines after it may have been
passed. -/
theorem heading_append {block : Block} {head} (h : Reading.Headed block ls head cs)
    (htidy : Tidy rest) (hr : Stops (endsDescription block) rest) :
    ∃ ts l more blanks left keyword name, Trivia ts ∧ cs = commentsOf ts ∧ ls ++ rest = ts ++ l :: more ∧
      l.kind = .header block keyword name ∧ heading l block keyword name more = head ∧
      Trivia blanks ∧ commentsOf blanks = [] ∧ rest = blanks ++ left ∧
      (description block more).2 = left := by
  cases h with
  | @mk ts l body keyword name ht hl hb =>
    obtain ⟨blanks, left, hblank, hcs, hsplit, hdesc⟩ := description_append hb htidy hr
    exact ⟨ts, l, body ++ rest, blanks, left, keyword, name, ht, rfl, by simp, hl,
      by rw [heading, hdesc], hblank, hcs, hsplit, by rw [hdesc]⟩

/-- The description of a background or a test ends where its steps or the next block start. -/
theorem ends_steps {block : Block} {found} (hblock : block ≠ .feature ∧ block ≠ .examples)
    (h : Reading.Many Reading.Step ls found cs) (hr : Stops startsBlock rest) :
    Stops (endsDescription block) (ls ++ rest) := by
  refine stops_steps h (fun _ _ => by simp [endsDescription, hblock]) (hr.mono fun k hk => ?_)
  cases k <;> simp_all [startsBlock, endsDescription]

theorem steps_of_blanks {found} {blanks left : List Line} (hb : Trivia blanks)
    (hcs : commentsOf blanks = []) (hsplit : ls ++ rest = blanks ++ left)
    (h : Reading.Many Reading.Step ls found cs) (hr : Stops startsBlock rest) :
    steps left = .ok (upTo found cs rest) := by
  have hread := steps_append h hr
  rwa [hsplit, steps_trivia hb, hcs, map_pass_nil] at hread

theorem background_append {b} (h : Reading.Background ls b cs) (htidy : Tidy (ls ++ rest))
    (hr : Stops startsBlock rest) :
    ∃ ts l more keyword name ds, Trivia ts ∧ cs = commentsOf ts ++ ds ∧ ls ++ rest = ts ++ l :: more ∧
      l.kind = .header .background keyword name ∧
      background l keyword name more = .ok (upTo b ds rest) := by
  cases h with
  | @mk hs ss head steps cs ds hh h =>
    rw [List.append_assoc] at htidy
    obtain ⟨ts, l, more, blanks, left, keyword, name, ht, rfl, hls, hl, hhead, hb, hcs, hsplit, hleft⟩ :=
      heading_append hh htidy.of_append_right (ends_steps (by simp) h hr)
    refine ⟨ts, l, more, keyword, name, ds, ht, rfl, by rw [List.append_assoc, hls], hl, ?_⟩
    rw [background, hleft, steps_of_blanks hb hcs hsplit h hr, hhead]
    rfl

/-- A heading goes on with its header line, after the tags before it. -/
theorem tags_heading {block : Block} {found head} {hs : List Line} {bs : List Comment}
    (ht : Reading.Tags ts found bs) (hh : Reading.Headed block hs head cs) (htidy : Tidy rest)
    (hr : Stops (endsDescription block) rest) :
    ∃ l more blanks left keyword name,
      tags (ts ++ (hs ++ rest)) = .ok ⟨found, bs ++ cs, l :: more⟩ ∧
      l.kind = .header block keyword name ∧ heading l block keyword name more = head ∧
      Trivia blanks ∧ commentsOf blanks = [] ∧ rest = blanks ++ left ∧
      (description block more).2 = left := by
  obtain ⟨us, l, more, blanks, left, keyword, name, hu, rfl, hls, hl, hhead, hb, hcs, hsplit, hleft⟩ :=
    heading_append hh htidy hr
  have hnot : l.kind.isTrivia = false := by simp [hl, LineKind.isTrivia]
  have hstop : Stops (· ≠ .tags) (hs ++ rest) := by
    rw [hls]
    exact .append hu (.cons hnot (by simp [hl]))
  refine ⟨l, more, blanks, left, keyword, name, ?_, hl, hhead, hb, hcs, hsplit, hleft⟩
  rw [tags_append ht hstop, upTo, hls, skipTrivia_append hu, skipTrivia_cons_of_not hnot,
    List.append_nil]

/-! ### Examples -/

theorem stops_rows {w : Nat} {found} {p : LineKind → Bool} (h : Reading.Rows w ls found cs)
    (hp : p .row) (hr : Stops p rest) : Stops p (ls ++ rest) := by
  cases h with
  | nil ht => exact hr.append ht
  | cons ht hl hw h =>
    rw [List.append_assoc, List.cons_append]
    exact .append ht (.cons (by simp [hl, LineKind.isTrivia]) (hl ▸ hp))

theorem endsExamples_of_stops (h : Stops startsBlock rest) :
    endsExamples (skipTrivia rest).2 = none := by
  obtain ⟨-, -, -, -, hrest⟩ := h.cases
  rcases hrest with hnil | ⟨l, more, hcons, -, hk⟩
  · rw [hnil]
    rfl
  · rw [hcons]
    cases hkind : l.kind <;> simp_all [endsExamples, startsBlock]

theorem examples_append (last : Nat) {e} (h : Reading.Examples ls e cs) (htidy : Tidy (ls ++ rest))
    (hr : Stops startsBlock rest) : examples last (ls ++ rest) = .ok (upTo e cs rest) := by
  cases h with
  | @mk ts hs rs found head width rows bs cs ds ht hh hrows =>
    have hstop : Stops (endsDescription .examples) (rs ++ rest) := by
      refine stops_rows hrows (by simp [endsDescription]) (hr.mono fun k hk => ?_)
      cases k <;> simp_all [startsBlock, endsDescription]
    have htidy' : Tidy (rs ++ rest) := by
      have h := htidy
      simp only [List.append_assoc] at h
      exact h.of_append_right.of_append_right
    obtain ⟨l, more, blanks, left, keyword, name, htags, hl, hhead, hb, hcs, hsplit, hleft⟩ :=
      tags_heading ht hh htidy' hstop
    have hread : Parser.rows none _ = _ := rows_append hrows (by simp)
      (hr.mono fun _ hk => ne_row_of_noArgument (noArgument_of_startsBlock hk))
    rw [hsplit, rows_trivia none hb, hcs, map_pass_nil] at hread
    have hend := endsExamples_of_stops hr
    unfold examples
    simp only [List.append_assoc, htags, hl, hleft, hread]
    simp [upTo, hend, hhead]

theorem examples_trivia (last : Nat) (ht : Trivia ts) (ls : List Line) :
    examples last (ts ++ ls) = (examples last ls).map (pass (commentsOf ts)) := by
  unfold examples
  rw [tags_trivia ht]
  rcases tags ls with e | ⟨found, passed, - | ⟨l, rest⟩⟩
  · rfl
  · rfl
  · simp only [Except.map, pass]
    split
    · split
      · rfl
      · split <;> simp
    · rfl

theorem examplesFollow_trivia (ht : Trivia ts) (ls : List Line) :
    examplesFollow (ts ++ ls) = examplesFollow ls := by
  induction ts with
  | nil => rfl
  | cons l ts ih =>
    obtain ⟨hl, ht⟩ := List.forall_mem_cons.1 ht
    rw [List.cons_append, ← ih ht]
    cases hk : l.kind <;> simp_all [examplesFollow, LineKind.isTrivia]

theorem examplesFollow_tags {found} (h : Reading.Tags ts found cs) (ls : List Line) :
    examplesFollow (ts ++ ls) = examplesFollow ls := by
  induction h with
  | nil ht => exact examplesFollow_trivia ht ls
  | cons ht hl _ _ ih =>
    rw [List.append_assoc, examplesFollow_trivia ht, List.cons_append, examplesFollow, hl]
    exact ih

/-- Past the tags, whether examples follow hangs on the block of the header. -/
theorem examplesFollow_headed {block : Block} {found head} {hs : List Line} {bs : List Comment}
    (ht : Reading.Tags ts found bs) (hh : Reading.Headed block hs head cs) (ls : List Line) :
    examplesFollow (ts ++ (hs ++ ls)) = decide (block = .examples) := by
  rw [examplesFollow_tags ht]
  cases hh with
  | mk hu hl _ =>
    rw [List.append_assoc, examplesFollow_trivia hu, List.cons_append, examplesFollow, hl]
    cases block <;> rfl

theorem examplesFollow_skipTrivia (ls : List Line) :
    examplesFollow (skipTrivia ls).2 = examplesFollow ls := by
  obtain ⟨ts, ht, hls, -⟩ := exists_trivia ls
  rw [← examplesFollow_trivia ht, ← hls]

/-- A block that has tags and a header starts with one of them. -/
theorem headed_starts {block : Block} {found head} {hs : List Line} {bs : List Comment}
    (ht : Reading.Tags ts found bs) (hh : Reading.Headed block hs head cs) (ls : List Line) :
    ∃ l more, (skipTrivia (ts ++ (hs ++ ls))).2 = l :: more ∧
      (l.kind = .tags ∨ ∃ keyword name, l.kind = .header block keyword name) := by
  cases ht with
  | nil ht =>
    cases hh with
    | @mk us l body keyword name hu hl _ =>
      have hnot : l.kind.isTrivia = false := by simp [hl, LineKind.isTrivia]
      refine ⟨l, body ++ ls, ?_, .inr ⟨keyword, name, hl⟩⟩
      rw [List.append_assoc, skipTrivia_append ht, skipTrivia_append hu, List.cons_append,
        skipTrivia_cons_of_not hnot]
  | @cons us l vs _ _ _ hu hl _ _ =>
    have hnot : l.kind.isTrivia = false := by simp [hl, LineKind.isTrivia]
    refine ⟨l, vs ++ (hs ++ ls), ?_, .inl hl⟩
    rw [List.append_assoc, skipTrivia_append hu, List.cons_append, skipTrivia_cons_of_not hnot]

theorem stops_headed {block : Block} {found head} {hs : List Line} {bs : List Comment}
    (ht : Reading.Tags ts found bs) (hh : Reading.Headed block hs head cs) (ls : List Line) :
    Stops startsBlock (ts ++ (hs ++ ls)) := by
  obtain ⟨l, more, hcons, hl⟩ := headed_starts ht hh ls
  intro m hm
  rw [hcons] at hm
  obtain rfl := Option.some.inj hm
  rcases hl with hl | ⟨_, _, hl⟩ <;> simp [hl, startsBlock]

theorem stops_examples {found} (h : Reading.Many Reading.Examples ls found cs)
    (hr : Stops startsBlock rest) : Stops startsBlock (ls ++ rest) := by
  cases h with
  | nil ht => exact hr.append ht
  | cons h hs =>
    cases h with
    | mk ht hh _ =>
      simp only [List.append_assoc]
      exact stops_headed ht hh _

theorem examplesBlocks_of_follow {last : Nat} (hf : examplesFollow (skipTrivia ls).2) :
    examplesBlocks last ls = (examples last (skipTrivia ls).2).bind fun block =>
      (examplesBlocks last block.rest).map fun more =>
        ⟨block.value :: more.value, (skipTrivia ls).1 ++ block.comments ++ more.comments,
          more.rest⟩ := by
  rw [examplesBlocks, if_pos hf]
  split <;> simp_all [Except.bind]

theorem examplesBlocks_trivia (last : Nat) (ht : Trivia ts) (ls : List Line) :
    examplesBlocks last (ts ++ ls) = (examplesBlocks last ls).map (pass (commentsOf ts)) := by
  have hs := skipTrivia_append ht ls
  by_cases hf : examplesFollow (skipTrivia ls).2 = true
  · have hf' : examplesFollow (skipTrivia (ts ++ ls)).2 = true := by rw [hs]; exact hf
    rw [examplesBlocks_of_follow hf', examplesBlocks_of_follow hf, hs]
    cases examples last (skipTrivia ls).2 with
    | error e => rfl
    | ok block =>
      simp only [Except.bind]
      cases examplesBlocks last block.rest <;> simp [Except.map, pass]
  · rw [examplesBlocks, hs, if_neg hf, examplesBlocks, if_neg hf]
    rfl

theorem examplesBlocks_append (last : Nat) {found} (h : Reading.Many Reading.Examples ls found cs)
    (htidy : Tidy (ls ++ rest)) (hr : Stops startsBlock rest) (hf : examplesFollow rest = false) :
    examplesBlocks last (ls ++ rest) = .ok (upTo found cs rest) := by
  induction h with
  | @nil ts ht =>
    rw [examplesBlocks, examplesFollow_skipTrivia, examplesFollow_trivia ht, hf]
    simp [upTo, skipTrivia_append ht]
  | @cons as e cs ls more ds h hs ih =>
    rw [List.append_assoc] at htidy ⊢
    have hfollow : examplesFollow (as ++ (ls ++ rest)) = true := by
      cases h with
      | mk ht hh _ =>
        simp only [List.append_assoc]
        simpa using examplesFollow_headed ht hh _
    -- the block as it is read past the trivia before it
    obtain ⟨q, hq, hvalue, hleft, hcomments⟩ := resume_ok (examples_trivia last)
      (examples_append last h htidy (stops_examples hs hr))
    -- the blocks after it, less the trivia that it has passed already
    obtain ⟨q', hq', hvalue', hleft', hcomments'⟩ := resume_ok (examplesBlocks_trivia last)
      (ih htidy.of_append_right)
    simp only [upTo] at hvalue hleft hcomments hvalue' hleft' hcomments'
    rw [← hleft] at hq'
    rw [← examplesFollow_skipTrivia] at hfollow
    rw [examplesBlocks_of_follow hfollow, hq]
    simp only [Except.bind]
    rw [hq', hcomments]
    simp [Except.map, upTo, hvalue, hvalue', hleft', hcomments']

/-! ### Tests -/

theorem test_trivia (last : Nat) (ht : Trivia ts) (ls : List Line) :
    test last (ts ++ ls) = (test last ls).map (pass (commentsOf ts)) := by
  unfold test
  rw [tags_trivia ht]
  rcases tags ls with e | ⟨found, passed, - | ⟨l, rest⟩⟩
  · rfl
  · rfl
  · simp only [Except.map, pass]
    split
    · cases steps (description .scenario rest).2 <;> simp
    · cases steps (description .outline rest).2 with
      | error e => rfl
      | ok s =>
        dsimp only
        cases examplesBlocks last s.rest <;> simp
    · rfl
    · rfl

theorem test_append (last : Nat) {t} (h : Reading.Test ls t cs) (htidy : Tidy (ls ++ rest))
    (hr : Stops startsBlock rest) (hf : examplesFollow rest = false) :
    test last (ls ++ rest) = .ok (upTo t cs rest) := by
  cases h with
  | @scenario ts hs ss found head found' bs cs ds ht hh h =>
    simp only [List.append_assoc] at htidy ⊢
    obtain ⟨l, more, blanks, left, keyword, name, htags, hl, hhead, hb, hcs, hsplit, hleft⟩ :=
      tags_heading ht hh htidy.of_append_right.of_append_right (ends_steps (by simp) h hr)
    have hsteps := steps_of_blanks hb hcs hsplit h hr
    unfold test
    simp only [htags, hl, hleft, hsteps, hhead]
    simp [Except.map, upTo]
  | @outline ts hs ss es found head found' blocks bs cs ds fs ht hh h he =>
    simp only [List.append_assoc] at htidy ⊢
    have hnext : Stops startsBlock (es ++ rest) := stops_examples he hr
    have htidy' := htidy.of_append_right.of_append_right
    obtain ⟨l, more, blanks, left, keyword, name, htags, hl, hhead, hb, hcs, hsplit, hleft⟩ :=
      tags_heading ht hh htidy' (ends_steps (by simp) h hnext)
    have hsteps := steps_of_blanks hb hcs hsplit h hnext
    obtain ⟨q, hq, hvalue, hrest, hcomments⟩ := resume_ok (examplesBlocks_trivia last)
      (examplesBlocks_append last he htidy'.of_append_right hr hf)
    simp only [upTo] at hvalue hrest hcomments
    unfold test
    simp only [htags, hl, hleft, hsteps, hhead, upTo, hq]
    simp [Except.map, hvalue, hrest, ← hcomments]

/-- A test starts with tags or with its header. -/
theorem test_starts {t} (h : Reading.Test ls t cs) (rest : List Line) :
    ∃ l more, (skipTrivia (ls ++ rest)).2 = l :: more ∧ startsTest l.kind := by
  cases h with
  | scenario ht hh _ =>
    simp only [List.append_assoc]
    obtain ⟨l, more, hcons, hl⟩ := headed_starts ht hh _
    exact ⟨l, more, hcons, by rcases hl with hl | ⟨_, _, hl⟩ <;> simp [hl, startsTest]⟩
  | outline ht hh _ _ =>
    simp only [List.append_assoc]
    obtain ⟨l, more, hcons, hl⟩ := headed_starts ht hh _
    exact ⟨l, more, hcons, by rcases hl with hl | ⟨_, _, hl⟩ <;> simp [hl, startsTest]⟩

theorem stops_tests {tests} (h : Reading.Many Reading.Test ls tests cs) :
    Stops startsBlock ls := by
  cases h with
  | nil ht => exact .of_trivia ht
  | cons h _ =>
    obtain ⟨l, more, hcons, hl⟩ := test_starts h _
    intro m hm
    rw [hcons] at hm
    obtain rfl := Option.some.inj hm
    cases hk : l.kind <;> simp_all [startsTest, startsBlock]

/-- No test is taken for an examples block. -/
theorem examplesFollow_tests {tests} (h : Reading.Many Reading.Test ls tests cs) :
    examplesFollow ls = false := by
  cases h with
  | nil ht => simpa [examplesFollow] using examplesFollow_trivia ht []
  | cons h _ =>
    cases h with
    | scenario ht hh _ =>
      simp only [List.append_assoc]
      simpa using examplesFollow_headed ht hh _
    | outline ht hh _ _ =>
      simp only [List.append_assoc]
      simpa using examplesFollow_headed ht hh _

/-! ### The feature -/

theorem children_of_nil (last : Nat) (before : Option Child) (h : (skipTrivia ls).2 = []) :
    children last before ls = .ok ([], (skipTrivia ls).1) := by
  rw [children]
  split <;> simp_all

theorem children_of_cons {last : Nat} {before : Option Child} {l : Line}
    (h : (skipTrivia ls).2 = l :: rest) :
    children last before ls =
      if startsTest l.kind then
        (test last (l :: rest)).bind fun t =>
          (children last (some t.value) t.rest).map fun more =>
            (t.value :: more.1, (skipTrivia ls).1 ++ t.comments ++ more.2)
      else
        match l.kind, before with
        | .header .background keyword name, none =>
          (background l keyword name rest).bind fun b =>
            (children last (some (.background b.value)) b.rest).map fun more =>
              (.background b.value :: more.1, (skipTrivia ls).1 ++ b.comments ++ more.2)
        | .header .background .., some _ => .error ⟨l.number, .lateBackground⟩
        | _, _ => .error (misplaced before l) := by
  rw [children]
  split
  · simp_all
  · next hs =>
    obtain ⟨rfl, rfl⟩ := List.cons.inj (h.symm.trans (congrArg Prod.snd hs))
    rw [hs]
    split
    · split <;> simp_all [Except.bind]
    · split
      · split <;> simp_all [Except.bind]
      · simp_all
      · simp_all

/-- Tests are read whatever trivia stand before them. -/
theorem children_append (last : Nat) {tests} (h : Reading.Many Reading.Test ls tests cs)
    (htidy : Tidy ls) (before : Option Child) :
    ∃ ds, cs = (skipTrivia ls).1 ++ ds ∧ ∀ xs, (skipTrivia xs).2 = (skipTrivia ls).2 →
      children last before xs = .ok (tests, (skipTrivia xs).1 ++ ds) := by
  induction h generalizing before with
  | @nil ts ht =>
    have hs := skipTrivia_append ht []
    rw [List.append_nil] at hs
    refine ⟨[], by simp [hs, skipTrivia], fun xs hxs => ?_⟩
    rw [hs] at hxs
    rw [children_of_nil last before hxs, List.append_nil]
  | @cons as t cs ls more ds h hs ih =>
    obtain ⟨q, hq, hvalue, hleft, hcomments⟩ := resume_ok (test_trivia last)
      (test_append last h htidy (stops_tests hs) (examplesFollow_tests hs))
    obtain ⟨l, rest, hcons, hl⟩ := test_starts h ls
    obtain ⟨es, rfl, hmore⟩ := ih htidy.of_append_right (some q.value)
    simp only [upTo] at hvalue hleft hcomments
    refine ⟨q.comments ++ es, ?_, fun xs hxs => ?_⟩
    · rw [← List.append_assoc, ← List.append_assoc, hcomments]
    · have hrest := skipTrivia_rest ls
      rw [← hleft] at hrest
      rw [hcons] at hxs hq
      rw [children_of_cons hxs, if_pos hl, hq]
      simp only [Except.bind]
      rw [hmore q.rest (by rw [hrest, hleft]), hrest]
      simp [Except.map, hvalue]

/-- The blocks of a feature are read from any lines that differ from theirs in blank lines at the
front. -/
theorem children_ok (last : Nat) {blocks} (h : Reading.Children ls blocks cs) (htidy : Tidy ls)
    {xs : List Line} (hxs : skipTrivia xs = skipTrivia ls) :
    children last none xs = .ok (blocks, cs) := by
  cases h with
  | tests h =>
    obtain ⟨ds, rfl, hread⟩ := children_append last h htidy none
    rw [hread xs (by rw [hxs]), hxs]
  | @background as b cs ls tests ds hb h =>
    obtain ⟨ts, l, more, keyword, name, bs, ht, rfl, hls, hl, hread⟩ :=
      background_append hb htidy (stops_tests h)
    obtain ⟨es, rfl, hmore⟩ := children_append last h htidy.of_append_right (some (.background b))
    have hnot : l.kind.isTrivia = false := by simp [hl, LineKind.isTrivia]
    have hskip : skipTrivia xs = (commentsOf ts, l :: more) := by
      rw [hxs, hls, skipTrivia_append ht, skipTrivia_cons_of_not hnot, List.append_nil]
    have hrest := skipTrivia_rest ls
    have hstart : startsTest l.kind = false := by simp [hl, startsTest]
    rw [children_of_cons (by rw [hskip]), hstart, hl, hskip]
    simp only [Bool.false_eq_true, if_false, hread, Except.bind, upTo]
    rw [hmore _ (by rw [hrest]), hrest]
    simp [Except.map]

theorem stops_children {blocks} (h : Reading.Children ls blocks cs) : Stops startsBlock ls := by
  cases h with
  | tests h => exact stops_tests h
  | background hb _ =>
    cases hb with
    | mk hh _ =>
      simp only [List.append_assoc]
      exact stops_headed (.nil .nil) hh _

theorem feature_ok (last : Nat) {language : Text} {f} (h : Reading.Feature language ls f cs)
    (htidy : Tidy ls) : Parser.feature last language ls = .ok (f, cs) := by
  cases h with
  | @mk ts hs ls found head blocks bs cs ds ht hh h =>
    have hstop : Stops (endsDescription .feature) ls := (stops_children h).mono fun k hk => by
      cases k <;> simp_all [startsBlock, endsDescription]
    obtain ⟨l, more, blanks, left, keyword, name, htags, hl, hhead, hb, hcs, rfl, hleft⟩ :=
      tags_heading ht hh htidy.of_append_right.of_append_right hstop
    have hskip : skipTrivia left = skipTrivia (blanks ++ left) := by
      rw [skipTrivia_append hb, hcs, List.nil_append]
    have hread := children_ok last h htidy.of_append_right.of_append_right hskip
    unfold Parser.feature
    simp only [htags, hl, hleft, hread, hhead]
    simp [Except.map]

theorem feature_trivia (last : Nat) (language : Text) (ht : Trivia ts) (ls : List Line) :
    Parser.feature last language (ts ++ ls) =
      (Parser.feature last language ls).map fun f => (f.1, commentsOf ts ++ f.2) := by
  unfold Parser.feature
  rw [tags_trivia ht]
  rcases tags ls with e | ⟨found, passed, - | ⟨l, rest⟩⟩
  · rfl
  · rfl
  · simp only [Except.map, pass]
    split
    · cases children last none (description .feature rest).2 <;> simp
    · rfl

/-- What lines hold is read. -/
theorem document_of_reading {language : Text} {d : Document} (h : Reading language ls d)
    (htidy : Tidy ls) : document language ls = .ok d := by
  cases h with
  | empty ht =>
    have hs := skipTrivia_append ht []
    rw [List.append_nil] at hs
    rw [document, hs]
    simp [skipTrivia]
  | @feature f cs h =>
    have hread := feature_ok ls.length h htidy
    obtain ⟨ts, ht, hls, hcs⟩ := exists_trivia ls
    have hstart : ∃ l rest, (skipTrivia ls).2 = l :: rest := by
      cases h with
      | mk ht hh _ =>
        obtain ⟨l, rest, hcons, -⟩ := headed_starts ht hh _
        exact ⟨l, rest, hcons⟩
    obtain ⟨l, rest, hcons⟩ := hstart
    have hskip : skipTrivia ls = (commentsOf ts, l :: rest) := Prod.ext hcs hcons
    have hsplit : Parser.feature ls.length language (ts ++ (skipTrivia ls).2) = .ok (f, cs) := by
      rw [← hls, hread]
    rw [feature_trivia _ _ ht, hcons] at hsplit
    obtain ⟨q, hq, hqeq⟩ := map_eq_ok_iff.1 hsplit
    obtain ⟨rfl, rfl⟩ := Prod.mk.inj hqeq
    rw [document, hskip]
    simp only [hq, Except.map]

end Gherkin.Document
