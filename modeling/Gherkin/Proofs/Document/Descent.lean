import Gherkin.Proofs.Document.Acceptor

/-! The parser against the automaton. The parser reads just those lines after which the automaton
accepts. It refuses others at the first line that the automaton has no step for, and blames the last
line, or the fence of an open doc string, where the lines end too early. For each parser there is
one statement about both outcomes: it starts from the state in which the parser is called and says
where the automaton is with the rest. -/

open Gherkin.Document.Parser

namespace Gherkin

/-- Causes that are found only once the lines have ended. -/
def Cause.isEarlyEnd : Cause → Bool
  | .unfinished _ | .unclosedDocString => true
  | _ => false

namespace Document

/-- From a state some lines fail: at a line that has no place, at a fence that none matches, or for
want of lines. `last` is the number of the last line. -/
inductive Fails (last : ℕ) : State → List Line → Failure → Prop
  | stuck {s l rest cause} (h : State.step s l = none) (hcause : cause.isEarlyEnd = false) :
    Fails last s (l :: rest) ⟨l.number, cause⟩
  | unclosed {s l rest block fence} (h : State.step s l = some (.docString block fence))
    (hl : isFence fence l.kind) (hopen : ∀ k ∈ rest, isFence fence k.kind = false) :
    Fails last s (l :: rest) ⟨l.number, .unclosedDocString⟩
  | unfinished {s expected} (h : s.collects) : Fails last s [] ⟨last, .unfinished expected⟩
  | later {s t l rest e} (h : State.step s l = some t) (hrest : Fails last t rest e) :
    Fails last s (l :: rest) e

open State

variable {α β : Type} {s t : State} {stage : Stage} {block : Block} {l : Line} {last : ℕ}
  {ls as rest ts : List Line} {e : Failure} {post post' : State → List Line → Prop}
  {out : Outcome α}

/-- Two states with the same step for the line that comes next. -/
def Agree (s t : State) (ls : List Line) : Prop := ∀ l ∈ ls.head?, s.step l = t.step l

theorem Fails.lead (h : s.run as = some t) (hf : Fails last t ls e) : Fails last s (as ++ ls) e := by
  induction as generalizing s with
  | nil =>
    obtain rfl := Option.some.inj h
    exact hf
  | cons l as ih =>
    obtain ⟨u, hu, hrun⟩ := Option.bind_eq_some_iff.1 h
    exact .later hu (ih hrun)

theorem Fails.of_agree (h : Agree s t ls) (ht : t.collects = false ∨ ls ≠ [])
    (hf : Fails last t ls e) : Fails last s ls e := by
  cases hf with
  | stuck hstep hcause => exact .stuck ((h _ rfl).trans hstep) hcause
  | unclosed hstep hl hopen => exact .unclosed ((h _ rfl).trans hstep) hl hopen
  | later hstep hrest => exact .later ((h _ rfl).trans hstep) hrest
  | unfinished hcollects => simp [hcollects] at ht

/-- The automaton takes all lines but a rest and is then in a state that suits it. -/
def Reaches (post : State → List Line → Prop) (s : State) (ls rest : List Line) : Prop :=
  ∃ used t, ls = used ++ rest ∧ s.run used = some t ∧ post t rest

/-- A parser against the automaton: it fails where the automaton does, or leaves a rest. -/
def Meets (last : ℕ) (post : State → List Line → Prop) (s : State) (ls : List Line) :
    Outcome α → Prop
  | .error e => Fails last s ls e
  | .ok p => Reaches post s ls p.rest

theorem Reaches.lead (hr : Reaches post t ls rest) (h : s.run as = some t) :
    Reaches post s (as ++ ls) rest := by
  obtain ⟨used, u, rfl, hrun, hpost⟩ := hr
  exact ⟨as ++ used, u, by rw [List.append_assoc], by rw [run_append_of h, hrun], hpost⟩

theorem Reaches.cons (hr : Reaches post t ls rest) (h : s.step l = some t) :
    Reaches post s (l :: ls) rest := by
  have hrun : s.run [l] = some t := by rw [run_cons, h, Option.bind_some, run_nil]
  exact hr.lead hrun

theorem Reaches.mono (h : ∀ t, post t rest → post' t rest) (hr : Reaches post s ls rest) :
    Reaches post' s ls rest := by
  obtain ⟨used, t, hls, hrun, hpost⟩ := hr
  exact ⟨used, t, hls, hrun, h t hpost⟩

namespace Meets

theorem lead (hm : Meets last post t ls out) (h : s.run as = some t) :
    Meets last post s (as ++ ls) out := by
  cases out with
  | error e => exact Fails.lead h hm
  | ok p => exact Reaches.lead hm h

theorem cons (hm : Meets last post t ls out) (h : s.step l = some t) :
    Meets last post s (l :: ls) out := by
  cases out with
  | error e => exact Fails.later h hm
  | ok p => exact Reaches.cons hm h

/-- What a parser does with its result does not matter, as long as it leaves the same rest. -/
theorem map (hm : Meets last post s ls out) {f : Parsed α → Parsed β}
    (hf : ∀ p, (f p).rest = p.rest) : Meets last post s ls (out.map f) := by
  cases out with
  | error e => exact hm
  | ok p =>
    have hrest : Reaches post s ls (f p).rest := (hf p).symm ▸ hm
    exact hrest

theorem mono (h : ∀ t rest, post t rest → post' t rest) (hm : Meets last post s ls out) :
    Meets last post' s ls out := by
  cases out with
  | error e => exact hm
  | ok p => exact Reaches.mono (fun t => h t _) hm

/-- What is said of a state holds of one that agrees with it on the lines. -/
theorem of_agree (h : Agree s t ls) (ht : t.collects = false ∨ ls ≠ [])
    (hpost : Agree s t ls → post t ls → post s ls) (hm : Meets last post t ls out) :
    Meets last post s ls out := by
  cases out with
  | error e => exact Fails.of_agree h ht hm
  | ok p =>
    obtain ⟨used, u, hls, hrun, hu⟩ := hm
    cases used with
    | nil =>
      obtain rfl : ls = p.rest := hls
      obtain rfl := Option.some.inj hrun
      exact ⟨[], s, rfl, rfl, hpost h hu⟩
    | cons l used =>
      refine ⟨l :: used, u, hls, ?_, hu⟩
      rw [run_cons, h l (by rw [hls]; rfl), ← run_cons, hrun]

end Meets

/-- What comes after the lines that were taken. -/
theorem Reaches.bind (hr : Reaches post s ls rest)
    (h : ∀ t, post t rest → Meets last post' t rest out) : Meets last post' s ls out := by
  obtain ⟨used, t, rfl, hrun, ht⟩ := hr
  exact (h t ht).lead hrun

/-! ### Runs of like lines -/

/-- The rest starts with a line of some meaning that is not of one kind. -/
def Clear (kind : LineKind) (rest : List Line) : Prop :=
  ∀ l ∈ rest.head?, l.kind.isTrivia = false ∧ l.kind ≠ kind

theorem clear_cons {kind : LineKind} (hl : l.kind.isTrivia = false) (hk : l.kind ≠ kind) :
    Clear kind (l :: rest) := by
  rintro m hm
  obtain rfl := Option.some.inj hm
  exact ⟨hl, hk⟩

theorem meets_tags (hs : s.collects) (ls : List Line) :
    Meets last (fun t rest => t = s ∧ Clear .tags rest) s ls (tags ls) := by
  have hidle := idle_of_collects hs
  fun_induction tags ls with
  | case1 => exact ⟨[], s, rfl, rfl, rfl, by simp [Clear]⟩
  | case2 l ls hl ih | case3 l ls _ hl ih =>
    exact ih.cons (step_trivia hidle (by simp [hl, LineKind.isTrivia]))
  | case4 l ls hl ih =>
    refine .cons (.map ih fun _ => rfl) (step_trivia hidle ?_)
    simp [hl, LineKind.isTrivia]
  | case5 l ls hl fault hf =>
    refine .stuck ?_ rfl
    rw [step_tags hs hl, ofTags, hf]
    rfl
  | case6 l ls hl found hf ih =>
    refine .cons (.map ih fun _ => rfl) ?_
    rw [step_tags hs hl, ofTags, hf]
    rfl
  | case7 l ls h₁ h₂ h₃ h₄ =>
    refine ⟨[], s, rfl, rfl, rfl, clear_cons ?_ h₄⟩
    cases hk : l.kind <;> simp_all [LineKind.isTrivia]

/-- Where a table of some width is left. -/
def AfterRows (block : Block) (width : Option ℕ) (t : State) (rest : List Line) : Prop :=
  (∃ w, t = .body block (some w) ∧ ∀ v ∈ width, w = some v) ∧ Clear .row rest

theorem meets_rows (block : Block) (width : Option ℕ) (ls : List Line) :
    Meets last (AfterRows block width) (.body block (some width)) ls (rows width ls) := by
  fun_induction rows width ls with
  | case1 width => exact ⟨[], _, rfl, rfl, ⟨width, rfl, fun v hv => hv⟩, by simp [Clear]⟩
  | case2 width l ls hl ih | case3 width l ls _ hl ih =>
    exact ih.cons (step_trivia rfl (by simp [hl, LineKind.isTrivia]))
  | case4 width l ls hl ih =>
    refine .cons (.map ih fun _ => rfl) (step_trivia rfl ?_)
    simp [hl, LineKind.isTrivia]
  | case5 width l ls hl cells hw ih =>
    have hstep : (State.body block (some width)).step l =
        some (.body block (some (some cells.length))) := by
      simp [step, bodyStep, hl, cells, hw]
    refine .cons (.map (ih.mono ?_) fun _ => rfl) hstep
    rintro t rest ⟨⟨w, rfl, hwidth⟩, hclear⟩
    refine ⟨⟨w, rfl, ?_⟩, hclear⟩
    rintro v rfl
    rw [hwidth _ rfl, ← hw, Option.getD_some]
  | case6 width l ls hl cells hw =>
    refine .stuck ?_ rfl
    simp [step, bodyStep, hl, cells, hw]
  | case7 width l ls h₁ h₂ h₃ h₄ =>
    refine ⟨[], _, rfl, rfl, ⟨width, rfl, fun v hv => hv⟩, clear_cons ?_ h₄⟩
    cases hk : l.kind <;> simp_all [LineKind.isTrivia]

/-! ### Steps -/

theorem run_body (fence : Fence) {body : List Line}
    (hb : ∀ l ∈ body, isFence fence l.kind = false) :
    (State.docString block fence).run body = some (.docString block fence) := by
  induction body with
  | nil => rfl
  | cons l body ih =>
    obtain ⟨hl, hb⟩ := List.forall_mem_cons.1 hb
    rw [run_cons, step, if_neg (by simp [hl]), Option.bind_some, ih hb]

/-- Neither a table nor a doc string may come next. -/
def AfterArgument (block : Block) (t : State) (rest : List Line) : Prop :=
  t.accepts ∧ Agree t (.body block none) rest

theorem meets_argument (hblock : takesSteps block) (ls : List Line) :
    Meets last (AfterArgument block) (.body block (some none)) ls (argument ls) := by
  unfold argument
  split
  · next passed hs =>
    obtain ⟨ts, ht, rfl, -⟩ := trivia_of_skipTrivia hs
    exact ⟨ts, _, rfl, run_trivia rfl ht, rfl, by simp [Agree]⟩
  · next passed l rest hs =>
    have hnot : l.kind.isTrivia = false := not_isTrivia_of_skipTrivia (by rw [hs]; rfl)
    obtain ⟨ts, ht, rfl, -⟩ := trivia_of_skipTrivia hs
    refine .lead ?_ (run_trivia rfl ht)
    split
    · next hl =>
      -- the first row settles the width, and with it that no doc string can follow
      have hstep : (State.body block (some none)).step l =
          some (.body block (some (some (Cell.split l.text l.location).length))) := by
        simp [step, bodyStep, hl]
      simp only [rows, hl, Option.getD_none, if_true]
      refine .map ?_ fun _ => rfl
      refine .map ?_ fun _ => rfl
      refine .cons (.mono ?_ (meets_rows block _ rest)) hstep
      rintro _ rest ⟨⟨w, rfl, hw⟩, hclear⟩
      refine ⟨rfl, fun k hk => ?_⟩
      obtain ⟨hkind, hrow⟩ := hclear k hk
      rw [hw _ rfl]
      cases hk : k.kind <;> simp_all [step, bodyStep, LineKind.isTrivia]
    · next fence contentType hl =>
      have hstep : (State.body block (some none)).step l = some (.docString block fence) := by
        simp [step, bodyStep, hl, hblock]
      split
      · next hd => exact .unclosed hstep (by simp [hl, isFence]) (docString_eq_none_iff.1 hd)
      · next content rest' hd =>
        obtain ⟨body, last, rfl, hb, hc, -⟩ := read_docString hd
        refine ⟨l :: body ++ [last], .body block none, by simp, ?_, rfl, fun _ _ => rfl⟩
        rw [run_append, run_cons, hstep, Option.bind_some, run_body fence hb, Option.bind_some,
          run_cons, step, if_pos hc, Option.bind_some, run_nil]
    · next hrow hfence =>
      refine ⟨[], _, rfl, rfl, rfl, fun k hk => ?_⟩
      obtain rfl := Option.some.inj hk
      cases hk : l.kind <;> simp_all [step, bodyStep, LineKind.isTrivia]

/-- A block is over, and what comes next is as after a block of that stage. -/
def Settled (stage : Stage) (t : State) (rest : List Line) : Prop :=
  t.accepts ∧ Agree t (.between stage false) rest

theorem Settled.of_agree (hs : s.accepts) (h : Agree s t ls) (ht : Settled stage t ls) :
    Settled stage s ls :=
  ⟨hs, fun l hl => (h l hl).trans (ht.2 l hl)⟩

theorem meets_steps (hblock : takesSteps block) (ls : List Line) :
    Meets last (Settled (stageAfter block)) (.body block none) ls (steps ls) := by
  have hstep : ∀ {l keyword text}, l.kind = .step keyword text →
      (State.body block none).step l = some (.body block (some none)) := by
    intro l keyword text hl
    simp [step, bodyStep, hl, hblock]
  fun_induction steps ls with
  | case1 ls passed hs =>
    obtain ⟨ts, ht, rfl, -⟩ := trivia_of_skipTrivia hs
    exact ⟨ts, _, rfl, run_trivia rfl ht, rfl, by simp [Agree]⟩
  | case2 ls passed l rest hs keyword text hl e he =>
    obtain ⟨ts, ht, rfl, -⟩ := trivia_of_skipTrivia hs
    have hargument : Meets last _ _ rest (argument rest) := meets_argument hblock rest
    rw [he] at hargument
    exact Fails.lead (run_trivia rfl ht) (.later (hstep hl) hargument)
  | case3 ls passed l rest hs keyword text hl arg ha ih =>
    obtain ⟨ts, ht, rfl, -⟩ := trivia_of_skipTrivia hs
    have hargument : Meets last _ _ rest (argument rest) := meets_argument hblock rest
    rw [ha] at hargument
    refine .lead (.cons (Reaches.bind hargument fun t hafter => ?_) (hstep hl)) (run_trivia rfl ht)
    refine .map ?_ fun _ => rfl
    exact ih.of_agree hafter.2 (.inl rfl) (.of_agree hafter.1)
  | case4 ls passed l rest hs hl =>
    have hnot : l.kind.isTrivia = false := not_isTrivia_of_skipTrivia (by rw [hs]; rfl)
    obtain ⟨ts, ht, rfl, -⟩ := trivia_of_skipTrivia hs
    refine ⟨ts, _, rfl, run_trivia rfl ht, rfl, fun k hk => ?_⟩
    obtain rfl := Option.some.inj hk
    cases hk : l.kind <;> simp_all [step, bodyStep, betweenStep, LineKind.isTrivia]

/-! ### Blocks -/

theorem collects_past (block : Block) : (past block).collects = false := by
  cases block <;> rfl

/-- A description goes on up to the line that ends it, and what comes then may as well have come
without it. -/
theorem exists_prose (block : Block) (rest : List Line) :
    ∃ used, rest = used ++ (description block rest).2 ∧
      (State.prose block).run used = some (.prose block) ∧
      Agree (.prose block) (past block) (description block rest).2 := by
  refine ⟨rest.takeWhile fun l => !endsDescription block l.kind, ?_, ?_, fun l hl => ?_⟩
  · rw [description_rest, List.takeWhile_append_dropWhile]
  · have hprose : ∀ l ∈ rest.takeWhile fun l => !endsDescription block l.kind,
        endsDescription block l.kind = false := fun l hl => by
      simpa using List.mem_takeWhile_imp hl
    generalize rest.takeWhile (fun l => !endsDescription block l.kind) = body at hprose
    induction body with
    | nil => rfl
    | cons l body ih =>
      obtain ⟨hl, hbody⟩ := List.forall_mem_cons.1 hprose
      rw [run_cons, step, if_neg (by simp [hl]), Option.bind_some, ih hbody]
  · have hends : endsDescription block l.kind := by
      rw [description_rest] at hl
      have hnot := List.head?_dropWhile_not (fun l : Line => !endsDescription block l.kind) rest
      rw [Option.mem_def.1 hl] at hnot
      simpa using hnot
    rw [step, if_pos hends, step_past]

theorem meets_description {rest : List Line}
    (hm : Meets last (Settled stage) (past block) (description block rest).2 out) :
    Meets last (Settled stage) (.prose block) rest out := by
  obtain ⟨used, hrest, hrun, hagree⟩ := exists_prose block rest
  have hprose := hm.of_agree hagree (.inl (collects_past block)) (.of_agree rfl)
  rw [hrest]
  exact hprose.lead hrun

theorem meets_background (l : Line) (keyword name : Text) (rest : List Line) :
    Meets last (Settled .plain) (.prose .background) rest (background l keyword name rest) :=
  meets_description (.map (meets_steps rfl _) fun _ => rfl)

theorem clear_of_skipTrivia {l : Line} {ls rest : List Line} (h : (skipTrivia ls).2 = l :: rest) :
    l.kind.isTrivia = false := not_isTrivia_of_skipTrivia (by rw [h]; rfl)

/-- The header of an examples block follows its tags. -/
theorem header_of_follow {found : List LocatedTag} {passed : List Comment} {l : Line}
    (hf : examplesFollow ls) (ht : tags ls = .ok ⟨found, passed, l :: rest⟩)
    (hclear : Clear .tags (l :: rest)) : ∃ keyword name, l.kind = .header .examples keyword name := by
  obtain ⟨as, rfl, hr⟩ := read_tags ht
  rw [examplesFollow_tags hr, examplesFollow] at hf
  obtain ⟨hl, htags⟩ := hclear l rfl
  split at hf <;> simp_all [LineKind.isTrivia]

/-- A step or a doc string after the rows of an examples block has no place there. -/
theorem fails_of_endsExamples {width : Option ℕ} {e : Failure} (h : endsExamples ls = some e) :
    Fails last (.body .examples (some width)) ls e := by
  cases ls with
  | nil => cases h
  | cons l rest =>
    rw [endsExamples] at h
    split at h
    · next hk =>
      obtain rfl := Option.some.inj h
      refine .stuck ?_ rfl
      simp [step, bodyStep, hk, takesSteps]
    · next hk =>
      obtain rfl := Option.some.inj h
      refine .stuck ?_ rfl
      cases width <;> simp [step, bodyStep, hk, takesSteps, LineKind.isTrivia, betweenStep]
    · cases h

theorem settled_of_endsExamples {width : Option ℕ} (h : endsExamples ls = none)
    (hclear : Clear .row ls) : Settled .outline (.body .examples (some width)) ls := by
  refine ⟨rfl, fun l hl => ?_⟩
  obtain ⟨rest, rfl⟩ := List.head?_eq_some_iff.1 hl
  obtain ⟨hkind, hrow⟩ := hclear l hl
  rw [endsExamples] at h
  cases hk : l.kind <;> simp_all [step, bodyStep, betweenStep, stageAfter, LineKind.isTrivia]

theorem meets_examples (hf : examplesFollow ls) :
    Meets last (Settled .outline) (.between .outline true) ls (examples last ls) := by
  have htags : Meets last _ (.between .outline true) ls (tags ls) := meets_tags rfl ls
  unfold examples
  split
  · next e he =>
    rw [he] at htags
    exact htags
  · next he =>
    rw [he] at htags
    obtain ⟨used, t, rfl, hrun, rfl, -⟩ := htags
    exact Fails.lead hrun (.unfinished rfl)
  · next found passed l rest he =>
    rw [he] at htags
    obtain ⟨used, t, hused, hrun, rfl, hclear⟩ := htags
    obtain ⟨keyword, name, hl⟩ := header_of_follow hf he hclear
    simp only [hl]
    have hstep : (State.between .outline true).step l = some (.prose .examples) := by
      simp [step, betweenStep, hl]
    rw [hused]
    refine .lead (.cons (meets_description ?_) hstep) hrun
    have hrows : Meets last _ (past .examples) _ (rows none (description .examples rest).2) :=
      meets_rows .examples none (description .examples rest).2
    split
    · next e he =>
      rw [he] at hrows
      exact hrows
    · next table he =>
      rw [he] at hrows
      obtain ⟨used, t, hrest, hrun, ⟨w, rfl, -⟩, hclear⟩ := hrows
      rw [hrest]
      refine .lead ?_ hrun
      split
      · next e hends => exact fails_of_endsExamples hends
      · next hends => exact ⟨[], _, rfl, rfl, settled_of_endsExamples hends hclear⟩

/-- Tags and headers of tests and examples have a place whether or not tags came before. -/
theorem agree_tagged {l : Line} (stage : Stage) (ls : List Line) (hl : l.kind.isTrivia = false)
    (hback : ∀ keyword name, l.kind ≠ .header .background keyword name) :
    Agree (.between stage false) (.between stage true) (l :: ls) := by
  intro k hk
  obtain rfl := Option.some.inj hk
  cases hk : l.kind with
  | header block _ _ => cases block <;> simp_all [step, betweenStep]
  | _ => simp_all [step, betweenStep, LineKind.isTrivia]

/-- An examples block that is looked for past trivia, after an outline. -/
theorem meets_next_examples (hf : examplesFollow (skipTrivia ls).2) :
    Meets last (Settled .outline) (.between .outline false) ls (examples last (skipTrivia ls).2) := by
  obtain ⟨ts, ht, hls, -⟩ := exists_trivia ls
  have hexamples : Meets last (Settled .outline) (.between .outline false) (skipTrivia ls).2
      (examples last (skipTrivia ls).2) := by
    cases hrest : (skipTrivia ls).2 with
    | nil =>
      rw [hrest] at hf
      cases hf
    | cons l rest =>
      rw [hrest] at hf
      have hback : ∀ keyword name, l.kind ≠ .header .background keyword name := by
        intro keyword name hl
        rw [examplesFollow, hl] at hf
        cases hf
      exact (meets_examples hf).of_agree (agree_tagged _ _ (clear_of_skipTrivia hrest) hback)
        (.inr (by simp)) (.of_agree rfl)
  have hall := hexamples.lead (run_trivia rfl ht)
  rwa [← hls] at hall

theorem meets_examplesBlocks (ls : List Line) :
    Meets last (fun t rest => Settled .outline t rest ∧ examplesFollow rest = false)
      (.between .outline false) ls (examplesBlocks last ls) := by
  fun_induction examplesBlocks last ls with
  | case1 ls hf e he =>
    have hexamples : Meets last _ _ ls _ := meets_next_examples hf
    rw [he] at hexamples
    exact hexamples
  | case2 ls hf block he ih =>
    have hexamples : Meets last _ _ ls _ := meets_next_examples hf
    rw [he] at hexamples
    refine Reaches.bind hexamples fun t hsettled => .map ?_ fun _ => rfl
    exact ih.of_agree hsettled.2 (.inl rfl) fun hagree hpost =>
      ⟨.of_agree hsettled.1 hagree hpost.1, hpost.2⟩
  | case3 ls hf =>
    obtain ⟨ts, ht, hls, -⟩ := exists_trivia ls
    exact ⟨ts, _, hls, run_trivia rfl ht, ⟨rfl, fun _ _ => rfl⟩, by simpa using hf⟩

/-! ### Tests -/

/-- What may come after a block of a feature, or at its start. -/
def stageOf : Option Child → Stage
  | none => .first
  | some (.outline _) => .outline
  | some _ => .plain

/-- What is left after a test holds no more examples for it. -/
def AfterTest (c : Child) (t : State) (rest : List Line) : Prop :=
  Settled (stageOf (some c)) t rest ∧ (stageOf (some c) = .outline → examplesFollow rest = false)

/-- The parser of a test against the automaton: the test decides what may come after it. -/
def MeetsTest (last : ℕ) (s : State) (ls : List Line) : Outcome Child → Prop
  | .error e => Fails last s ls e
  | .ok p => Reaches (AfterTest p.value) s ls p.rest

/-- After the tags of a test only a header of a test has a place. An examples header would have been
taken for one that belongs to the outline before. -/
theorem step_not_test {found : List LocatedTag} {passed : List Comment} {l : Line}
    (hf : stage = .outline → examplesFollow ls = false)
    (ht : tags ls = .ok ⟨found, passed, l :: rest⟩) (hclear : Clear .tags (l :: rest))
    (hscenario : ∀ keyword name, l.kind ≠ .header .scenario keyword name)
    (houtline : ∀ keyword name, l.kind ≠ .header .outline keyword name) :
    (State.between stage true).step l = none := by
  obtain ⟨hl, htagged⟩ := hclear l rfl
  have hexamples : stage = .outline → ∀ keyword name, l.kind ≠ .header .examples keyword name := by
    intro hstage keyword name hk
    obtain ⟨as, hls, hr⟩ := read_tags ht
    have hfollow := hf hstage
    rw [hls, examplesFollow_tags hr, examplesFollow, hk] at hfollow
    cases hfollow
  cases hk : l.kind with
  | header block _ _ => cases block <;> simp_all [step, betweenStep]
  | _ => simp_all [step, betweenStep, LineKind.isTrivia]

/-- A test, read from its tags on. Only examples are told apart by what comes after the tags, and
the parser has looked for them before. -/
theorem meets_test (hf : stage = .outline → examplesFollow ls = false) :
    MeetsTest last (.between stage true) ls (test last ls) := by
  have htags : Meets last _ (.between stage true) ls (tags ls) := meets_tags rfl ls
  unfold test
  cases he : tags ls with
  | error e =>
    rw [he] at htags
    exact htags
  | ok p =>
    obtain ⟨found, passed, after⟩ := p
    rw [he] at htags
    obtain ⟨used, t, hused, hrun, rfl, hclear⟩ := htags
    simp only at hused hclear
    cases after with
    | nil =>
      rw [hused]
      exact Fails.lead hrun (.unfinished rfl)
    | cons l rest =>
      rw [hused]
      dsimp only
      split
      · next keyword name hk =>
        have hstep : (State.between stage true).step l = some (.prose .scenario) := by
          simp [step, betweenStep, hk]
        have hsteps : Meets last (Settled .plain) (.prose .scenario) rest
            (steps (description .scenario rest).2) := meets_description (meets_steps rfl _)
        cases hs : steps (description .scenario rest).2 with
        | error e =>
          rw [hs] at hsteps
          exact Fails.lead hrun (.later hstep hsteps)
        | ok q =>
          rw [hs] at hsteps
          exact .lead (.cons (.mono (fun t ht => ⟨ht, fun h => by cases h⟩) hsteps) hstep) hrun
      · next keyword name hk =>
        have hstep : (State.between stage true).step l = some (.prose .outline) := by
          simp [step, betweenStep, hk]
        have hsteps : Meets last (Settled .outline) (.prose .outline) rest
            (steps (description .outline rest).2) := meets_description (meets_steps rfl _)
        cases hs : steps (description .outline rest).2 with
        | error e =>
          rw [hs] at hsteps
          exact Fails.lead hrun (.later hstep hsteps)
        | ok q =>
          rw [hs] at hsteps
          have hblocks : Meets last _ (.prose .outline) rest (examplesBlocks last q.rest) :=
            Reaches.bind hsteps fun t ht =>
              (meets_examplesBlocks q.rest).of_agree ht.2 (.inl rfl) fun hagree hpost =>
                ⟨.of_agree ht.1 hagree hpost.1, hpost.2⟩
          dsimp only
          cases hb : examplesBlocks last q.rest with
          | error e =>
            rw [hb] at hblocks
            exact Fails.lead hrun (.later hstep hblocks)
          | ok r =>
            rw [hb] at hblocks
            obtain ⟨used', u, hrest, hreach, hsettled, hfollow⟩ := hblocks
            exact .lead (.cons ⟨used', u, hrest, hreach, hsettled, fun _ => hfollow⟩ hstep) hrun
      · next keyword name hk =>
        refine Fails.lead hrun (.stuck ?_ rfl)
        simp [step, betweenStep, hk, LineKind.isTrivia]
      · next hscenario houtline _ =>
        exact Fails.lead hrun (.stuck (step_not_test hf he hclear hscenario houtline) rfl)

/-! ### The document -/

/-- A parser that takes all lines against the automaton. -/
def Completes (last : ℕ) (s : State) (ls : List Line) : Except Failure α → Prop
  | .error e => Fails last s ls e
  | .ok _ => ∃ t, s.run ls = some t ∧ t.accepts

namespace Completes

variable {out : Except Failure α}

theorem lead (hc : Completes last t ls out) (h : s.run as = some t) :
    Completes last s (as ++ ls) out := by
  cases out with
  | error e => exact Fails.lead h hc
  | ok a =>
    obtain ⟨u, hrun, hu⟩ := hc
    exact ⟨u, by rw [run_append_of h, hrun], hu⟩

theorem cons (hc : Completes last t ls out) (h : s.step l = some t) :
    Completes last s (l :: ls) out := by
  have hrun : s.run [l] = some t := by rw [run_cons, h, Option.bind_some, run_nil]
  exact hc.lead hrun

theorem map (hc : Completes last s ls out) (f : α → β) : Completes last s ls (out.map f) := by
  cases out with
  | error e => exact hc
  | ok a => exact hc

theorem of_agree (hc : Completes last t ls out) (h : Agree s t ls)
    (hs : s.accepts ∧ t.collects = false ∨ ls ≠ []) : Completes last s ls out := by
  cases out with
  | error e => exact Fails.of_agree h (hs.imp_left And.right) hc
  | ok a =>
    obtain ⟨u, hrun, hu⟩ := hc
    cases ls with
    | nil =>
      rcases hs with ⟨hs, -⟩ | hne
      · exact ⟨s, rfl, hs⟩
      · exact absurd rfl hne
    | cons l ls => exact ⟨u, by rw [run_cons, h l rfl, ← run_cons, hrun], hu⟩

end Completes

theorem Reaches.complete {out : Except Failure α} (hr : Reaches post s ls rest)
    (h : ∀ t, post t rest → Completes last t rest out) : Completes last s ls out := by
  obtain ⟨used, t, rfl, hrun, ht⟩ := hr
  exact (h t ht).lead hrun

/-- What a misplaced line is blamed for is no early end. -/
theorem exists_misplaced (before : Option Child) (l : Line) :
    ∃ cause, misplaced before l = ⟨l.number, cause⟩ ∧ cause.isEarlyEnd = false := by
  unfold misplaced
  split
  · exact ⟨_, rfl, rfl⟩
  · exact ⟨_, rfl, rfl⟩
  · exact ⟨_, rfl, rfl⟩

/-- A line that starts no block after the one before has no place there. -/
theorem step_misplaced {before : Option Child} {l : Line}
    (hf : stageOf before = .outline → examplesFollow (l :: rest) = false)
    (hnot : l.kind.isTrivia = false) (htest : startsTest l.kind = false)
    (hback : ∀ keyword name, l.kind ≠ .header .background keyword name) :
    (State.between (stageOf before) false).step l = none := by
  cases hk : l.kind with
  | header block keyword name =>
    cases block with
    | background => exact absurd hk (hback keyword name)
    | examples =>
      have hstage : stageOf before ≠ .outline := by
        intro h
        have hfollow := hf h
        rw [examplesFollow, hk] at hfollow
        cases hfollow
      simp [step, betweenStep, hk, hstage]
    | feature => simp [step, betweenStep, hk, LineKind.isTrivia]
    | scenario | outline => simp [hk, startsTest] at htest
  | _ => simp_all [step, betweenStep, LineKind.isTrivia, startsTest]

theorem completes_children {before : Option Child} (ls : List Line)
    (hf : stageOf before = .outline → examplesFollow ls = false) :
    Completes last (.between (stageOf before) false) ls (children last before ls) := by
  fun_induction children last before ls with
  | case1 before ls passed hs =>
    obtain ⟨ts, ht, rfl, -⟩ := trivia_of_skipTrivia hs
    rw [List.append_nil]
    exact ⟨_, run_trivia rfl ht, rfl⟩
  | case2 before ls passed l rest hs hl e he =>
    have hnot : l.kind.isTrivia = false := clear_of_skipTrivia (congrArg Prod.snd hs)
    obtain ⟨ts, ht, rfl, -⟩ := trivia_of_skipTrivia hs
    rw [examplesFollow_trivia ht] at hf
    have htest : MeetsTest last _ (l :: rest) (test last (l :: rest)) := meets_test hf
    rw [he] at htest
    have hagree := agree_tagged (stageOf before) rest hnot fun keyword name hk => by
      simp [hk, startsTest] at hl
    exact Fails.lead (run_trivia rfl ht) (.of_agree hagree (.inr (by simp)) htest)
  | case3 before ls passed l rest hs hl t he ih =>
    have hnot : l.kind.isTrivia = false := clear_of_skipTrivia (congrArg Prod.snd hs)
    obtain ⟨ts, ht, rfl, -⟩ := trivia_of_skipTrivia hs
    rw [examplesFollow_trivia ht] at hf
    have htest : MeetsTest last _ (l :: rest) (test last (l :: rest)) := meets_test hf
    rw [he] at htest
    have hagree := agree_tagged (stageOf before) rest hnot fun keyword name hk => by
      simp [hk, startsTest] at hl
    have hall : Completes last (.between (stageOf before) true) (l :: rest)
        (children last (some t.value) t.rest) :=
      Reaches.complete htest fun u hu => (ih hu.2).of_agree hu.1.2 (.inl ⟨hu.1.1, rfl⟩)
    exact .lead (.map (hall.of_agree hagree (.inr (by simp))) _) (run_trivia rfl ht)
  | case4 ls passed l rest hs hl keyword name hk e he =>
    obtain ⟨ts, ht, rfl, -⟩ := trivia_of_skipTrivia hs
    have hstep : (State.between .first false).step l = some (.prose .background) := by
      simp [step, betweenStep, hk]
    have hback : Meets last _ _ rest _ := meets_background l keyword name rest
    rw [he] at hback
    exact Fails.lead (run_trivia rfl ht) (.later hstep hback)
  | case5 ls passed l rest hs hl keyword name hk b he ih =>
    obtain ⟨ts, ht, rfl, -⟩ := trivia_of_skipTrivia hs
    have hstep : (State.between .first false).step l = some (.prose .background) := by
      simp [step, betweenStep, hk]
    have hback : Meets last _ _ rest _ := meets_background l keyword name rest
    rw [he] at hback
    have hall : Completes last (.prose .background) rest
        (children last (some (.background b.value)) b.rest) :=
      Reaches.complete hback fun u hu =>
        (ih fun h => by cases h).of_agree hu.2 (.inl ⟨hu.1, rfl⟩)
    exact .lead (.cons (.map hall _) hstep) (run_trivia rfl ht)
  | case6 ls passed l rest hs hl keyword name c hk =>
    obtain ⟨ts, ht, rfl, -⟩ := trivia_of_skipTrivia hs
    refine Fails.lead (run_trivia rfl ht) (.stuck ?_ rfl)
    cases c <;> simp [step, betweenStep, stageOf, hk]
  | case7 before ls passed l rest hs hl h₁ h₂ =>
    have hnot : l.kind.isTrivia = false := clear_of_skipTrivia (congrArg Prod.snd hs)
    obtain ⟨ts, ht, rfl, -⟩ := trivia_of_skipTrivia hs
    rw [examplesFollow_trivia ht] at hf
    obtain ⟨cause, hcause, hend⟩ := exists_misplaced before l
    rw [hcause]
    have hback : ∀ keyword name, l.kind ≠ .header .background keyword name := by
      intro keyword name hk
      cases before with
      | none => exact absurd rfl (h₁ keyword name hk)
      | some c => exact absurd rfl (h₂ keyword name c hk)
    have hnone := step_misplaced hf hnot (by simpa using hl) hback
    exact Fails.lead (run_trivia rfl ht) (.stuck hnone hend)

theorem completes_feature {language : Text} (ls : List Line) :
    Completes last (.opening true) ls (Parser.feature last language ls) := by
  have htags : Meets last _ (.opening true) ls (tags ls) := meets_tags rfl ls
  unfold Parser.feature
  cases he : tags ls with
  | error e =>
    rw [he] at htags
    exact htags
  | ok p =>
    obtain ⟨found, passed, after⟩ := p
    rw [he] at htags
    obtain ⟨used, t, hused, hrun, rfl, hclear⟩ := htags
    simp only at hused hclear
    rw [hused]
    cases after with
    | nil => exact Fails.lead hrun (.unfinished rfl)
    | cons l rest =>
      obtain ⟨hl, htagged⟩ := hclear l rfl
      dsimp only
      refine .lead ?_ hrun
      split
      · next keyword name hk =>
        have hstep : (State.opening true).step l = some (.prose .feature) := by
          simp [step, openingStep, hk]
        obtain ⟨used, hrest, hprose, hagree⟩ := exists_prose .feature rest
        have hchildren : Completes last (.between .first false) (description .feature rest).2
            (children last none (description .feature rest).2) :=
          completes_children _ fun h => by cases h
        have hall := (hchildren.of_agree hagree (.inl ⟨rfl, rfl⟩)).lead hprose
        rw [← hrest] at hall
        exact .cons (hall.map _) hstep
      · next hfeature =>
        refine Fails.stuck ?_ rfl
        cases hk : l.kind with
        | header block _ _ =>
          cases block <;> simp_all [step, openingStep, LineKind.isTrivia]
        | _ => simp_all [step, openingStep, LineKind.isTrivia]

theorem completes_document (language : Text) (ls : List Line) :
    Completes ls.length (.opening false) ls (document language ls) := by
  unfold document
  split
  · next passed hs =>
    obtain ⟨ts, ht, rfl, -⟩ := trivia_of_skipTrivia hs
    rw [List.append_nil]
    exact ⟨_, run_trivia rfl ht, rfl⟩
  · next passed l rest hs =>
    have hnot : l.kind.isTrivia = false := clear_of_skipTrivia (congrArg Prod.snd hs)
    have hagree : Agree (.opening false) (.opening true) (l :: rest) := by
      intro k hk
      obtain rfl := Option.some.inj hk
      cases hk : l.kind with
      | header block _ _ => cases block <;> simp [step, openingStep, hk, LineKind.isTrivia]
      | _ => simp_all [step, openingStep, LineKind.isTrivia]
    obtain ⟨ts, ht, hls, -⟩ := trivia_of_skipTrivia hs
    have hfeature : Completes ls.length (.opening true) (l :: rest)
        (Parser.feature ls.length language (l :: rest)) := completes_feature _
    have hall := ((hfeature.of_agree hagree (.inr (by simp))).map fun f =>
      (⟨some f.1, passed ++ f.2⟩ : Document)).lead (run_trivia rfl ht)
    rwa [← hls] at hall

end Document

end Gherkin
