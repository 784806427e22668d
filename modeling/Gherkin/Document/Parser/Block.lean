import Gherkin.Document.Parser.Step

/-! The blocks of a feature: background, scenarios, outlines with their examples, and the feature
itself. Tags belong to the block whose header comes next, so whether an examples block goes on is
decided by looking past tag lines. -/

namespace Gherkin.Document.Parser

/-- A heading from its line and the lines after it. -/
def heading (l : Line) (block : Block) (keyword name : Text) (rest : List Line) : Heading :=
  ⟨l.location, keyword, name, (description block rest).1⟩

/-- The background whose header line is `l`. -/
def background (l : Line) (keyword name : Text) (rest : List Line) : Outcome Background :=
  (steps (description .background rest).2).map fun s =>
    ⟨⟨heading l .background keyword name rest, s.value⟩, s.comments, s.rest⟩

/-- Whether an examples header follows, tag lines and trivia aside. -/
def examplesFollow : List Line → Bool
  | [] => false
  | l :: ls =>
    match l.kind with
    | .tags | .blank | .comment | .language _ => examplesFollow ls
    | .header .examples .. => true
    | _ => false

/-- A step or a doc string has no place after the rows of an examples block. -/
def endsExamples : List Line → Option Failure
  | [] => none
  | l :: _ =>
    match l.kind with
    | .step .. | .fence .. => some (l.unexpected .examplesBody)
    | _ => none

/-- One examples block with the tags before it. `last` is the number of the last line. -/
def examples (last : Nat) (ls : List Line) : Outcome Examples :=
  match tags ls with
  | .error e => .error e
  | .ok ⟨_, _, []⟩ => .error ⟨last, .unfinished .examplesStart⟩
  | .ok ⟨found, passed, l :: rest⟩ =>
    match l.kind with
    | .header .examples keyword name =>
      match rows none (description .examples rest).2 with
      | .error e => .error e
      | .ok table =>
        match endsExamples table.rest with
        | some e => .error e
        | none =>
          .ok ⟨⟨heading l .examples keyword name rest, found, table.value.head?,
            table.value.tail⟩, passed ++ table.comments, table.rest⟩
    | _ => .error (l.unexpected .examplesStart)

theorem length_examples {last : Nat} {ls : List Line} {p} (h : examples last ls = .ok p) :
    p.rest.length < ls.length := by
  unfold examples at h
  split at h
  · cases h
  · cases h
  · next found passed l rest ht =>
    have h1 : rest.length < ls.length := length_tags ht
    split at h
    · split at h
      · cases h
      · next table hr =>
        split at h
        · cases h
        · cases h
          exact Nat.lt_of_le_of_lt
            (Nat.le_trans (length_rows hr) (length_description .examples rest)) h1
    · cases h

/-- The examples blocks of an outline, as far as they go. -/
def examplesBlocks (last : Nat) (ls : List Line) : Outcome (List Examples) :=
  if examplesFollow (skipTrivia ls).2 then
    match _h : examples last (skipTrivia ls).2 with
    | .error e => .error e
    | .ok block =>
      (examplesBlocks last block.rest).map fun more =>
        ⟨block.value :: more.value, (skipTrivia ls).1 ++ block.comments ++ more.comments,
          more.rest⟩
  else .ok ⟨[], (skipTrivia ls).1, (skipTrivia ls).2⟩
termination_by ls.length
decreasing_by exact Nat.lt_of_lt_of_le (length_examples _h) (length_skipTrivia ls)

theorem length_examplesBlocks {last : Nat} {ls : List Line} {p}
    (h : examplesBlocks last ls = .ok p) : p.rest.length ≤ ls.length := by
  fun_induction examplesBlocks last ls generalizing p with
  | case1 => cases h
  | case2 ls hf block hb ih =>
    obtain ⟨q, hq, rfl⟩ := map_eq_ok_iff.1 h
    exact Nat.le_trans (show q.rest.length ≤ _ from ih hq)
      (Nat.le_of_lt (Nat.lt_of_lt_of_le (length_examples hb) (length_skipTrivia ls)))
  | case3 ls hf => cases h; exact length_skipTrivia ls

/-- A scenario or an outline with the tags before it. -/
def test (last : Nat) (ls : List Line) : Outcome Child :=
  match tags ls with
  | .error e => .error e
  | .ok ⟨_, _, []⟩ => .error ⟨last, .unfinished .testStart⟩
  | .ok ⟨found, passed, l :: rest⟩ =>
    match l.kind with
    | .header .scenario keyword name =>
      (steps (description .scenario rest).2).map fun s =>
        ⟨.scenario ⟨heading l .scenario keyword name rest, found, s.value⟩,
          passed ++ s.comments, s.rest⟩
    | .header .outline keyword name =>
      match steps (description .outline rest).2 with
      | .error e => .error e
      | .ok s =>
        (examplesBlocks last s.rest).map fun e =>
          ⟨.outline ⟨heading l .outline keyword name rest, found, s.value, e.value⟩,
            passed ++ s.comments ++ e.comments, e.rest⟩
    | .header .feature .. => .error ⟨l.number, .secondFeature⟩
    | _ => .error (l.unexpected .testStart)

theorem length_test {last : Nat} {ls : List Line} {p} (h : test last ls = .ok p) :
    p.rest.length < ls.length := by
  unfold test at h
  split at h
  · cases h
  · cases h
  · next found passed l rest ht =>
    have h1 : rest.length < ls.length := length_tags ht
    split at h
    · obtain ⟨q, hq, rfl⟩ := map_eq_ok_iff.1 h
      exact Nat.lt_of_le_of_lt
        (Nat.le_trans (length_steps hq) (length_description .scenario rest)) h1
    · split at h
      · cases h
      · next s hs =>
        obtain ⟨q, hq, rfl⟩ := map_eq_ok_iff.1 h
        exact Nat.lt_of_le_of_lt (Nat.le_trans (length_examplesBlocks hq)
          (Nat.le_trans (length_steps hs) (length_description .outline rest))) h1
    · cases h
    · cases h

theorem length_background {l : Line} {keyword name : Text} {rest : List Line} {p}
    (h : background l keyword name rest = .ok p) : p.rest.length ≤ rest.length := by
  obtain ⟨q, hq, rfl⟩ := map_eq_ok_iff.1 h
  exact Nat.le_trans (length_steps hq) (length_description .background rest)

/-! ### The feature -/

/-- What may follow the last block of a feature. -/
def expectedAfter : Option Child → Expectation
  | none => .featureBody
  | some (.outline _) => .outlineBody
  | some _ => .stepBody

/-- What refuses a line that starts no block of a feature, where `before` is the block before it. -/
def misplaced (before : Option Child) (l : Line) : Failure :=
  match l.kind, before with
  | .header .feature .., _ => ⟨l.number, .secondFeature⟩
  | .header .examples .., some (.scenario _) => ⟨l.number, .strayExamples⟩
  | _, _ => l.unexpected (expectedAfter before)

/-- Whether a line of this kind starts a scenario or an outline. -/
def startsTest : LineKind → Bool
  | .tags | .header .scenario .. | .header .outline .. => true
  | _ => false

/-- The blocks of a feature up to the end of the lines, where `before` is the block before them. -/
def children (last : Nat) (before : Option Child) (ls : List Line) :
    Except Failure (List Child × List Comment) :=
  match _h : skipTrivia ls with
  | (passed, []) => .ok ([], passed)
  | (passed, l :: rest) =>
    if startsTest l.kind then
      match _ht : test last (l :: rest) with
      | .error e => .error e
      | .ok t =>
        (children last (some t.value) t.rest).map fun more =>
          (t.value :: more.1, passed ++ t.comments ++ more.2)
    else
      match l.kind, before with
      | .header .background keyword name, none =>
        match _hb : background l keyword name rest with
        | .error e => .error e
        | .ok b =>
          (children last (some (.background b.value)) b.rest).map fun more =>
            (.background b.value :: more.1, passed ++ b.comments ++ more.2)
      | .header .background .., some _ => .error ⟨l.number, .lateBackground⟩
      | _, _ => .error (misplaced before l)
termination_by ls.length
decreasing_by
  · have hs := length_skipTrivia ls
    rw [_h] at hs
    exact Nat.lt_of_lt_of_le (length_test _ht) hs
  · have hs := length_skipTrivia ls
    rw [_h] at hs
    exact Nat.lt_of_le_of_lt (length_background _hb) hs

/-- The feature that takes up all the lines. -/
def feature (last : Nat) (language : Text) (ls : List Line) :
    Except Failure (Feature × List Comment) :=
  match tags ls with
  | .error e => .error e
  | .ok ⟨_, _, []⟩ => .error ⟨last, .unfinished .featureStart⟩
  | .ok ⟨found, passed, l :: rest⟩ =>
    match l.kind with
    | .header .feature keyword name =>
      (children last none (description .feature rest).2).map fun blocks =>
        (⟨heading l .feature keyword name rest, found, language, blocks.1⟩, passed ++ blocks.2)
    | _ => .error (l.unexpected (if found = [] then .documentStart else .featureStart))

/-- The document that classified lines form. -/
def document (language : Text) (ls : List Line) : Except Failure Document :=
  match skipTrivia ls with
  | (passed, []) => .ok ⟨none, passed⟩
  | (passed, l :: rest) =>
    (feature ls.length language (l :: rest)).map fun f => ⟨some f.1, passed ++ f.2⟩

end Gherkin.Document.Parser
