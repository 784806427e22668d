import Gherkin.Document.Parser.Basic
import Gherkin.Text.Lines
import Gherkin.Text.Replace

/-! Descriptions and steps. A description is free text under a header, up to the first line that
ends it for its block. A step may carry a table or a doc string; inside a doc string every line up
to the closing fence is content, comments included. -/

namespace Gherkin.Document.Parser

/-- Whether a line of this kind ends the description of a block. -/
def endsDescription (block : Block) : LineKind → Bool
  | .comment | .language _ | .tags | .header .. => true
  | .step .. => block ≠ .feature ∧ block ≠ .examples
  | .row => block = .examples
  | _ => false

/-- The lines of a description without trailing blanks and without blank lines at the end. -/
def descriptionText (ls : List Line) : Option Text :=
  match ((ls.map fun l => l.raw.trimEnd).reverse.dropWhile List.isEmpty).reverse with
  | [] => none
  | kept => some (Text.unlines kept)

/-- The text under a header, up to the first line that ends it. -/
def description (block : Block) (ls : List Line) : Option Text × List Line :=
  let body := ls.dropWhile (·.kind = .blank)
  (descriptionText (body.takeWhile fun l => !endsDescription block l.kind),
    body.dropWhile fun l => !endsDescription block l.kind)

theorem length_description (block : Block) (ls : List Line) :
    (description block ls).2.length ≤ ls.length :=
  Nat.le_trans (List.dropWhile_sublist _).length_le (List.dropWhile_sublist _).length_le

/-! ### Doc strings and tables -/

/-- Whether the line is a fence of the given kind. -/
def isFence (fence : Fence) : LineKind → Bool
  | .fence f _ => f = fence
  | _ => false

/-- A line inside a doc string that was opened at the given indentation. -/
def contentLine (indent : Nat) (fence : Fence) (l : Line) : Text :=
  (l.raw.dropIndent indent).replace fence.escaped fence.mark

/-- The lines up to the closing fence, and those after it. -/
def docString (indent : Nat) (fence : Fence) : List Line → Option (List Text × List Line)
  | [] => none
  | l :: ls =>
    if isFence fence l.kind then some ([], ls)
    else (docString indent fence ls).map fun p => (contentLine indent fence l :: p.1, p.2)

/-- The table or doc string of a step, if one follows. -/
def argument (ls : List Line) : Outcome (Option Argument) :=
  match skipTrivia ls with
  | (passed, []) => .ok ⟨none, passed, []⟩
  | (passed, l :: rest) =>
    match l.kind with
    | .row => (rows none (l :: rest)).map fun p =>
        ⟨some (.table l.location p.value), passed ++ p.comments, p.rest⟩
    | .fence fence contentType =>
      match docString l.indent fence rest with
      | none => .error ⟨l.number, .unclosedDocString⟩
      | some (content, rest) =>
        .ok ⟨some (.docString l.location (if contentType = [] then none else some contentType)
          (Text.unlines content) fence), passed, rest⟩
    | _ => .ok ⟨none, passed, l :: rest⟩

theorem length_docString {indent : Nat} {fence : Fence} {ls : List Line} {p}
    (h : docString indent fence ls = some p) : p.2.length ≤ ls.length := by
  fun_induction docString indent fence ls generalizing p with
  | case1 => cases h
  | case2 => cases h; simp
  | case3 l ls _ ih =>
    obtain ⟨q, hq, rfl⟩ := Option.map_eq_some_iff.1 h
    exact Nat.le_succ_of_le (show q.2.length ≤ _ from ih hq)

theorem length_argument {ls : List Line} {p} (h : argument ls = .ok p) :
    p.rest.length ≤ ls.length := by
  have hs := length_skipTrivia ls
  unfold argument at h
  split at h
  · cases h; simp
  · next passed l rest heq =>
    rw [heq] at hs
    split at h
    · obtain ⟨q, hq, rfl⟩ := map_eq_ok_iff.1 h
      exact Nat.le_trans (length_rows hq) hs
    · split at h
      · cases h
      · next hd =>
        cases h
        exact Nat.le_trans (Nat.le_succ_of_le (length_docString hd)) hs
    · cases h; exact hs

/-! ### Steps -/

/-- Steps with their arguments, as far as they go. -/
def steps (ls : List Line) : Outcome (List Step) :=
  match _h : skipTrivia ls with
  | (passed, []) => .ok ⟨[], passed, []⟩
  | (passed, l :: rest) =>
    match l.kind with
    | .step keyword text =>
      match _ha : argument rest with
      | .error e => .error e
      | .ok arg =>
        (steps arg.rest).map fun more =>
          ⟨⟨l.location, keyword, text, arg.value⟩ :: more.value,
            passed ++ arg.comments ++ more.comments, more.rest⟩
    | _ => .ok ⟨[], passed, l :: rest⟩
termination_by ls.length
decreasing_by
  have hs := length_skipTrivia ls
  have := length_argument _ha
  rw [_h] at hs
  simp only [List.length_cons] at hs
  omega

theorem length_steps {ls : List Line} {p} (h : steps ls = .ok p) : p.rest.length ≤ ls.length := by
  fun_induction steps ls generalizing p with
  | case1 => cases h; simp
  | case2 ls passed l rest hs keyword text hk e he => cases h
  | case3 ls passed l rest hs keyword text hk arg ha ih =>
    obtain ⟨q, hq, rfl⟩ := map_eq_ok_iff.1 h
    have h1 := length_skipTrivia ls
    rw [hs] at h1
    exact Nat.le_trans (show q.rest.length ≤ _ from ih hq) (Nat.le_trans (length_argument ha)
      (Nat.le_trans (Nat.le_succ _) h1))
  | case4 ls passed l rest hs hk =>
    cases h
    have h1 := length_skipTrivia ls
    rw [hs] at h1
    exact h1

end Gherkin.Document.Parser
