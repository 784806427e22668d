import Gherkin.Text.Order

/-! A dialect holds the spellings of the keywords in one human language. Step keywords keep their
trailing space, since a step line starts with the keyword as it is; some languages glue the keyword
to the next word and have no space. -/

namespace Gherkin

/-- Keyword spellings of one language, each list in order of preference. -/
structure Dialect where
  name : Text
  native : Text
  feature : List Text
  background : List Text
  scenario : List Text
  outline : List Text
  examples : List Text
  givens : List Text
  whens : List Text
  thens : List Text
  ands : List Text
  buts : List Text

namespace Dialect

/-- Every step keyword once, longest first. -/
def stepKeywords (d : Dialect) : List Text :=
  dropRepeats (sortBy Text.longerThenLeq (d.givens ++ d.whens ++ d.thens ++ d.ands ++ d.buts))

def featureKeyword (d : Dialect) : Text := d.feature.headD []

def backgroundKeyword (d : Dialect) : Text := d.background.headD []

/-- Most languages list the singular of an examples keyword first. It is passed over when there is
another keyword. -/
def scenarioKeyword (d : Dialect) : Text :=
  match d.scenario with
  | first :: second :: _ => if d.examples.any (Text.startsWith first) then second else first
  | keywords => keywords.headD []

def outlineKeyword (d : Dialect) : Text := d.outline.headD []

def examplesKeyword (d : Dialect) : Text := d.examples.headD []

/-- The step keyword that any step may use. -/
def wildcard : Text := ['*']

/-- The first given keyword that is not the wildcard, without its trailing space. -/
def givenKeyword (d : Dialect) : Text :=
  ((d.givens.map Text.trimEnd).find? (· ≠ wildcard)).getD wildcard

theorem mem_stepKeywords {d : Dialect} {k : Text} :
    k ∈ d.stepKeywords ↔ k ∈ d.givens ++ d.whens ++ d.thens ++ d.ands ++ d.buts := by
  simp [stepKeywords]

end Dialect

end Gherkin
