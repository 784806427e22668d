import Mathlib.Data.List.Basic
import Gherkin.Proofs.Element.OfData

/-! The tree of excerpts behind an element. The data of an element say what it is built from: nodes
that get a single line of its excerpt, which are tags and comments, and blocks that the excerpt is
split among. Cutting the excerpt along this tree gives the excerpt of every element below, and with
it the origin. -/

namespace Gherkin

/-- An item with those under it: the ones with a line each, and the blocks, in the order of their
lines. -/
inductive Plan (α : Type)
  | mk (own : α) (marks : List α) (blocks : List (Plan α))

namespace Plan

variable {α β : Type}

def own : Plan α → α
  | mk own _ _ => own

mutual

def map (f : α → β) : Plan α → Plan β
  | mk own marks blocks => mk (f own) (marks.map f) (mapAll f blocks)

def mapAll (f : α → β) : List (Plan α) → List (Plan β)
  | [] => []
  | p :: ps => map f p :: mapAll f ps

end

theorem mapAll_eq_map (f : α → β) (ps : List (Plan α)) : mapAll f ps = ps.map (map f) := by
  induction ps with
  | nil => rfl
  | cons p ps ih => rw [mapAll, ih, List.map_cons]

mutual

/-- The excerpts of a node and of all under it. -/
def cut (e : Excerpt) : Plan Data → Plan (Excerpt × Data)
  | mk d marks blocks =>
    mk (e, d) (marks.map fun m => (e.lineOf m, m)) (cutAll (e.splitAt (blocks.map own)) blocks)

def cutAll : List Excerpt → List (Plan Data) → List (Plan (Excerpt × Data))
  | e :: es, p :: ps => cut e p :: cutAll es ps
  | _, _ => []

end

/-- The origins that a node and all under it get. -/
def origins (p : Plan (Excerpt × Data)) : Plan (Option Origin) := p.map fun x => x.1.origin x.2

theorem cutAll_append {es es' : List Excerpt} {ps ps' : List (Plan Data)}
    (h : es.length = ps.length) :
    cutAll (es ++ es') (ps ++ ps') = cutAll es ps ++ cutAll es' ps' := by
  induction ps generalizing es with
  | nil =>
    obtain rfl := List.length_eq_zero_iff.1 h
    rfl
  | cons p ps ih => cases es with
    | nil => cases h
    | cons e es =>
      rw [List.cons_append, List.cons_append, cutAll, ih (Nat.succ.inj h), cutAll, List.cons_append]

theorem own_cut (e : Excerpt) (p : Plan Data) : (cut e p).own = (e, p.own) := by
  cases p
  rfl

/-- Every block gets an excerpt, when there are enough of them. -/
theorem map_own_cutAll {es : List Excerpt} {ps : List (Plan Data)} (h : es.length = ps.length) :
    (cutAll es ps).map own = es.zip (ps.map own) := by
  induction ps generalizing es with
  | nil =>
    obtain rfl := List.length_eq_zero_iff.1 h
    rfl
  | cons p ps ih => cases es with
    | nil => cases h
    | cons e es =>
      rw [cutAll, List.map_cons, own_cut, ih (Nat.succ.inj h), List.map_cons, List.zip_cons_cons]

/-! ### The plans of nodes in normal form -/

/-- A tag or a comment has nothing under it. -/
def leaf (d : Data) : Plan Data := mk d [] []

def ofStep (d : Data) : Plan Data := mk d [] []

def ofExample (d : Data) : Plan Data := mk d (d.itemsAt "tags") []

def ofBackground (d : Data) : Plan Data := mk d [] ((d.itemsAt "steps").map ofStep)

def ofScenario (d : Data) : Plan Data :=
  mk d (d.itemsAt "tags") ((d.itemsAt "steps").map ofStep)

def ofOutline (d : Data) : Plan Data :=
  mk d (d.itemsAt "tags")
    ((d.itemsAt "steps").map ofStep ++ (d.itemsAt "examples").map ofExample)

def ofTest (d : Data) : Plan Data :=
  if d.hasType "ScenarioOutline" then ofOutline d else ofScenario d

def ofFeature (d : Data) : Plan Data :=
  mk d (d.itemsAt "tags" ++ d.itemsAt "comments")
    ((d.present? "background").toList.map ofBackground ++ (d.itemsAt "elements").map ofTest)

end Plan

/-! ### The origins in an element -/

def Tag.plan (t : Tag) : Plan (Option Origin) := .mk t.origin [] []

def Comment.plan (c : Comment) : Plan (Option Origin) := .mk c.origin [] []

def Step.plan (s : Step) : Plan (Option Origin) := .mk s.origin [] []

def Example.plan (e : Example) : Plan (Option Origin) := .mk e.origin (e.tags.map (·.origin)) []

def Background.plan (b : Background) : Plan (Option Origin) :=
  .mk b.origin [] (b.steps.map Step.plan)

def Scenario.plan (s : Scenario) : Plan (Option Origin) :=
  .mk s.origin (s.tags.map (·.origin)) (s.steps.map Step.plan)

def Outline.plan (o : Outline) : Plan (Option Origin) :=
  .mk o.origin (o.tags.map (·.origin)) (o.steps.map Step.plan ++ o.examples.map Example.plan)

def Test.plan : Test → Plan (Option Origin)
  | .scenario s => s.plan
  | .outline o => o.plan

def Feature.plan (f : Feature) : Plan (Option Origin) :=
  .mk f.origin (f.tags.map (·.origin) ++ f.comments.map (·.origin))
    (f.background.toList.map Background.plan ++ f.tests.map Test.plan)

/-- The origins in an element that is read from a text. A file has none of its own. -/
def Element.plans : Element → List (Plan (Option Origin))
  | .directory _ => []
  | .featureFile f => f.feature.toList.map Feature.plan
  | .feature f => [f.plan]
  | .background b => [b.plan]
  | .scenario s => [s.plan]
  | .outline o => [o.plan]
  | .example e => [e.plan]
  | .step s => [s.plan]
  | .tag t => [t.plan]
  | .comment c => [c.plan]

/-! ### Elements are cut along the plan -/

section OfData

variable (e : Excerpt) (d : Data)

/-- The origins in the element of a node are those that its plan gives. -/
def Planned {α : Type} (ofData : Excerpt → Data → α) (plan : α → Plan (Option Origin))
    (of : Data → Plan Data) : Prop :=
  ∀ e d, plan (ofData e d) = ((of d).cut e).origins

theorem Planned.zipWith {α : Type} {ofData : Excerpt → Data → α} {plan : α → Plan (Option Origin)}
    {of : Data → Plan Data} (h : Planned ofData plan of) (ds : List Data) (es : List Excerpt) :
    (ds.zipWith (fun node part => ofData part node) es).map plan =
      (Plan.cutAll es (ds.map of)).map Plan.origins := by
  induction ds generalizing es with
  | nil => cases es <;> rfl
  | cons d ds ih => cases es with
    | nil => rfl
    | cons e es =>
      rw [List.zipWith_cons_cons, List.map_cons, List.map_cons, Plan.cutAll, List.map_cons, h, ih]

theorem Excerpt.split_append (a b : List ℕ) :
    ∃ es, e.split (a ++ b) = es ++ e.split b ∧ es.length = a.length := by
  induction a with
  | nil => exact ⟨[], rfl, rfl⟩
  | cons s a ih =>
    obtain ⟨es, hes, hlength⟩ := ih
    cases hab : a ++ b with
    | nil =>
      obtain ⟨rfl, rfl⟩ := List.append_eq_nil_iff.1 hab
      exact ⟨[e.trimmed s e.last], by simp [Excerpt.split], rfl⟩
    | cons next rest =>
      refine ⟨e.trimmed s (min (next - 1) e.last) :: es, ?_, congrArg Nat.succ hlength⟩
      rw [List.cons_append, hab, Excerpt.split, ← hab, hes, List.cons_append]

/-- What comes before siblings does not show in their excerpts. -/
theorem Excerpt.splitAt_append (a b : List Data) :
    ∃ es, e.splitAt (a ++ b) = es ++ e.splitAt b ∧ es.length = a.length := by
  obtain ⟨es, hes, hlength⟩ := e.split_append (a.map Data.startLine) (b.map Data.startLine)
  exact ⟨es, by rw [splitAt, List.map_append, hes, splitAt], by rw [hlength, List.length_map]⟩

theorem Tag.planned : Planned Tag.ofData Tag.plan Plan.leaf := fun _ _ => rfl

theorem Comment.planned : Planned Comment.ofData Comment.plan Plan.leaf := fun _ _ => rfl

theorem Step.planned : Planned Step.ofData Step.plan Plan.ofStep := fun _ _ => rfl

theorem Tag.origins_listOfData :
    (Tag.listOfData e d).map (·.origin) =
      ((d.itemsAt "tags").map fun m => (e.lineOf m, m)).map fun x => x.1.origin x.2 := by
  rw [Tag.listOfData, List.map_map, List.map_map]
  rfl

theorem map_own_map {of : Data → Plan Data} (h : ∀ d, (of d).own = d) (ds : List Data) :
    (ds.map of).map Plan.own = ds := by
  rw [List.map_map]
  exact List.map_id'' h ds

theorem Step.plans_listOfData (later : List Data) {es es' : List Excerpt}
    (hes : e.splitAt (d.itemsAt "steps" ++ later) = es ++ es')
    (hlength : es.length = (d.itemsAt "steps").length) :
    (Step.listOfData e d later).map Step.plan =
      (Plan.cutAll es ((d.itemsAt "steps").map Plan.ofStep)).map Plan.origins := by
  have htake : (d.itemsAt "steps").zipWith (fun node part => Step.ofData part node) (es ++ es') =
      (d.itemsAt "steps").zipWith (fun node part => Step.ofData part node) es := by
    conv_lhs => rw [← List.append_nil (d.itemsAt "steps")]
    rw [List.zipWith_append hlength.symm, List.zipWith_nil_left, List.append_nil]
  rw [Step.listOfData, hes, htake, Step.planned.zipWith]

theorem Step.plans_listOfData_nil :
    (Step.listOfData e d []).map Step.plan =
      (Plan.cutAll (e.splitAt (d.itemsAt "steps")) ((d.itemsAt "steps").map Plan.ofStep)).map
        Plan.origins := by
  have hall : e.splitAt (d.itemsAt "steps" ++ []) = e.splitAt (d.itemsAt "steps") ++ [] := by simp
  exact Step.plans_listOfData e d [] hall (by simp [length_splitAt])

theorem Example.planned : Planned Example.ofData Example.plan Plan.ofExample := by
  intro e d
  rw [Example.plan, Example.ofData, Tag.origins_listOfData]
  rfl

theorem Background.planned : Planned Background.ofData Background.plan Plan.ofBackground := by
  intro e d
  rw [Background.plan, Background.ofData, Step.plans_listOfData_nil, Plan.ofBackground, Plan.cut,
    Plan.origins, Plan.map, Plan.mapAll_eq_map, map_own_map fun _ => rfl]
  rfl

theorem Scenario.planned : Planned Scenario.ofData Scenario.plan Plan.ofScenario := by
  intro e d
  rw [Scenario.plan, Scenario.ofData, Step.plans_listOfData_nil, Tag.origins_listOfData,
    Plan.ofScenario, Plan.cut, Plan.origins, Plan.map, Plan.mapAll_eq_map, map_own_map fun _ => rfl]
  rfl

/-- The excerpts of the examples are cut twice, with the steps before them and without. -/
theorem Outline.planned : Planned Outline.ofData Outline.plan Plan.ofOutline := by
  intro e d
  obtain ⟨es, hes, hlength⟩ := e.splitAt_append (d.itemsAt "steps") (d.itemsAt "examples")
  have hown : ((d.itemsAt "steps").map Plan.ofStep ++
      (d.itemsAt "examples").map Plan.ofExample).map Plan.own =
        d.itemsAt "steps" ++ d.itemsAt "examples" := by
    rw [List.map_append, map_own_map fun _ => rfl, map_own_map fun _ => rfl]
  have hsteps := Step.plans_listOfData e d (d.itemsAt "examples") hes hlength
  rw [Outline.plan, Outline.ofData, Tag.origins_listOfData, Plan.ofOutline, Plan.cut, Plan.origins,
    Plan.map, Plan.mapAll_eq_map, hown, hes, Plan.cutAll_append (by simpa using hlength),
    List.map_append]
  simp only [hsteps, Example.planned.zipWith]
  rfl

theorem Test.planned : Planned Test.ofData Test.plan Plan.ofTest := by
  intro e d
  rw [Test.ofData, Plan.ofTest]
  split
  · exact Outline.planned e d
  · exact Scenario.planned e d

theorem own_ofTest (d : Data) : (Plan.ofTest d).own = d := by
  rw [Plan.ofTest]
  split <;> rfl

theorem Feature.planned : Planned Feature.ofData Feature.plan Plan.ofFeature := by
  intro e d
  obtain ⟨es, hes, hlength⟩ :=
    e.splitAt_append (d.present? "background").toList (d.itemsAt "elements")
  have hown : ((d.present? "background").toList.map Plan.ofBackground ++
      (d.itemsAt "elements").map Plan.ofTest).map Plan.own =
        (d.present? "background").toList ++ d.itemsAt "elements" := by
    rw [List.map_append, map_own_map fun _ => rfl, map_own_map own_ofTest]
  have hbackground : (((d.present? "background").toList.zipWith
      (fun node part => Background.ofData part node)
      (es ++ e.splitAt (d.itemsAt "elements"))).head?).toList =
        (d.present? "background").toList.zipWith
          (fun node part => Background.ofData part node) es := by
    cases hd : d.present? "background" with
    | none => rfl
    | some node =>
      rw [hd] at hlength
      obtain ⟨part, rfl⟩ := List.length_eq_one_iff.1 hlength
      rfl
  have hdrop : (es ++ e.splitAt (d.itemsAt "elements")).drop
      (d.present? "background").toList.length = e.splitAt (d.itemsAt "elements") := by
    rw [← hlength, List.drop_left]
  rw [Plan.ofFeature, Plan.cut, Plan.origins, Plan.map, Plan.mapAll_eq_map, hown, hes,
    Plan.cutAll_append (by simpa using hlength), List.map_append, List.map_append, List.map_append]
  simp only [Feature.plan, Feature.ofData, hes, hbackground, hdrop, Background.planned.zipWith,
    Test.planned.zipWith, Tag.origins_listOfData, List.map_map]
  rfl

end OfData

end Gherkin
