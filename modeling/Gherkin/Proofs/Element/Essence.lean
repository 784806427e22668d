import Gherkin.Proofs.Element.Forget
import Gherkin.Proofs.Text.Path

/-! What counts when elements are compared. An element is brought into a form that holds nothing else:
without origins, without the keywords of features and examples blocks, without the language of a
feature, with paths in their plain spelling, and with nothing but steps in what is made of steps. Two
elements are equal exactly when these forms are the same, so equality is an equivalence, and neither
where an element was read from nor a keyword that is filled in matters to it. -/

namespace Gherkin

/-! ### What is compared -/

/-- A scenario with nothing but steps, which stands for everything that is made of these steps. -/
def Scenario.ofSteps (steps : List Step) : Scenario := { steps := steps.map Step.forget }

def Example.essence (e : Example) : Example := { e.forget with keyword := [] }

def Background.essence (b : Background) : Background := { steps := b.steps.map Step.forget }

def Test.essence (t : Test) : Test := .scenario (.ofSteps t.steps)

def Feature.essence (f : Feature) : Feature :=
  { f.forget with
    keyword := []
    language := []
    background := f.background.map Background.essence
    tests := f.tests.map Test.essence }

def FeatureFile.essence (f : FeatureFile) : FeatureFile :=
  ⟨Path.normal f.path, f.feature.map Feature.essence⟩

mutual

def Directory.essence : Directory → Directory
  | .mk path files directories =>
    .mk (Path.normal path) (files.map FeatureFile.essence) (Directory.essences directories)

def Directory.essences : List Directory → List Directory
  | [] => []
  | d :: ds => d.essence :: Directory.essences ds

end

theorem Directory.essences_eq_map (ds : List Directory) :
    Directory.essences ds = ds.map Directory.essence := by
  induction ds with
  | nil => rw [Directory.essences, List.map_nil]
  | cons d ds ih => rw [Directory.essences, List.map_cons, ih]

/-- An element with nothing but what comparisons look at. Backgrounds, scenarios and outlines are
reduced to their steps. -/
def Element.essence : Element → Element
  | directory d => .directory d.essence
  | featureFile f => .featureFile f.essence
  | feature f => .feature f.essence
  | background b => .scenario (.ofSteps b.steps)
  | scenario s => .scenario (.ofSteps s.steps)
  | outline o => .scenario (.ofSteps o.steps)
  | .example e => .example e.essence
  | step s => .step s.forget
  | tag t => .tag t.forget
  | comment c => .comment c.forget

/-! ### Equality by essence -/

theorem isEqv_iff {α β : Type} {f : α → β} {eq : α → α → Bool} (heq : ∀ a b, eq a b ↔ f a = f b)
    {as bs : List α} : as.isEqv bs eq ↔ as.map f = bs.map f := by
  induction as generalizing bs with
  | nil => cases bs <;> simp [List.isEqv]
  | cons a as ih => cases bs with
    | nil => simp [List.isEqv]
    | cons b bs => simp [List.isEqv, heq, ih]

theorem equalOptions_iff {α β : Type} {f : α → β} {eq : α → α → Bool}
    (heq : ∀ a b, eq a b ↔ f a = f b) {a b : Option α} :
    equalOptions eq a b ↔ a.map f = b.map f := by
  cases a <;> cases b <;> simp [equalOptions, heq]

theorem Tag.equal_iff (a b : Tag) : a.equal b ↔ a.forget = b.forget := by
  simp [Tag.equal, Tag.forget]

theorem Comment.equal_iff (a b : Comment) : a.equal b ↔ a.forget = b.forget := by
  simp [Comment.equal, Comment.forget]

theorem Step.equal_iff (a b : Step) : a.equal b ↔ a.forget = b.forget := by
  simp [Step.equal, Step.forget, and_assoc]

theorem Step.allEqual_iff {as bs : List Step} :
    Step.allEqual as bs ↔ as.map Step.forget = bs.map Step.forget :=
  isEqv_iff Step.equal_iff

theorem Scenario.ofSteps_inj {as bs : List Step} :
    Scenario.ofSteps as = Scenario.ofSteps bs ↔ as.map Step.forget = bs.map Step.forget := by
  simp [Scenario.ofSteps]

theorem Example.equal_iff (a b : Example) : a.equal b ↔ a.essence = b.essence := by
  simp [Example.equal, Example.essence, Example.forget, isEqv_iff Tag.equal_iff, and_assoc]

theorem Background.equal_iff (a b : Background) : a.equal b ↔ a.essence = b.essence := by
  simp [Background.equal, Background.essence, Step.allEqual_iff]

theorem Test.equal_iff (a b : Test) : a.equal b ↔ a.essence = b.essence := by
  simp [Test.equal, Test.essence, Step.allEqual_iff, Scenario.ofSteps_inj]

theorem Feature.equal_iff (a b : Feature) : a.equal b ↔ a.essence = b.essence := by
  simp [Feature.equal, Feature.essence, Feature.forget, isEqv_iff Tag.equal_iff,
    isEqv_iff Test.equal_iff, isEqv_iff Comment.equal_iff, equalOptions_iff Background.equal_iff,
    and_assoc]

theorem FeatureFile.equal_iff (a b : FeatureFile) : a.equal b ↔ a.essence = b.essence := by
  simp [FeatureFile.equal, FeatureFile.essence, Path.equal_iff,
    equalOptions_iff Feature.equal_iff]

mutual

theorem Directory.equal_iff : ∀ a b : Directory, a.equal b ↔ a.essence = b.essence
  | .mk p files ds, .mk q files' ds' => by
    simp [Directory.equal, Directory.essence, Path.equal_iff, and_assoc,
      isEqv_iff FeatureFile.equal_iff, Directory.allEqual_iff ds ds']

theorem Directory.allEqual_iff : ∀ as bs : List Directory,
    Directory.allEqual as bs ↔ Directory.essences as = Directory.essences bs
  | [], [] => by simp [Directory.allEqual]
  | [], _ :: _ => by simp [Directory.allEqual, Directory.essences]
  | _ :: _, [] => by simp [Directory.allEqual, Directory.essences]
  | a :: as, b :: bs => by
    simp [Directory.allEqual, Directory.essences, Directory.equal_iff a b,
      Directory.allEqual_iff as bs]

end

namespace Element

variable {a b a' b' : Element} {s t : List Step}

/-- Elements are equal exactly when the same is left of them. -/
theorem equal_iff : a.equal b ↔ a.essence = b.essence := by
  cases a <;> cases b <;>
    simp [equal, essence, steps?, Directory.equal_iff, FeatureFile.equal_iff, Feature.equal_iff,
      Example.equal_iff, Step.equal_iff, Tag.equal_iff, Comment.equal_iff, Step.allEqual_iff,
      Scenario.ofSteps_inj]

theorem equal_equivalence : Equivalence fun a b : Element => a.equal b = true where
  refl _ := equal_iff.2 rfl
  symm h := equal_iff.2 (equal_iff.1 h).symm
  trans hab hbc := equal_iff.2 ((equal_iff.1 hab).trans (equal_iff.1 hbc))

/-- A comparison depends on what is left of its two sides and on nothing else about them. -/
theorem equal_congr (ha : a.essence = a'.essence) (hb : b.essence = b'.essence) :
    a.equal b = a'.equal b' := by
  rw [Bool.eq_iff_iff, equal_iff, equal_iff, ha, hb]

/-! ### Elements made of steps -/

theorem essence_of_steps? (h : a.steps? = some s) : a.essence = .scenario (.ofSteps s) := by
  cases a with
  | background | scenario | outline =>
    obtain rfl := Option.some.inj h
    rfl
  | _ => cases h

theorem steps?_of_essence {e : Scenario} (h : a.essence = .scenario e) : a.steps?.isSome := by
  cases a with
  | background | scenario | outline => rfl
  | _ => cases h

theorem equal_iff_of_steps? (hs : a.steps? = some s) (ht : b.steps? = some t) :
    a.equal b ↔ s.map Step.forget = t.map Step.forget := by
  rw [equal_iff, essence_of_steps? hs, essence_of_steps? ht, scenario.injEq, Scenario.ofSteps_inj]

/-- An element that is made of steps is unequal to one that is not. -/
theorem not_equal_of_steps? (hs : a.steps? = some s) (hb : b.steps? = none) : ¬a.equal b := by
  intro h
  have hsome := steps?_of_essence ((equal_iff.1 h).symm.trans (essence_of_steps? hs))
  rw [hb] at hsome
  cases hsome

/-! ### Comparisons between types -/

/-- The comparison of two elements as the types that they have compare, if those do. -/
def ownEqual? (a b : Element) : Option Bool :=
  match a, b with
  | directory a, directory b => some (a.equal b)
  | featureFile a, featureFile b => some (a.equal b)
  | feature a, feature b => some (a.equal b)
  | background a, background b => some (Step.allEqual a.steps b.steps)
  | background a, scenario b => some (Step.allEqual a.steps b.steps)
  | background a, outline b => some (Step.allEqual a.steps b.steps)
  | scenario a, background b => some (Step.allEqual a.steps b.steps)
  | scenario a, scenario b => some (Step.allEqual a.steps b.steps)
  | scenario a, outline b => some (Step.allEqual a.steps b.steps)
  | outline a, background b => some (Step.allEqual a.steps b.steps)
  | outline a, scenario b => some (Step.allEqual a.steps b.steps)
  | outline a, outline b => some (Step.allEqual a.steps b.steps)
  | .example a, .example b => some (a.equal b)
  | step a, step b => some (a.equal b)
  | tag a, tag b => some (a.equal b)
  | comment a, comment b => some (a.equal b)
  | _, _ => none

theorem equal_eq_ownEqual? (a b : Element) : a.equal b = (a.ownEqual? b).getD false := by
  cases a <;> cases b <;> rfl

end Element

/-- A test as an element. -/
def Test.element : Test → Element
  | scenario s => .scenario s
  | outline o => .outline o

theorem Test.equal_element (s t : Test) : s.equal t = s.element.equal t.element := by
  cases s <;> cases t <;> rfl

/-! ### Origins and keywords -/

variable {d : Dialect} {code : Text}

theorem Comment.equal_of_forget {a b : Comment} (h : a.forget = b.forget) : a.equal b :=
  (Comment.equal_iff a b).2 h

theorem Step.equal_of_forget {a b : Step} (h : a.forget = b.forget) : a.equal b :=
  (Step.equal_iff a b).2 h

theorem Step.allEqual_of_forget {as bs : List Step}
    (h : as.map Step.forget = bs.map Step.forget) : Step.allEqual as bs :=
  Step.allEqual_iff.2 h

theorem Example.essence_forget (e : Example) : e.forget.essence = e.essence := by
  simp [Example.essence, Example.forget, Tag.forget, Function.comp_def]

theorem Example.essence_settle (e : Example) : (d.settleExample e).essence = e.essence :=
  Example.essence_forget e

theorem Background.essence_forget (b : Background) : b.forget.essence = b.essence := by
  simp [Background.essence, Background.forget, Step.forget, Function.comp_def]

theorem Background.essence_settle (b : Background) : (d.settleBackground b).essence = b.essence :=
  b.essence_forget

theorem Scenario.ofSteps_forget (steps : List Step) :
    Scenario.ofSteps (steps.map Step.forget) = Scenario.ofSteps steps := by
  simp [Scenario.ofSteps, Step.forget, Function.comp_def]

theorem Test.essence_forget (t : Test) : t.forget.essence = t.essence := by
  cases t <;> exact congrArg Test.scenario (Scenario.ofSteps_forget _)

theorem Test.essence_settle (t : Test) : (d.settleTest t).essence = t.essence := by
  cases t <;> exact congrArg Test.scenario (Scenario.ofSteps_forget _)

theorem Feature.essence_forget (f : Feature) : f.forget.essence = f.essence := by
  simp [Feature.essence, Feature.forget, Tag.forget, Comment.forget, Function.comp_def,
    Background.essence_forget, Test.essence_forget]

theorem Feature.essence_settle (f : Feature) : (d.settleFeature code f).essence = f.essence := by
  simp [Feature.essence, Dialect.settleFeature, Feature.forget, Heading.settle, Tag.forget,
    Comment.forget, Function.comp_def, Background.essence_settle, Test.essence_settle]

theorem FeatureFile.essence_forget (f : FeatureFile) : f.forget.essence = f.essence := by
  simp [FeatureFile.essence, FeatureFile.forget, Function.comp_def, Feature.essence_forget]

/-- Where an element was read from is nothing that is left of it. -/
theorem Element.essence_forget (e : Element) : e.forget.essence = e.essence := by
  cases e with
  | directory d => rfl
  | featureFile f => exact congrArg Element.featureFile f.essence_forget
  | feature f => exact congrArg Element.feature f.essence_forget
  | background b => exact congrArg Element.scenario (Scenario.ofSteps_forget b.steps)
  | scenario s => exact congrArg Element.scenario (Scenario.ofSteps_forget s.steps)
  | outline o => exact congrArg Element.scenario (Scenario.ofSteps_forget o.steps)
  | «example» e => exact congrArg Element.example e.essence_forget
  | step _ | tag _ | comment _ => rfl

theorem Example.equal_of_forget {a b : Example} (h : a.forget = b.forget) : a.equal b := by
  rw [Example.equal_iff, ← a.essence_forget, h, b.essence_forget]

theorem Example.equal_of_settle {a b : Example} (h : a.forget = d.settleExample b) : a.equal b := by
  rw [Example.equal_iff, ← a.essence_forget, h, b.essence_settle]

theorem Background.equal_of_settle {a b : Background} (h : a.forget = d.settleBackground b) :
    a.equal b := by
  rw [Background.equal_iff, ← a.essence_forget, h, b.essence_settle]

theorem Test.equal_of_settle {a b : Test} (h : a.forget = d.settleTest b) : a.equal b := by
  rw [Test.equal_iff, ← a.essence_forget, h, b.essence_settle]

theorem Feature.equal_of_settle {a b : Feature} (h : a.forget = d.settleFeature code b) :
    a.equal b := by
  rw [Feature.equal_iff, ← a.essence_forget, h, b.essence_settle]

/-- Elements that differ at most in where they were read from are equal. -/
theorem Element.equal_of_forget {a b : Element} (h : a.forget = b.forget) : a.equal b := by
  rw [Element.equal_iff, ← a.essence_forget, h, b.essence_forget]

end Gherkin
