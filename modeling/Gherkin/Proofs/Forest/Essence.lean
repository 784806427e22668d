import Gherkin.Proofs.Element.Essence
import Gherkin.Proofs.Forest.Plant

/-! Equality of elements of a forest. What comparisons do not look at is taken away from every
element of the forest at once, links included, and no comparison in the forest comes out
differently. -/

namespace Gherkin

/-! ### What is compared -/

/-- The content with nothing but what comparisons look at. The kind stays. -/
def Content.essence : Content → Content
  | directory path files directories => directory (Path.normal path) files directories
  | featureFile path held => featureFile (Path.normal path) held
  | feature head _ first tests tags comments =>
    feature { head with keyword := [] } [] first tests tags comments
  | background _ steps => background {} steps
  | scenario _ steps _ => scenario {} steps []
  | outline _ steps _ _ => outline {} steps [] []
  | .example head rows tags => .example { head with keyword := [] } rows tags
  | step keyword text block => step keyword text block
  | tag name => tag name
  | comment text => comment text

theorem Content.kind_essence (c : Content) : c.essence.kind = c.kind := by
  cases c <;> rfl

def Node.essence (n : Node) : Node := ⟨n.content.essence, none, none⟩

namespace Forest

variable {f g : Forest} {id i j : Nat}

/-- The forest with nothing but what comparisons look at. -/
def essence (f : Forest) : Forest := ⟨f.nodes.map (Option.map Node.essence)⟩

/-- Whether the elements with two numbers are equal, if both are there. -/
def equal? (f : Forest) (i j : Nat) : Option Bool :=
  (f.element? i).bind fun a => (f.element? j).map a.equal

theorem node?_essence (f : Forest) (id : Nat) :
    f.essence.node? id = (f.node? id).map Node.essence := by
  rw [node?, node?, essence, List.getElem?_map]
  cases f.nodes[id]? <;> rfl

theorem kind?_essence (f : Forest) (id : Nat) : f.essence.kind? id = f.kind? id := by
  rw [kind?, kind?, node?_essence, Option.map_map]
  exact congrArg (Option.map · _) (funext fun n => n.content.kind_essence)

/-! ### Reading -/

/-- Children that read alike give collections that read alike. -/
theorem map_filterMap_congr {α β : Type} {φ : α → β} {read read' : Nat → Option α}
    (h : ∀ id, (read id).map φ = (read' id).map φ) (ids : List Nat) :
    (ids.filterMap read).map φ = (ids.filterMap read').map φ := by
  rw [List.map_filterMap, List.map_filterMap]
  exact congrArg (List.filterMap · ids) (funext h)

theorem map_bind_congr {α β : Type} {φ : α → β} {read read' : Nat → Option α}
    (h : ∀ id, (read id).map φ = (read' id).map φ) (held : Option Nat) :
    (held.bind read).map φ = (held.bind read').map φ := by
  cases held with
  | none => rfl
  | some id => exact h id

theorem tag?_essence (f : Forest) (id : Nat) :
    (f.essence.tag? id).map Tag.forget = (f.tag? id).map Tag.forget := by
  rw [tag?, tag?, node?_essence]
  rcases f.node? id with _ | ⟨content, _, _⟩
  · rfl
  · cases content <;> rfl

theorem comment?_essence (f : Forest) (id : Nat) :
    (f.essence.comment? id).map Comment.forget = (f.comment? id).map Comment.forget := by
  rw [comment?, comment?, node?_essence]
  rcases f.node? id with _ | ⟨content, _, _⟩
  · rfl
  · cases content <;> rfl

theorem step?_essence (f : Forest) (id : Nat) :
    (f.essence.step? id).map Step.forget = (f.step? id).map Step.forget := by
  rw [step?, step?, node?_essence]
  rcases f.node? id with _ | ⟨content, _, _⟩
  · rfl
  · cases content <;> rfl

theorem example?_essence (f : Forest) (id : Nat) :
    (f.essence.example? id).map Example.essence = (f.example? id).map Example.essence := by
  rw [example?, example?, node?_essence]
  rcases f.node? id with _ | ⟨content, _, _⟩
  · rfl
  · cases content with
    | «example» head rows tags =>
      simp [Node.essence, Content.essence, Example.essence, Example.forget,
        map_filterMap_congr f.tag?_essence tags]
    | _ => rfl

theorem background?_essence (f : Forest) (id : Nat) :
    (f.essence.background? id).map Background.essence =
      (f.background? id).map Background.essence := by
  rw [background?, background?, node?_essence]
  rcases f.node? id with _ | ⟨content, _, _⟩
  · rfl
  · cases content with
    | background head steps =>
      simp [Node.essence, Content.essence, Background.essence,
        map_filterMap_congr f.step?_essence steps]
    | _ => rfl

theorem scenario?_essence (f : Forest) (id : Nat) :
    (f.essence.scenario? id).map (fun s => Scenario.ofSteps s.steps) =
      (f.scenario? id).map fun s => Scenario.ofSteps s.steps := by
  rw [scenario?, scenario?, node?_essence]
  rcases f.node? id with _ | ⟨content, _, _⟩
  · rfl
  · cases content with
    | scenario head steps tags =>
      simp [Node.essence, Content.essence, Scenario.ofSteps,
        map_filterMap_congr f.step?_essence steps]
    | _ => rfl

theorem outline?_essence (f : Forest) (id : Nat) :
    (f.essence.outline? id).map (fun o => Scenario.ofSteps o.steps) =
      (f.outline? id).map fun o => Scenario.ofSteps o.steps := by
  rw [outline?, outline?, node?_essence]
  rcases f.node? id with _ | ⟨content, _, _⟩
  · rfl
  · cases content with
    | outline head steps examples tags =>
      simp [Node.essence, Content.essence, Scenario.ofSteps,
        map_filterMap_congr f.step?_essence steps]
    | _ => rfl

theorem test?_essence (f : Forest) (id : Nat) :
    (f.essence.test? id).map Test.essence = (f.test? id).map Test.essence := by
  have hscenario := congrArg (Option.map Test.scenario) (f.scenario?_essence id)
  have houtline := congrArg (Option.map Test.scenario) (f.outline?_essence id)
  rw [Option.map_map, Option.map_map] at hscenario houtline
  -- a test is read as a scenario if it can be, and as an outline otherwise
  rw [test?, test?, Option.map_or, Option.map_or, Option.map_map, Option.map_map, Option.map_map,
    Option.map_map]
  exact congrArg₂ Option.or hscenario houtline

theorem feature?_essence (f : Forest) (id : Nat) :
    (f.essence.feature? id).map Feature.essence = (f.feature? id).map Feature.essence := by
  rw [feature?, feature?, node?_essence]
  rcases f.node? id with _ | ⟨content, _, _⟩
  · rfl
  · cases content with
    | feature head language first tests tags comments =>
      simp [Node.essence, Content.essence, Feature.essence, Feature.forget,
        map_filterMap_congr f.tag?_essence tags, map_filterMap_congr f.test?_essence tests,
        map_filterMap_congr f.comment?_essence comments, map_bind_congr f.background?_essence first]
    | _ => rfl

theorem featureFile?_essence (f : Forest) (id : Nat) :
    (f.essence.featureFile? id).map FeatureFile.essence =
      (f.featureFile? id).map FeatureFile.essence := by
  rw [featureFile?, featureFile?, node?_essence]
  rcases f.node? id with _ | ⟨content, _, _⟩
  · rfl
  · cases content with
    | featureFile path held =>
      simp [Node.essence, Content.essence, FeatureFile.essence, Path.normal_normal,
        map_bind_congr f.feature?_essence held]
    | _ => rfl

theorem directory?_essence (f : Forest) (depth id : Nat) :
    (f.essence.directory? depth id).map Directory.essence =
      (f.directory? depth id).map Directory.essence := by
  induction depth generalizing id with
  | zero => rfl
  | succ depth ih =>
    rw [directory?, directory?, node?_essence]
    rcases f.node? id with _ | ⟨content, _, _⟩
    · rfl
    · cases content with
      | directory path files directories =>
        simp [Node.essence, Content.essence, Directory.essence, Path.normal_normal,
          Directory.essences_eq_map, map_filterMap_congr f.featureFile?_essence files,
          map_filterMap_congr ih directories]
      | _ => rfl

theorem map_essence_congr {α β : Type} {φ : α → β} {make : α → Element} (rest : β → Element)
    (hmake : ∀ a, (make a).essence = rest (φ a)) {x y : Option α} (h : x.map φ = y.map φ) :
    (x.map make).map Element.essence = (y.map make).map Element.essence := by
  have hfactor : Element.essence ∘ make = rest ∘ φ := funext hmake
  rw [Option.map_map, Option.map_map, hfactor, ← Option.map_map, h, Option.map_map]

/-- What is left of an element does not change when the forest is reduced to what is compared. -/
theorem element?_essence (f : Forest) (id : Nat) :
    (f.essence.element? id).map Element.essence = (f.element? id).map Element.essence := by
  have hlength : f.essence.nodes.length = f.nodes.length := List.length_map _
  rw [element?, element?, kind?_essence, hlength]
  rcases f.kind? id with _ | kind
  · rfl
  · cases kind with
    | directory =>
      exact map_essence_congr .directory (fun _ => rfl) (f.directory?_essence f.nodes.length id)
    | featureFile =>
      exact map_essence_congr .featureFile (fun _ => rfl) (f.featureFile?_essence id)
    | feature => exact map_essence_congr .feature (fun _ => rfl) (f.feature?_essence id)
    | background =>
      exact map_essence_congr (fun b => .scenario { steps := b.steps }) (fun _ => rfl)
        (f.background?_essence id)
    | scenario => exact map_essence_congr .scenario (fun _ => rfl) (f.scenario?_essence id)
    | outline => exact map_essence_congr .scenario (fun _ => rfl) (f.outline?_essence id)
    | «example» => exact map_essence_congr .example (fun _ => rfl) (f.example?_essence id)
    | step => exact map_essence_congr .step (fun _ => rfl) (f.step?_essence id)
    | tag => exact map_essence_congr .tag (fun _ => rfl) (f.tag?_essence id)
    | comment => exact map_essence_congr .comment (fun _ => rfl) (f.comment?_essence id)

/-- Comparing goes by what is left of the elements. -/
theorem compare_congr {x x' y y' : Option Element}
    (hx : x.map Element.essence = x'.map Element.essence)
    (hy : y.map Element.essence = y'.map Element.essence) :
    (x.bind fun a => y.map a.equal) = x'.bind fun a => y'.map a.equal := by
  cases x with
  | none => cases x' with
    | none => rfl
    | some a' => cases hx
  | some a => cases x' with
    | none => cases hx
    | some a' => cases y with
      | none => cases y' with
        | none => rfl
        | some b' => cases hy
      | some b => cases y' with
        | none => cases hy
        | some b' =>
          exact congrArg some (Element.equal_congr (Option.some.inj hx) (Option.some.inj hy))

/-- Forests of which the same is left compare their elements alike. -/
theorem equal?_congr (h : f.essence = g.essence) (i j : Nat) : f.equal? i j = g.equal? i j := by
  have hrest : ∀ id, (f.element? id).map Element.essence = (g.element? id).map Element.essence := by
    intro id
    rw [← element?_essence, h, element?_essence]
  exact compare_congr (hrest i) (hrest j)

end Forest

/-! ### Changes that are not seen -/

/-- The contents agree but for the keyword of a feature or an examples block, the language of a
feature, and all that backgrounds, scenarios and outlines have beside their steps. -/
inductive Content.Redressed : Content → Content → Prop
  | feature (head : Heading) (keyword language language' : Text) (first : Option Nat)
      (tests tags comments : List Nat) :
      Redressed (.feature head language first tests tags comments)
        (.feature { head with keyword } language' first tests tags comments)
  | background (head head' : Heading) (steps : List Nat) :
      Redressed (.background head steps) (.background head' steps)
  | scenario (head head' : Heading) (steps tags tags' : List Nat) :
      Redressed (.scenario head steps tags) (.scenario head' steps tags')
  | outline (head head' : Heading) (steps examples examples' tags tags' : List Nat) :
      Redressed (.outline head steps examples tags) (.outline head' steps examples' tags')
  | example (head : Heading) (keyword : Text) (rows : List (List Text)) (tags : List Nat) :
      Redressed (.example head rows tags) (.example { head with keyword } rows tags)
  | same (c : Content) : Redressed c c

theorem Content.Redressed.essence_eq {c c' : Content} (h : c.Redressed c') :
    c.essence = c'.essence := by
  cases h <;> rfl

namespace Forest

variable {f g : Forest} {id : Nat}

/-- The elements of two forests agree but for what comparisons do not look at: their links, where they
were read from, and what a change of dress may change in their contents. -/
def Redressed (f g : Forest) : Prop :=
  List.Forall₂ (Option.Rel fun n m => n.content.Redressed m.content) f.nodes g.nodes

theorem Redressed.essence_eq (h : f.Redressed g) : f.essence = g.essence := by
  have hplace : ∀ p q : Option Node, Option.Rel (fun n m => n.content.Redressed m.content) p q →
      p.map Node.essence = q.map Node.essence := by
    intro p q hpq
    cases hpq with
    | none => rfl
    | some hcontent => simp [Node.essence, hcontent.essence_eq]
  refine congrArg Forest.mk ?_
  rw [Redressed] at h
  generalize f.nodes = ps at h ⊢
  generalize g.nodes = qs at h ⊢
  induction h with
  | nil => rfl
  | cons hpq _ ih => rw [List.map_cons, List.map_cons, hplace _ _ hpq, ih]

/-- One element may be given another dress at a time. -/
theorem Redressed.modify {change : Node → Node}
    (h : ∀ n, f.node? id = some n → n.content.Redressed (change n).content) :
    f.Redressed (f.modify id change) := by
  have hrefl : ∀ p : Option Node,
      Option.Rel (fun n m => n.content.Redressed m.content) p p := by
    intro p
    cases p with
    | none => exact .none
    | some n => exact .some (.same n.content)
  refine List.forall₂_iff_get.2 ⟨by simp [Forest.modify], fun k hk hk' => ?_⟩
  simp only [Forest.modify, List.get_eq_getElem, List.getElem_modify]
  split
  · next hik =>
    subst hik
    cases hplace : f.nodes[id] with
    | none => exact .none
    | some n =>
      refine .some (h n ?_)
      rw [node?, List.getElem?_eq_getElem hk, hplace]
      rfl
  · exact hrefl _

/-- Comparisons do not see links. -/
theorem equal?_setLink (f : Forest) (id : Nat) (link : Option Nat) (i j : Nat) :
    (f.setLink id link).equal? i j = f.equal? i j := by
  have hlink : f.Redressed (f.setLink id link) := .modify fun n _ => .same n.content
  exact (equal?_congr hlink.essence_eq i j).symm

end Forest

/-- Equality of elements is an equivalence and agrees with the comparisons between the types of
elements, all other pairs being unequal. What is made of steps goes by the sequence of its steps and
is unequal to everything else. Altogether equality is sameness of what is left when links, origins,
the keywords of features and examples blocks, the language of features and all that stands beside
steps are taken away, so no change to these at any depth is seen by any comparison. -/
theorem Element.equal_lawful :
    (Equivalence fun a b : Element => a.equal b = true) ∧
    (∀ a b : Element, a.equal b = (a.ownEqual? b).getD false) ∧
    (∀ s t : Test, s.equal t = s.element.equal t.element) ∧
    (∀ (a b : Element) (s t : List Step), a.steps? = some s → b.steps? = some t →
      (a.equal b ↔ s.map Step.forget = t.map Step.forget)) ∧
    (∀ (a b : Element) (s : List Step), a.steps? = some s → b.steps? = none →
      ¬a.equal b ∧ ¬b.equal a) ∧
    (∀ a b : Element, a.equal b ↔ a.essence = b.essence) ∧
    ∀ f g : Forest, f.Redressed g → ∀ i j, f.equal? i j = g.equal? i j := by
  refine ⟨equal_equivalence, equal_eq_ownEqual?, Test.equal_element,
    fun a b s t hs ht => equal_iff_of_steps? hs ht, fun a b s hs hb => ?_,
    fun a b => equal_iff, fun f g h i j => Forest.equal?_congr h.essence_eq i j⟩
  have hne := not_equal_of_steps? hs hb
  exact ⟨hne, fun h => hne (equal_equivalence.symm h)⟩

/-- A scenario and an outline of one step, a tag, and a feature with that scenario that is put into
another language, renamed below and unlinked. -/
theorem Element.equal_lawful_recast :
    let a := Element.scenario { name := "one".toList, steps := [{ text := "go".toList }] }
    let b := Element.outline
      { name := "two".toList, tags := [{ name := "@t".toList }]
        steps := [{ text := "go".toList, origin := some ⟨[], some 3, .null⟩ }] }
    let t := Element.tag { name := "@t".toList }
    let f : Forest := ⟨[some ⟨.feature { keyword := "Feature".toList } "en".toList none [1] [] [],
        none, none⟩, some ⟨.scenario {} [2] [], some 0, none⟩,
      some ⟨.step "* ".toList "go".toList none, some 1, none⟩]⟩
    let g : Forest := ⟨[some ⟨.feature { keyword := "Egenskap".toList } "sv".toList none [1] [] [],
        none, none⟩, some ⟨.scenario { name := "one".toList } [2] [], none, none⟩,
      some ⟨.step "* ".toList "go".toList none, none, some ⟨[], some 3, .null⟩⟩]⟩
    a.equal b ∧ (¬a.equal t ∧ ¬t.equal a) ∧ f.Redressed g ∧ f.equal? 0 0 = some true ∧
      ∀ i j, f.equal? i j = g.equal? i j := by
  intro a b t f g
  obtain ⟨-, -, -, hsteps, hother, -, hforest⟩ := equal_lawful
  have hdress : f.Redressed g :=
    .cons (.some (.feature _ "Egenskap".toList _ _ _ _ _ _))
      (.cons (.some (.scenario _ _ _ _ _)) (.cons (.some (.same _)) .nil))
  exact ⟨(hsteps a b _ _ rfl rfl).2 rfl, hother a t _ rfl rfl, hdress, by decide +kernel,
    hforest f g hdress⟩

end Gherkin
