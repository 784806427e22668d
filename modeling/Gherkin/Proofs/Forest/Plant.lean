import Gherkin.Forest.Plant
import Gherkin.Proofs.Forest.Attach

/-! Planting a whole element keeps a forest sound. A planted element is new, has no parent, and
leaves the elements that were there alone; so each child, planted in its turn, can be put under
the element that it belongs to. The children of one element hold at most one of each kind that
has a single place. -/

namespace Gherkin

variable {f g : Forest} {p c id : Nat}

/-- Whether an element has room for only one child of the kind. -/
def Kind.single : Kind → Bool
  | .feature | .background => true
  | _ => false

namespace Content

theorem kind_insert (content : Content) (k : Kind) (child : Nat) :
    (content.insert k child).kind = content.kind := by
  cases content <;> cases k <;> rfl

theorem displaced_eq_none_of_not_single (content : Content) {k : Kind} (h : k.single = false) :
    content.displaced k = none := by
  cases content <;> cases k <;> first | rfl | simp [Kind.single] at h

/-- A child takes the single place of its own kind only. -/
theorem displaced_insert (content : Content) {k k' : Kind} (child : Nat)
    (h : content.displaced k' = none) (hne : k = k' → k.single = false) :
    (content.insert k child).displaced k' = none := by
  by_cases hs : k'.single
  · have hkk : k ≠ k' := fun e => by simp [← e, hne e] at hs
    have hk' : k' = .feature ∨ k' = .background := by cases k' <;> simp_all [Kind.single]
    rcases hk' with rfl | rfl
    · cases content <;> cases k <;> first | exact h | rfl | exact absurd rfl hkk
    · cases content <;> cases k <;> first | exact h | rfl | exact absurd rfl hkk
  · exact displaced_eq_none_of_not_single _ (by simpa using hs)

theorem displaced_of_children_eq_nil {content : Content} (h : content.children = []) (k : Kind) :
    content.displaced k = none := by
  cases content <;> cases k <;> simp_all [children, displaced]

end Content

namespace Forest

/-- The result of planting an element of kind `k` in `f`: a new element without a parent, and a sound
forest in which the older elements are as they were. -/
structure Planted (k : Kind) (f : Forest) (r : Nat × Forest) : Prop where
  root : r.1 = f.nodes.length
  fresh : ∃ n, r.2.node? r.1 = some n ∧ n.content.kind = k ∧ n.link = none
  older : ∀ i, i < f.nodes.length → r.2.node? i = f.node? i
  grows : f.nodes.length < r.2.nodes.length
  sound : r.2.Sound

/-- Planting in this way works in every sound forest. -/
def Plants (k : Kind) (plant : Forest → Nat × Forest) : Prop :=
  ∀ f, f.Sound → Planted k f (plant f)

/-! ### One element -/

theorem node?_add (f : Forest) (n : Node) (j : Nat) :
    (f.add n).2.node? j = if j = f.nodes.length then some n else f.node? j := by
  simp only [add, node?]
  rcases Nat.lt_trichotomy j f.nodes.length with h | h | h
  · rw [List.getElem?_append_left h, if_neg (Nat.ne_of_lt h)]
  · simp [h]
  · rw [if_neg (Nat.ne_of_gt h), List.getElem?_eq_none (by simp; omega),
      List.getElem?_eq_none (by omega)]

/-- No link leads to the number that comes next. -/
theorem Sound.parent?_add (h : f.Sound) {n : Node} (hl : n.link = none) (j : Nat) :
    (f.add n).2.parent? j = f.parent? j := by
  simp only [parent?, node?_add]
  split_ifs with hj
  · have hnone : f.node? f.nodes.length = none := by simp [node?]
    simp [hj, hl, hnone]
  · cases hn : f.node? j with
    | none => simp
    | some m =>
      cases hm : m.link with
      | none => simp [hm]
      | some q =>
        have hq : q ≠ f.nodes.length := Nat.ne_of_lt (h.bounded hn hm)
        simp [hm, hq, Option.filter]

theorem children_add {n : Node} (hc : n.content.children = []) (j : Nat) :
    (f.add n).2.children j = f.children j := by
  simp only [Forest.children, node?_add]
  split_ifs with hj
  · have hnone : f.node? f.nodes.length = none := by simp [node?]
    simp [hj, hc, hnone]
  · rfl

theorem Sound.add (h : f.Sound) {n : Node} (hc : n.content.children = []) (hl : n.link = none) :
    (f.add n).2.Sound := by
  refine h.congr (children_add hc) (h.parent?_add hl) ?_
  intro j m q hm hq
  rw [node?_add] at hm
  simp only [Forest.add, List.length_append, List.length_singleton]
  split_ifs at hm
  · obtain rfl := Option.some.inj hm
    rw [hl] at hq
    cases hq
  · exact Nat.lt_succ_of_lt (h.bounded hm hq)

theorem plants_add {n : Node} (hc : n.content.children = []) (hl : n.link = none) :
    Plants n.content.kind (fun f => f.add n) := by
  intro f h
  refine ⟨rfl, ⟨n, (node?_add f n _).trans (if_pos rfl), rfl, hl⟩, ?_,
    by simp [add], h.add hc hl⟩
  intro i hi
  rw [node?_add, if_neg (Nat.ne_of_lt hi)]

/-! ### An element with children -/

/-- Filling a collection and linking the child come to the same as attaching it, when nothing is
displaced. -/
theorem setLink_insert (hne : c ≠ p) (k : Kind) :
    (f.insert p k c).setLink c (some p) = f.place p c k none := by
  simp only [place, insert, setLink, modify]
  rw [List.modify_modify_ne _ _ _ hne]

/-- The element under which children are planted. -/
structure Host (f : Forest) (id : Nat) (n : Node) : Prop where
  sound : f.Sound
  node : f.node? id = some n
  free : n.link = none

/-- One child, planted and put under its host. -/
theorem Host.child {n : Node} {k : Kind} {r : Nat × Forest} (h : Host f id n) (hp : Planted k f r)
    (hk : n.content.kind.accepts k) (hd : n.content.displaced k = none) :
    let g := (r.2.insert id k r.1).setLink r.1 (some id)
    Host g id { n with content := n.content.insert k r.1 } ∧
      f.nodes.length < g.nodes.length ∧ ∀ i, i < f.nodes.length → i ≠ id → g.node? i = f.node? i := by
  obtain ⟨root, ⟨m, hm, hkind, hlink⟩, older, grows, sound⟩ := hp
  have hlt : id < f.nodes.length := lt_of_node? h.node
  have hne : r.1 ≠ id := by omega
  have hid : r.2.node? id = some n := by rw [older id hlt, h.node]
  have hfree : r.2.parent? r.1 = none := by simp [parent?, hm, hlink]
  have htop : r.2.parent? id = none := by simp [parent?, hid, h.free]
  simp only [setLink_insert hne]
  refine ⟨⟨?_, ?_, h.free⟩, by rw [length_place]; exact grows, ?_⟩
  · rw [← hd]
    refine sound.place hid (by simp [hm]) hk hfree ?_
    -- the host has no parent, so nothing holds it
    intro hup
    rcases Relation.reflTransGen_iff_eq_or_transGen.1 hup with heq | hup
    · exact hne heq.symm
    · obtain ⟨q, -, hq⟩ := Relation.TransGen.tail'_iff.1 hup
      rw [sound.linked hq] at htop
      cases htop
  · rw [node?_place hne, hid]
    simp [Ne.symm hne]
  · intro i hi hii
    rw [node?_place hne, older i hi]
    have hic : i ≠ r.1 := by omega
    simp [hic, hii]

/-- Children to be planted under one element: kinds with a single place do not come twice. -/
def Fits (children : List (Kind × (Forest → Nat × Forest))) : Prop :=
  children.Pairwise fun a b => a.1 = b.1 → a.1.single = false

theorem Host.children {n : Node} (cs : List (Kind × (Forest → Nat × Forest))) (h : Host f id n)
    (hp : ∀ c ∈ cs, n.content.kind.accepts c.1 ∧ Plants c.1 c.2) (hf : Fits cs)
    (hd : ∀ c ∈ cs, n.content.displaced c.1 = none) :
    let g := cs.foldl (fun f child =>
      ((child.2 f).2.insert id child.1 (child.2 f).1).setLink (child.2 f).1 (some id)) f
    ∃ m, Host g id m ∧ m.content.kind = n.content.kind ∧ f.nodes.length ≤ g.nodes.length ∧
      ∀ i, i < f.nodes.length → i ≠ id → g.node? i = f.node? i := by
  induction cs generalizing f n with
  | nil => exact ⟨n, h, rfl, Nat.le_refl _, fun _ _ _ => rfl⟩
  | cons c cs ih =>
    obtain ⟨hc, hcs⟩ := List.forall_mem_cons.1 hp
    obtain ⟨hdc, hdcs⟩ := List.forall_mem_cons.1 hd
    obtain ⟨hfc, hfcs⟩ := List.pairwise_cons.1 hf
    obtain ⟨hhost, hlen, hold⟩ := h.child (hc.2 f h.sound) hc.1 hdc
    obtain ⟨m, hm, hkind, hlen', hold'⟩ := ih hhost
      (fun x hx => by rw [Content.kind_insert]; exact hcs x hx) hfcs
      (fun x hx => Content.displaced_insert _ _ (hdcs x hx) (hfc x hx))
    refine ⟨m, hm, by rw [hkind, Content.kind_insert], by
      simp only [List.foldl_cons]
      omega, ?_⟩
    intro i hi hid
    rw [List.foldl_cons, hold' i (by omega) hid, hold i hi hid]

/-- Children that can be planted one after the other under an element of a kind. -/
structure Suits (kind : Kind) (cs : List (Kind × (Forest → Nat × Forest))) : Prop where
  each : ∀ c ∈ cs, kind.accepts c.1 ∧ Plants c.1 c.2
  fits : Fits cs

theorem plants_plantWith {n : Node} {cs : List (Kind × (Forest → Nat × Forest))}
    (hc : n.content.children = []) (hl : n.link = none) (hs : Suits n.content.kind cs) :
    Plants n.content.kind (fun f => f.plantWith true n cs) := by
  intro f h
  have hhost : Host (f.add n).2 f.nodes.length n :=
    ⟨h.add hc hl, by simp [node?_add], hl⟩
  obtain ⟨m, hm, hkind, hlen, hold⟩ := hhost.children cs hs.each hs.fits
    fun c _ => Content.displaced_of_children_eq_nil hc c.1
  have hadd : (f.add n).2.nodes.length = f.nodes.length + 1 := by simp [add]
  refine ⟨rfl, ⟨m, hm.node, hkind, hm.free⟩, ?_, Nat.lt_of_lt_of_le (by omega) hlen, hm.sound⟩
  intro i hi
  refine (hold i (by omega) (Nat.ne_of_lt hi)).trans ?_
  rw [node?_add, if_neg (Nat.ne_of_lt hi)]

/-! ### Every kind of element -/

theorem fits_of_not_single {cs : List (Kind × (Forest → Nat × Forest))}
    (h : ∀ c ∈ cs, c.1.single = false) : Fits cs :=
  List.Pairwise.imp_of_mem (fun ha _ _ _ => h _ ha) (List.pairwise_of_forall fun _ _ => trivial)

theorem fits_option {o : Option (Kind × (Forest → Nat × Forest))}
    {cs : List (Kind × (Forest → Nat × Forest))} (h : ∀ c ∈ cs, c.1.single = false) :
    Fits (o.toList ++ cs) := by
  cases o with
  | none => exact fits_of_not_single h
  | some c =>
    exact List.pairwise_cons.2 ⟨fun d hd e => e ▸ h d hd, fits_of_not_single h⟩

theorem plants_tag (t : Tag) : Plants .tag (plantTag t) :=
  plants_add (n := ⟨.tag t.name, none, t.origin⟩) rfl rfl

theorem plants_comment (c : Comment) : Plants .comment (plantComment c) :=
  plants_add (n := ⟨.comment c.text, none, c.origin⟩) rfl rfl

theorem plants_step (s : Step) : Plants .step (plantStep s) :=
  plants_add (n := ⟨.step s.keyword s.text s.block, none, s.origin⟩) rfl rfl

theorem suits_tags {kind : Kind} (h : kind.accepts .tag) (tags : List Tag) :
    Suits kind (tags.map fun t => (.tag, plantTag t)) :=
  ⟨List.forall_mem_map.2 fun t _ => ⟨h, plants_tag t⟩,
    fits_of_not_single (List.forall_mem_map.2 fun _ _ => rfl)⟩

theorem suits_steps {kind : Kind} (h : kind.accepts .step) (steps : List Step) :
    Suits kind (steps.map fun s => (.step, plantStep s)) :=
  ⟨List.forall_mem_map.2 fun s _ => ⟨h, plants_step s⟩,
    fits_of_not_single (List.forall_mem_map.2 fun _ _ => rfl)⟩

theorem plants_example (e : Example) : Plants .example (plantExample true e) :=
  plants_plantWith (n := ⟨.example e.toHeading e.rows [], none, e.origin⟩) rfl rfl
    (suits_tags rfl e.tags)

theorem plants_background (b : Background) : Plants .background (plantBackground true b) :=
  plants_plantWith (n := ⟨.background b.toHeading [], none, b.origin⟩) rfl rfl
    (suits_steps rfl b.steps)

theorem suits_scenario (e : Scenario) : Suits .scenario
    (e.steps.map (fun s => (.step, plantStep s)) ++ e.tags.map (fun t => (.tag, plantTag t))) := by
  constructor
  · simp only [List.forall_mem_append, List.forall_mem_map]
    exact ⟨fun s _ => ⟨rfl, plants_step s⟩, fun t _ => ⟨rfl, plants_tag t⟩⟩
  · refine fits_of_not_single ?_
    simp only [List.forall_mem_append, List.forall_mem_map]
    exact ⟨fun _ _ => rfl, fun _ _ => rfl⟩

theorem plants_scenario (e : Scenario) : Plants .scenario (plantScenario true e) :=
  plants_plantWith (n := ⟨.scenario e.toHeading [] [], none, e.origin⟩) rfl rfl (suits_scenario e)

theorem suits_outline (o : Outline) : Suits .outline
    (o.steps.map (fun s => (.step, plantStep s)) ++
      o.examples.map (fun e => (.example, plantExample true e)) ++
      o.tags.map (fun t => (.tag, plantTag t))) := by
  constructor
  · simp only [List.forall_mem_append, List.forall_mem_map]
    exact ⟨⟨fun s _ => ⟨rfl, plants_step s⟩, fun e _ => ⟨rfl, plants_example e⟩⟩,
      fun t _ => ⟨rfl, plants_tag t⟩⟩
  · refine fits_of_not_single ?_
    simp only [List.forall_mem_append, List.forall_mem_map]
    exact ⟨⟨fun _ _ => rfl, fun _ _ => rfl⟩, fun _ _ => rfl⟩

theorem plants_outline (o : Outline) : Plants .outline (plantOutline true o) :=
  plants_plantWith (n := ⟨.outline o.toHeading [] [] [], none, o.origin⟩) rfl rfl (suits_outline o)

theorem plants_test (t : Test) : Plants (testChild true t).1 (testChild true t).2 := by
  cases t with
  | scenario e => exact plants_scenario e
  | outline o => exact plants_outline o

theorem suits_feature (e : Feature) : Suits .feature
    ((e.background.map fun b => (.background, plantBackground true b)).toList ++
      e.tests.map (testChild true) ++ e.tags.map (fun t => (.tag, plantTag t)) ++
      e.comments.map (fun c => (.comment, plantComment c))) := by
  constructor
  · simp only [List.forall_mem_append, List.forall_mem_map, Option.mem_toList, Option.map_eq_some_iff]
    refine ⟨⟨⟨?_, fun t _ => ⟨by cases t <;> rfl, plants_test t⟩⟩,
      fun t _ => ⟨rfl, plants_tag t⟩⟩, fun c _ => ⟨rfl, plants_comment c⟩⟩
    rintro _ ⟨b, -, rfl⟩
    exact ⟨rfl, plants_background b⟩
  · rw [List.append_assoc, List.append_assoc]
    refine fits_option ?_
    simp only [List.forall_mem_append, List.forall_mem_map]
    exact ⟨fun t _ => by cases t <;> rfl, fun _ _ => rfl, fun _ _ => rfl⟩

theorem plants_feature (e : Feature) : Plants .feature (plantFeature true e) :=
  plants_plantWith (n := ⟨.feature e.toHeading e.language none [] [] [], none, e.origin⟩) rfl rfl
    (suits_feature e)

theorem suits_featureFile (e : FeatureFile) :
    Suits .featureFile (e.feature.map fun e => (.feature, plantFeature true e)).toList := by
  constructor
  · simp only [Option.mem_toList, Option.map_eq_some_iff]
    rintro _ ⟨b, -, rfl⟩
    exact ⟨rfl, plants_feature b⟩
  · have hfits : Fits ((e.feature.map fun e => (Kind.feature, plantFeature true e)).toList ++ []) :=
      fits_option (by simp)
    simpa using hfits

theorem plants_featureFile (e : FeatureFile) : Plants .featureFile (plantFeatureFile true e) :=
  plants_plantWith (n := ⟨.featureFile e.path none, none, none⟩) rfl rfl (suits_featureFile e)

mutual

theorem plants_directory : ∀ d : Directory, Plants .directory (plantDirectory true d)
  | .mk path files directories => by
    intro f hf
    rw [plantDirectory]
    refine plants_plantWith (n := ⟨.directory path [] [], none, none⟩) rfl rfl ⟨?_, ?_⟩ f hf
    · simp only [List.forall_mem_append, List.forall_mem_map]
      refine ⟨fun e _ => ⟨rfl, plants_featureFile e⟩, fun c hc => ?_⟩
      obtain ⟨hkind, hplants⟩ := plants_directoryChildren directories c hc
      exact ⟨by rw [hkind]; rfl, by rw [hkind]; exact hplants⟩
    · refine fits_of_not_single ?_
      simp only [List.forall_mem_append, List.forall_mem_map]
      refine ⟨fun _ _ => rfl, fun c hc => ?_⟩
      rw [(plants_directoryChildren directories c hc).1]
      rfl

theorem plants_directoryChildren : ∀ (ds : List Directory),
    ∀ c ∈ directoryChildren true ds, c.1 = .directory ∧ Plants .directory c.2
  | [] => by simp [directoryChildren]
  | d :: ds => by
    rw [directoryChildren]
    exact List.forall_mem_cons.2 ⟨⟨rfl, plants_directory d⟩, plants_directoryChildren ds⟩

end

/-- Planting an element with its links keeps a forest sound. -/
theorem Sound.plant (h : f.Sound) (e : Element) : (f.plant true e).2.Sound := by
  cases e with
  | directory d => exact (plants_directory d f h).sound
  | featureFile e => exact (plants_featureFile e f h).sound
  | feature e => exact (plants_feature e f h).sound
  | background b => exact (plants_background b f h).sound
  | scenario e => exact (plants_scenario e f h).sound
  | outline o => exact (plants_outline o f h).sound
  | «example» e => exact (plants_example e f h).sound
  | step s => exact (plants_step s f h).sound
  | tag t => exact (plants_tag t f h).sound
  | comment c => exact (plants_comment c f h).sound

end Forest

end Gherkin
