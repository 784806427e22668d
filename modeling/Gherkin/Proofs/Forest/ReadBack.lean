import Mathlib.Data.List.Forall2
import Gherkin.Proofs.Forest.Plant

/-! A planted element is read back as it was. Reading looks at contents and origins only, and only at
those of the elements that planting has added; so whatever else happens in the forest, the
element is still read as long as these stay. -/

namespace Gherkin

/-- An element without its link. -/
def Node.body (n : Node) : Content × Option Origin := (n.content, n.origin)

/-- The content with children added one after the other, each of the kind beside it. -/
def Content.insertAll (content : Content) (children : List (Kind × Nat)) : Content :=
  children.foldl (fun c child => c.insert child.1 child.2) content

namespace Forest

variable {f g h : Forest} {lo hi lo' hi' p c id : Nat} {α : Type}

/-! ### Elements that stay -/

/-- The elements with numbers from `lo` on and below `hi` are the same in both forests, but for their
links. -/
def Keeps (f g : Forest) (lo hi : Nat) : Prop :=
  ∀ i, lo ≤ i → i < hi → (g.node? i).map Node.body = (f.node? i).map Node.body

namespace Keeps

theorem refl (f : Forest) (lo hi : Nat) : Keeps f f lo hi := fun _ _ _ => rfl

theorem trans (hfg : Keeps f g lo hi) (hgh : Keeps g h lo hi) : Keeps f h lo hi :=
  fun i hl hh => (hgh i hl hh).trans (hfg i hl hh)

theorem mono (h : Keeps f g lo hi) (hlo : lo ≤ lo') (hhi : hi' ≤ hi) : Keeps f g lo' hi' :=
  fun i hl hh => h i (by omega) (by omega)

theorem of_eq (h : ∀ i, lo ≤ i → i < hi → g.node? i = f.node? i) : Keeps f g lo hi :=
  fun i hl hh => by rw [h i hl hh]

theorem node? {n : Node} (h : Keeps f g lo hi) (hl : lo ≤ id) (hh : id < hi)
    (hn : f.node? id = some n) :
    ∃ link, g.node? id = some { n with link } := by
  have hbody := h id hl hh
  rw [hn] at hbody
  obtain ⟨m, hm, hmn⟩ := Option.map_eq_some_iff.1 hbody
  refine ⟨m.link, hm.trans (congrArg some ?_)⟩
  obtain ⟨hcontent, horigin⟩ := Prod.mk.inj hmn
  cases m
  cases n
  simp_all

/-- Putting a child under an element from before changes nothing about newer ones but links. -/
theorem place (hne : c ≠ p) (hp : p < lo) (k : Kind) (out : Option Nat) :
    Keeps f (f.place p c k out) lo hi := by
  intro i hl _
  have hip : i ≠ p := by omega
  rw [node?_place hne]
  cases f.node? i with
  | none => rfl
  | some n => simp [Node.body, hip]

end Keeps

/-- Planting in this way gives an element that reads as `a`, in every forest that keeps what was
added. -/
def Reads (read : Forest → Nat → Option α) (plant : Forest → Nat × Forest) (a : α) : Prop :=
  ∀ f, f.Sound → ∀ g, Keeps (plant f).2 g f.nodes.length (plant f).2.nodes.length →
    read g (plant f).1 = some a

/-- What is planted in this way reads as it should at `id`. -/
def Shows (g : Forest) (plant : Forest → Nat × Forest) (id : Nat) : Prop :=
  ∀ (α : Type) (read : Forest → Nat → Option α) (a : α), Reads read plant a → read g id = some a

theorem reads_add {n : Node} {read : Forest → Nat → Option α} {a : α}
    (h : ∀ g id link, g.node? id = some { n with link } → read g id = some a) :
    Reads read (fun f => f.add n) a := by
  intro f _ g hg
  have hn : (f.add n).2.node? f.nodes.length = some n := (node?_add f n _).trans (if_pos rfl)
  obtain ⟨link, hlink⟩ := hg.node? (Nat.le_refl _) (by simp [add]) hn
  exact h g _ link hlink

/-! ### An element with children -/

/-- Linking a planted child adds no element. -/
theorem length_planted {n : Node} {k : Kind} {r : Nat × Forest} (h : Host f id n)
    (hp : Planted k f r) :
    ((r.2.insert id k r.1).setLink r.1 (some id)).nodes.length = r.2.nodes.length := by
  have hroot := hp.root
  have hlt : id < f.nodes.length := lt_of_node? h.node
  rw [setLink_insert (by omega), length_place]

/-- What was planted as a child stays as long as later elements leave it alone. -/
theorem Host.keeps_child {n : Node} {k : Kind} {r : Nat × Forest} {g' : Forest} (h : Host f id n)
    (hp : Planted k f r) (hgrow : r.2.nodes.length ≤ g.nodes.length)
    (hold : ∀ i, i < r.2.nodes.length → i ≠ id →
      g.node? i = ((r.2.insert id k r.1).setLink r.1 (some id)).node? i)
    (hg : Keeps g g' f.nodes.length g.nodes.length) :
    Keeps r.2 g' f.nodes.length r.2.nodes.length := by
  have hroot := hp.root
  have hlt : id < f.nodes.length := lt_of_node? h.node
  have hne : r.1 ≠ id := by omega
  have hplace : Keeps r.2 (r.2.place id r.1 k none) f.nodes.length r.2.nodes.length :=
    .place hne hlt k none
  refine (hplace.trans (.of_eq fun i hl hh => ?_)).trans (hg.mono (Nat.le_refl _) hgrow)
  rw [← setLink_insert hne]
  exact hold i hh (by omega)

/-- What planting the children `cs` under an element gives: each child has a number in the element's
collections, and is read under it. -/
theorem Host.children_read {n : Node} (cs : List (Kind × (Forest → Nat × Forest))) (h : Host f id n)
    (hs : Suits n.content.kind cs) (hd : ∀ c ∈ cs, n.content.displaced c.1 = none) :
    let g := cs.foldl (fun f child =>
      ((child.2 f).2.insert id child.1 (child.2 f).1).setLink (child.2 f).1 (some id)) f
    ∃ ids : List Nat,
      g.node? id = some { n with content := n.content.insertAll ((cs.map Prod.fst).zip ids) } ∧
      f.nodes.length ≤ g.nodes.length ∧
      List.Forall₂ (fun child i => ∀ g', Keeps g g' f.nodes.length g.nodes.length →
        Shows g' child.2 i) cs ids := by
  induction cs generalizing f n with
  | nil => exact ⟨[], h.node, Nat.le_refl _, .nil⟩
  | cons child cs ih =>
    obtain ⟨hc, hcs⟩ := List.forall_mem_cons.1 hs.each
    obtain ⟨hdc, hdcs⟩ := List.forall_mem_cons.1 hd
    obtain ⟨hfc, hfcs⟩ := List.pairwise_cons.1 hs.fits
    obtain ⟨hhost, hlen, -⟩ := h.child (hc.2 f h.sound) hc.1 hdc
    have hsuits : Suits (n.content.insert child.1 (child.2 f).1).kind cs :=
      ⟨fun x hx => by rw [Content.kind_insert]; exact hcs x hx, hfcs⟩
    have hroom : ∀ x ∈ cs, (n.content.insert child.1 (child.2 f).1).displaced x.1 = none :=
      fun x hx => Content.displaced_insert _ _ (hdcs x hx) (hfc x hx)
    obtain ⟨ids, hnode, hgrow, hids⟩ := ih hhost hsuits hroom
    obtain ⟨-, -, -, -, hold⟩ := hhost.children cs hsuits.each hsuits.fits hroom
    have hlength : _ = (child.2 f).2.nodes.length := length_planted h (hc.2 f h.sound)
    refine ⟨(child.2 f).1 :: ids, hnode, Nat.le_trans (Nat.le_of_lt hlen) hgrow, .cons ?_ ?_⟩
    · intro g' hg' α read a hread
      refine hread f h.sound g' (h.keeps_child (hc.2 f h.sound) (hlength ▸ hgrow) ?_ hg')
      exact fun i hi hii => hold i (hlength ▸ hi) hii
    · exact hids.imp fun _ _ hshow g' hg' =>
        hshow g' (hg'.mono (Nat.le_of_lt hlen) (Nat.le_refl _))

/-- An element with children reads as `a` if it does whenever its children are read under the numbers
that they have in it. -/
theorem reads_plantWith {n : Node} {cs : List (Kind × (Forest → Nat × Forest))}
    {read : Forest → Nat → Option α} {a : α} (hc : n.content.children = []) (hl : n.link = none)
    (hs : Suits n.content.kind cs)
    (hread : ∀ (g : Forest) (id : Nat) (link : Option Nat) (ids : List Nat),
      g.node? id =
        some { n with content := n.content.insertAll ((cs.map Prod.fst).zip ids), link } →
      List.Forall₂ (fun child i => Shows g child.2 i) cs ids → read g id = some a) :
    Reads read (fun f => f.plantWith true n cs) a := by
  intro f hf g hg
  have hhost : Host (f.add n).2 f.nodes.length n :=
    ⟨hf.add hc hl, by simp [node?_add], hl⟩
  obtain ⟨ids, hnode, hgrow, hids⟩ := hhost.children_read cs hs
    fun c _ => Content.displaced_of_children_eq_nil hc c.1
  have hadd : (f.add n).2.nodes.length = f.nodes.length + 1 := by simp [add]
  obtain ⟨link, hlink⟩ := hg.node? (Nat.le_refl _) (Nat.lt_of_lt_of_le (by omega) hgrow) hnode
  refine hread g _ link ids hlink (hids.imp fun _ _ hshow => hshow g ?_)
  exact hg.mono (by omega) (Nat.le_refl _)

/-! ### Collections -/

/-- Children that all go to the end of one collection. -/
theorem insertAll_zip (make : List Nat → Content) {cs : List (Kind × (Forest → Nat × Forest))}
    {ids : List Nat} (h : List.Forall₂ (fun child i => Shows g child.2 i) cs ids)
    (hmake : ∀ c ∈ cs, ∀ held i, (make held).insert c.1 i = make (held ++ [i])) (held : List Nat) :
    (make held).insertAll ((cs.map Prod.fst).zip ids) = make (held ++ ids) := by
  induction h generalizing held with
  | nil => simp [Content.insertAll]
  | @cons c i cs ids _ _ ih =>
    obtain ⟨hc, hcs⟩ := List.forall_mem_cons.1 hmake
    have hmore := ih hcs (held ++ [i])
    rw [List.append_assoc, List.singleton_append] at hmore
    rw [← hmore, Content.insertAll, List.map_cons, List.zip_cons_cons, List.foldl_cons, hc]
    rfl

/-- The numbers of a sequence of children are those of its parts. -/
theorem exists_append_of_shows {as bs : List (Kind × (Forest → Nat × Forest))} {ids : List Nat}
    (h : List.Forall₂ (fun child i => Shows g child.2 i) (as ++ bs) ids) :
    ∃ is js, List.Forall₂ (fun child i => Shows g child.2 i) as is ∧
      List.Forall₂ (fun child i => Shows g child.2 i) bs js ∧ ids = is ++ js ∧
      ∀ content : Content, content.insertAll (((as ++ bs).map Prod.fst).zip ids) =
        (content.insertAll ((as.map Prod.fst).zip is)).insertAll ((bs.map Prod.fst).zip js) := by
  induction as generalizing ids with
  | nil => exact ⟨[], ids, .nil, h, rfl, fun _ => rfl⟩
  | cons a as ih =>
    obtain ⟨i, ids, hi, hids, rfl⟩ := List.forall₂_cons_left_iff.1 h
    obtain ⟨is, js, his, hjs, rfl, hinsert⟩ := ih hids
    refine ⟨i :: is, js, .cons hi his, hjs, rfl, fun content => ?_⟩
    exact hinsert (content.insert a.1 i)

theorem filterMap_of_shows {β : Type} {read : Forest → Nat → Option β}
    {child : β → Kind × (Forest → Nat × Forest)} (hread : ∀ b, Reads read (child b).2 b)
    {bs : List β} {ids : List Nat}
    (h : List.Forall₂ (fun child i => Shows g child.2 i) (bs.map child) ids) :
    ids.filterMap (read g) = bs := by
  induction bs generalizing ids with
  | nil => cases h; rfl
  | cons b bs ih =>
    obtain ⟨i, ids, hi, hids, rfl⟩ := List.forall₂_cons_left_iff.1 h
    rw [List.filterMap_cons, hi β read b (hread b), ih hids]

/-- A child that there is room for only once. -/
theorem insertAll_option {β : Type} {read : Forest → Nat → Option β} {k : Kind}
    {plant : β → Forest → Nat × Forest} (hread : ∀ b, Reads read (plant b) b)
    (make : Option Nat → Content) (hmake : ∀ id, (make none).insert k id = make (some id))
    {o : Option β} {ids : List Nat}
    (h : List.Forall₂ (fun child i => Shows g child.2 i)
      (o.map fun b => (k, plant b)).toList ids) :
    ∃ i : Option Nat, i.bind (read g) = o ∧ (make none).insertAll
      (((o.map fun b => (k, plant b)).toList.map Prod.fst).zip ids) = make i := by
  cases o with
  | none =>
    cases h
    exact ⟨none, rfl, rfl⟩
  | some b =>
    obtain ⟨i, ids, hi, hids, rfl⟩ := List.forall₂_cons_left_iff.1 h
    cases hids
    exact ⟨some i, hi β read b (hread b), hmake i⟩

/-! ### Every kind of element -/

theorem reads_tag (t : Tag) : Reads tag? (plantTag t) t :=
  reads_add fun g id link h => by rw [tag?, h]

theorem reads_comment (c : Comment) : Reads comment? (plantComment c) c :=
  reads_add fun g id link h => by rw [comment?, h]

theorem reads_step (s : Step) : Reads step? (plantStep s) s :=
  reads_add fun g id link h => by rw [step?, h]

theorem reads_example (e : Example) : Reads example? (plantExample true e) e := by
  refine reads_plantWith (n := ⟨.example e.toHeading e.rows [], none, e.origin⟩) rfl rfl
    (suits_tags rfl e.tags) fun g id link ids hnode hids => ?_
  rw [insertAll_zip (.example e.toHeading e.rows) hids (by simp [Content.insert])] at hnode
  rw [example?, hnode]
  simp [filterMap_of_shows reads_tag hids]

theorem reads_background (b : Background) : Reads background? (plantBackground true b) b := by
  refine reads_plantWith (n := ⟨.background b.toHeading [], none, b.origin⟩) rfl rfl
    (suits_steps rfl b.steps) fun g id link ids hnode hids => ?_
  rw [insertAll_zip (.background b.toHeading) hids (by simp [Content.insert])] at hnode
  rw [background?, hnode]
  simp [filterMap_of_shows reads_step hids]

theorem reads_scenario (e : Scenario) : Reads scenario? (plantScenario true e) e := by
  refine reads_plantWith (n := ⟨.scenario e.toHeading [] [], none, e.origin⟩) rfl rfl
    (suits_scenario e) fun g id link ids hnode hids => ?_
  obtain ⟨steps, tags, hsteps, htags, rfl, hinsert⟩ := exists_append_of_shows hids
  rw [hinsert, insertAll_zip (.scenario e.toHeading · []) hsteps
      (by simp [Content.insert]), List.nil_append,
    insertAll_zip (.scenario e.toHeading steps) htags (by simp [Content.insert])] at hnode
  rw [scenario?, hnode]
  simp [filterMap_of_shows reads_step hsteps, filterMap_of_shows reads_tag htags]

theorem reads_outline (o : Outline) : Reads outline? (plantOutline true o) o := by
  refine reads_plantWith (n := ⟨.outline o.toHeading [] [] [], none, o.origin⟩) rfl rfl
    (suits_outline o) fun g id link ids hnode hids => ?_
  obtain ⟨front, tags, hfront, htags, rfl, hlast⟩ := exists_append_of_shows hids
  obtain ⟨steps, examples, hsteps, hexamples, rfl, hfirst⟩ := exists_append_of_shows hfront
  rw [hlast, hfirst, insertAll_zip (.outline o.toHeading · [] []) hsteps
      (by simp [Content.insert]), List.nil_append,
    insertAll_zip (.outline o.toHeading steps · []) hexamples (by simp [Content.insert]),
    List.nil_append,
    insertAll_zip (.outline o.toHeading steps examples) htags
      (by simp [Content.insert])] at hnode
  rw [outline?, hnode]
  simp [filterMap_of_shows reads_step hsteps, filterMap_of_shows reads_example hexamples,
    filterMap_of_shows reads_tag htags]

theorem reads_test (t : Test) : Reads test? (testChild true t).2 t := by
  intro f hf g hg
  cases t with
  | scenario e =>
    have hread : g.scenario? ((testChild true (.scenario e)).2 f).1 = some e :=
      reads_scenario e f hf g hg
    rw [test?, hread]
    rfl
  | outline o =>
    have hread : g.outline? ((testChild true (.outline o)).2 f).1 = some o :=
      reads_outline o f hf g hg
    -- an outline is no scenario
    have hnone : g.scenario? ((testChild true (.outline o)).2 f).1 = none := by
      unfold outline? at hread
      split at hread
      · next hnode => rw [scenario?, hnode]
      · cases hread
    rw [test?, hread, hnone]
    rfl

theorem reads_feature (e : Feature) : Reads feature? (plantFeature true e) e := by
  refine reads_plantWith
    (n := ⟨.feature e.toHeading e.language none [] [] [], none, e.origin⟩) rfl rfl
    (suits_feature e) fun g id link ids hnode hids => ?_
  obtain ⟨blocks, comments, hblocks, hcomments, rfl, hlast⟩ := exists_append_of_shows hids
  obtain ⟨front, tags, hfront, htags, rfl, hnext⟩ := exists_append_of_shows hblocks
  obtain ⟨start, tests, hstart, htests, rfl, hfirst⟩ := exists_append_of_shows hfront
  obtain ⟨first, hbackground, hplace⟩ := insertAll_option reads_background
    (.feature e.toHeading e.language · [] [] []) (fun _ => rfl) hstart
  have hmake : ∀ c ∈ e.tests.map (testChild true), ∀ held i,
      (Content.feature e.toHeading e.language first held [] []).insert c.1 i =
        .feature e.toHeading e.language first (held ++ [i]) [] [] := by
    intro c hc held i
    obtain ⟨t, -, rfl⟩ := List.mem_map.1 hc
    cases t <;> rfl
  rw [hlast, hnext, hfirst, hplace,
    insertAll_zip (.feature e.toHeading e.language first · [] []) htests hmake,
    List.nil_append, insertAll_zip (.feature e.toHeading e.language first tests · [])
      htags (by simp [Content.insert]), List.nil_append,
    insertAll_zip (.feature e.toHeading e.language first tests tags) hcomments
      (by simp [Content.insert])] at hnode
  rw [feature?, hnode]
  simp [filterMap_of_shows reads_test htests, filterMap_of_shows reads_tag htags,
    filterMap_of_shows reads_comment hcomments, hbackground]

theorem reads_featureFile (e : FeatureFile) : Reads featureFile? (plantFeatureFile true e) e := by
  refine reads_plantWith (n := ⟨.featureFile e.path none, none, none⟩) rfl rfl
    (suits_featureFile e) fun g id link ids hnode hids => ?_
  obtain ⟨held, hfeature, hplace⟩ := insertAll_option reads_feature (.featureFile e.path)
    (fun _ => rfl) hids
  rw [hplace] at hnode
  rw [featureFile?, hnode]
  simp [hfeature]

end Forest

end Gherkin
