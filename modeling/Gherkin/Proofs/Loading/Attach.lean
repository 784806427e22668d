import Gherkin.Forest.Load
import Gherkin.Proofs.Forest.ReadBack
import Gherkin.Proofs.Loading.Mirror

/-! Loading into a forest. No attachment that the loader makes is ever refused: what it attaches is
new, so it has no parent, and the directory that it attaches to is still without one. The outcome
is that of loading without a forest, with every element linked to the one that holds it. -/

namespace Gherkin

open Forest

namespace Loader

variable {l : Loader} {code path : Text} {f g : Forest} {top : Nat} {n : Node}

/-- A new directory without a parent, which reads as `d` in every forest that keeps what was added. -/
structure Grown (f : Forest) (p : Nat × Forest) (d : Directory) : Prop where
  planted : Planted .directory f p
  reads : ∀ g depth, Keeps p.2 g f.nodes.length p.2.nodes.length →
    p.2.nodes.length - f.nodes.length ≤ depth → g.directory? depth p.1 = some d

/-- What loading an entry in `f` gives: nothing for a skipped entry, and else a new element that is
read as the item in every forest that keeps what was added. -/
def Given (f : Forest) (r : Option Nat × Forest) : Item → Prop
  | .skipped => r = (none, f)
  | .file e => ∃ p, r = (some p.1, p.2) ∧ Planted .featureFile f p ∧
      ∀ g, Keeps p.2 g f.nodes.length p.2.nodes.length → g.featureFile? p.1 = some e
  | .directory d => ∃ p, r = (some p.1, p.2) ∧ Grown f p d

/-- Loading an entry into a forest has the same outcome as loading it alone. -/
def Follows (planter : Planter) (outcome : Except LoadError Item) : Prop :=
  ∀ f, f.Sound → match outcome with
    | .error e => planter f = .error (.load e)
    | .ok item => ∃ r, planter f = .ok r ∧ Given f r item

/-! ### One entry -/

/-- A new element without a parent can be attached to an element that has none. -/
theorem attach_host {k : Kind} {r : Nat × Forest} (h : Host f top n) (hp : Planted k f r)
    (hk : n.content.kind.accepts k) (hd : n.content.displaced k = none) :
    r.2.attach top r.1 = .ok ((r.2.insert top k r.1).setLink r.1 (some top)) := by
  obtain ⟨root, ⟨m, hm, hkind, hlink⟩, older, grows, sound⟩ := hp
  have hlt : top < f.nodes.length := lt_of_node? h.node
  have hne : r.1 ≠ top := by omega
  have htop : r.2.node? top = some n := by rw [older top hlt, h.node]
  have hfree : r.2.parent? r.1 = none := by simp [parent?, hm, hlink]
  have hnone : r.2.ancestors top = [] := by
    have hparent : r.2.parent? top = none := by simp [parent?, htop, h.free]
    rw [ancestors, hparent]
    cases r.2.nodes.length <;> rfl
  rw [setLink_insert hne]
  simp [attach, htop, hm, hkind, hk, hfree, hnone, hne, hd]

theorem attachEach_some {k : Kind} {r : Nat × Forest} {planter : Planter} (h : Host f top n)
    (hr : planter f = .ok (some r.1, r.2)) (hp : Planted k f r) (hk : n.content.kind.accepts k)
    (hd : n.content.displaced k = none) (rest : List Planter) :
    attachEach top (planter :: rest) f =
      attachEach top rest ((r.2.insert top k r.1).setLink r.1 (some top)) := by
  rw [attachEach, hr]
  simp only [attach_host h hp hk hd]

/-! ### All entries of a directory -/

/-- What a directory is in a forest once its entries have been attached: it is still without a
parent, older elements are as they were, and its new children are read as the parts of `d`. -/
structure Attached (f g : Forest) (top : Nat) (n : Node) (files directories : List Nat)
    (d : Directory) : Prop where
  host : Host g top n
  grows : f.nodes.length ≤ g.nodes.length
  older : ∀ i, i < f.nodes.length → i ≠ top → g.node? i = f.node? i
  files : ∀ g', Keeps g g' f.nodes.length g.nodes.length →
    files.filterMap g'.featureFile? = d.files
  directories : ∀ g' depth, Keeps g g' f.nodes.length g.nodes.length →
    g.nodes.length - f.nodes.length ≤ depth → directories.filterMap (g'.directory? depth) = d.directories

/-- What is attached after a new child grows on from what was there before the child, and leaves the
child alone. -/
theorem Attached.after_child {k : Kind} {r : Nat × Forest} {m : Node} {files directories : List Nat}
    {d : Directory} (h : Host f top n) (hp : Planted k f r) (hk : n.content.kind.accepts k)
    (hd : n.content.displaced k = none)
    (ha : Attached ((r.2.insert top k r.1).setLink r.1 (some top)) g top m files directories d) :
    r.2.nodes.length ≤ g.nodes.length ∧
    (∀ i, i < f.nodes.length → i ≠ top → g.node? i = f.node? i) ∧
    ∀ g', Keeps g g' f.nodes.length g.nodes.length →
      Keeps r.2 g' f.nodes.length r.2.nodes.length ∧
      Keeps g g' ((r.2.insert top k r.1).setLink r.1 (some top)).nodes.length g.nodes.length := by
  obtain ⟨-, hlen, hold⟩ := h.child hp hk hd
  have hlength := length_planted h hp
  have hgrow : r.2.nodes.length ≤ g.nodes.length := hlength ▸ ha.grows
  refine ⟨hgrow, fun i hi hii => ?_, fun g' hg' => ⟨?_, ?_⟩⟩
  · rw [ha.older i (Nat.lt_trans hi hlen) hii, hold i hi hii]
  · exact h.keeps_child hp hgrow (fun i hi hii => ha.older i (hlength ▸ hi) hii) hg'
  · exact hg'.mono (Nat.le_of_lt hlen) (Nat.le_refl _)

theorem attachEach_follows {planters : List Planter} {items : List (Except LoadError Item)}
    (hfollows : List.Forall₂ Follows planters items) {files directories : List Nat}
    (h : Host f top n) (hn : n.content = .directory path files directories) :
    match gather path items with
    | .error e => attachEach top planters f = .error (.load e)
    | .ok d => ∃ g newFiles newDirectories, attachEach top planters f = .ok g ∧
      Attached f g top
        { n with content := .directory path (files ++ newFiles) (directories ++ newDirectories) }
        newFiles newDirectories d := by
  induction hfollows generalizing f n files directories with
  | nil =>
    refine ⟨f, [], [], rfl, ?_, Nat.le_refl _, fun _ _ _ => rfl, fun _ _ => rfl, fun _ _ _ _ => rfl⟩
    rw [List.append_nil, List.append_nil, ← hn]
    exact h
  | @cons planter outcome planters items hplanter _ ih =>
    have hone := hplanter f h.sound
    cases outcome with
    | error e => rw [gather, attachEach, hone]
    | ok item =>
      obtain ⟨r, hr, hgiven⟩ := hone
      rw [gather_cons]
      cases item with
      | skipped =>
        obtain rfl := hgiven
        have hrest := ih h hn
        rw [attachEach, hr]
        cases hitems : gather path items with
        | error e => rwa [hitems] at hrest
        | ok d =>
          rw [hitems] at hrest
          obtain ⟨g, fs, ds, hg, ha⟩ := hrest
          exact ⟨g, fs, ds, hg, ha.host, ha.grows, ha.older, ha.files, ha.directories⟩
      | file e =>
        obtain ⟨p, rfl, hp, hread⟩ := hgiven
        have hk : n.content.kind.accepts .featureFile := by rw [hn]; rfl
        have hd : n.content.displaced .featureFile = none := by rw [hn]; rfl
        have hinsert : n.content.insert .featureFile p.1 =
            .directory path (files ++ [p.1]) directories := by rw [hn]; rfl
        have hrest := ih (h.child hp hk hd).1 hinsert
        rw [attachEach_some h hr hp hk hd]
        cases hitems : gather path items with
        | error e => rwa [hitems] at hrest
        | ok d =>
          rw [hitems] at hrest
          obtain ⟨g, fs, ds, hg, ha⟩ := hrest
          obtain ⟨hgrow, hold, hkeep⟩ := ha.after_child h hp hk hd
          have hplanted := hp.grows
          refine ⟨g, p.1 :: fs, ds, hg, ?_, by omega, hold, fun g' hg' => ?_,
            fun g' depth hg' hdepth => ?_⟩
          · simpa using ha.host
          · rw [List.filterMap_cons, hread g' (hkeep g' hg').1, ha.files g' (hkeep g' hg').2]
            rfl
          · have hlength := length_planted h hp
            exact ha.directories g' depth (hkeep g' hg').2 (by omega)
      | directory sub =>
        obtain ⟨p, rfl, hp, hread⟩ := hgiven
        have hk : n.content.kind.accepts .directory := by rw [hn]; rfl
        have hd : n.content.displaced .directory = none := by rw [hn]; rfl
        have hinsert : n.content.insert .directory p.1 =
            .directory path files (directories ++ [p.1]) := by rw [hn]; rfl
        have hrest := ih (h.child hp hk hd).1 hinsert
        rw [attachEach_some h hr hp hk hd]
        cases hitems : gather path items with
        | error e => rwa [hitems] at hrest
        | ok d =>
          rw [hitems] at hrest
          obtain ⟨g, fs, ds, hg, ha⟩ := hrest
          obtain ⟨hgrow, hold, hkeep⟩ := ha.after_child h hp hk hd
          have hplanted := hp.grows
          refine ⟨g, fs, p.1 :: ds, hg, ?_, by omega, hold, fun g' hg' => ?_,
            fun g' depth hg' hdepth => ?_⟩
          · simpa using ha.host
          · exact ha.files g' (hkeep g' hg').2
          · have hlength := length_planted h hp
            rw [List.filterMap_cons, hread g' depth (hkeep g' hg').1 (by omega),
              ha.directories g' depth (hkeep g' hg').2 (by omega)]
            rfl

/-! ### A directory -/

theorem forall₂_insertBy {α β : Type} {le : α → α → Bool} {le' : β → β → Bool} {R : α → β → Prop}
    (hle : ∀ {a b a' b'}, R a b → R a' b' → le a a' = le' b b') {a : α} {b : β} (hab : R a b)
    {as : List α} {bs : List β} (h : List.Forall₂ R as bs) :
    List.Forall₂ R (insertBy le a as) (insertBy le' b bs) := by
  induction h with
  | nil => exact .cons hab .nil
  | cons hhead htail ih =>
    rw [insertBy, insertBy, hle hab hhead]
    split
    · exact .cons hab (.cons hhead htail)
    · exact .cons hhead ih

theorem forall₂_sortBy {α β : Type} {le : α → α → Bool} {le' : β → β → Bool} {R : α → β → Prop}
    (hle : ∀ {a b a' b'}, R a b → R a' b' → le a a' = le' b b') {as : List α} {bs : List β}
    (h : List.Forall₂ R as bs) : List.Forall₂ R (sortBy le as) (sortBy le' bs) := by
  induction h with
  | nil => exact .nil
  | cons hhead _ ih => exact forall₂_insertBy (R := R) hle hhead ih

/-- Related values that stand under the same names come in the same order. -/
theorem forall₂_byName {α β : Type} {R : α → β → Prop} {as : List (Text × α)} {bs : List (Text × β)}
    (h : List.Forall₂ (fun a b => a.1 = b.1 ∧ R a.2 b.2) as bs) :
    List.Forall₂ R (byName as) (byName bs) := by
  rw [byName, byName, List.forall₂_map_left_iff, List.forall₂_map_right_iff]
  refine (forall₂_sortBy (fun hab hab' => ?_) h).imp fun _ _ hab => hab.2
  rw [hab.1, hab'.1]

/-- The entries of a directory are attached to it as they are gathered without a forest. -/
theorem plantEntries_follows {planters : List (Text × Planter)}
    {items : List (Text × Except LoadError Item)}
    (h : List.Forall₂ (fun p i => p.1 = i.1 ∧ Follows p.2 i.2) planters items) (path : Text)
    (hf : f.Sound) :
    match gather path (byName items) with
    | .error e => plantEntries path planters f = .error (.load e)
    | .ok d => ∃ r, plantEntries path planters f = .ok r ∧ Grown f r d := by
  have hadd : Host (addDirectory path f).2 f.nodes.length ⟨.directory path [] [], none, none⟩ :=
    ⟨hf.add rfl rfl, (node?_add f _ _).trans (if_pos rfl), rfl⟩
  have hlength : (addDirectory path f).2.nodes.length = f.nodes.length + 1 := by
    simp [addDirectory, add]
  have hrest := attachEach_follows (forall₂_byName h) hadd rfl
  unfold plantEntries
  cases hitems : gather path (byName items) with
  | error e =>
    rw [hitems] at hrest
    exact congrArg (Except.map _) hrest
  | ok d =>
    rw [hitems] at hrest
    obtain ⟨g, files, directories, hg, hattached⟩ := hrest
    have hgrow := hattached.grows
    refine ⟨(f.nodes.length, g), congrArg (Except.map _) hg,
      ⟨rfl, ⟨_, hattached.host.node, rfl, rfl⟩, ?_, Nat.lt_of_lt_of_le (by omega) hgrow, hattached.host.sound⟩, ?_⟩
    · intro i hi
      rw [hattached.older i (by omega) (Nat.ne_of_lt hi)]
      exact (node?_add f _ i).trans (if_neg (Nat.ne_of_lt hi))
    · intro g' depth (hg' : Keeps g g' f.nodes.length g.nodes.length)
        (hdepth : g.nodes.length - f.nodes.length ≤ depth)
      obtain ⟨link, hnode⟩ := hg'.node? (Nat.le_refl _) (by omega) hattached.host.node
      obtain ⟨depth, rfl⟩ : ∃ k, depth = k + 1 := ⟨depth - 1, by omega⟩
      have hkeep : Keeps g g' (addDirectory path f).2.nodes.length g.nodes.length :=
        hg'.mono (by omega) (Nat.le_refl _)
      have hfiles := hattached.files g' hkeep
      have hdirectories := hattached.directories g' depth hkeep (by omega)
      rw [directory?, hnode]
      simp only [List.nil_append, hfiles, hdirectories]
      obtain ⟨p, files, directories⟩ := d
      obtain rfl : p = path := path_gather hitems
      rfl

mutual

theorem follows_plantItem (l : Loader) (code : Text) : ∀ (t : FileTree) (path : Text),
    Follows (l.plantItem code path t) (l.loadItem code path t)
  | .file bytes, path => by
    intro f hf
    rw [plantItem, loadItem]
    split_ifs with haccepts
    · cases hread : readFile code path (.file bytes) with
      | error e => rfl
      | ok file =>
        exact ⟨_, rfl, plantFeatureFile true file f, rfl, plants_featureFile file f hf,
          reads_featureFile file f hf⟩
    · exact ⟨_, rfl, rfl⟩
  | .directory entries, path => by
    intro f hf
    have hentries := plantEntries_follows (follows_plantItems l code entries path) path hf
    rw [plantItem, loadItem]
    cases hgather : gather path (byName (l.loadItems code path entries)) with
    | error e =>
      rw [hgather] at hentries
      exact congrArg (Except.map _) hentries
    | ok d =>
      rw [hgather] at hentries
      obtain ⟨r, hr, hgrown⟩ := hentries
      exact ⟨(some r.1, r.2), congrArg (Except.map _) hr, r, rfl, hgrown⟩

theorem follows_plantItems (l : Loader) (code : Text) :
    ∀ (entries : List (Text × FileTree)) (path : Text),
      List.Forall₂ (fun p i => p.1 = i.1 ∧ Follows p.2 i.2)
        (l.plantItems code path entries) (l.loadItems code path entries)
  | [], _ => .nil
  | (name, t) :: rest, path => by
    rw [plantItems, loadItems]
    exact .cons ⟨rfl, follows_plantItem l code t (Path.join path name)⟩
      (follows_plantItems l code rest path)

end

theorem Grown.element? {p : Nat × Forest} {d : Directory} (h : Grown f p d) :
    p.2.element? p.1 = some (.directory d) := by
  obtain ⟨n, hn, hkind, -⟩ := h.planted.fresh
  rw [Forest.element?, kind?, hn, Option.map_some, hkind]
  simp only [h.reads p.2 _ (.refl _ _ _) (Nat.sub_le _ _), Option.map_some]

theorem Planted.parent? {k : Kind} {p : Nat × Forest} (h : Planted k f p) :
    p.2.parent? p.1 = none := by
  obtain ⟨n, hn, -, hlink⟩ := h.fresh
  simp [Forest.parent?, hn, hlink]

/-- Loading a directory from a tree of files, for any loader and dialect, on its own and into any
sound forest. It succeeds just when every file with the extension, at whatever depth, is read; what
is loaded mirrors the tree, stands in the forest as it is with every element linked to the one that
holds it, and leaves older elements alone. Otherwise it fails for the first faulty file, and no
attachment is refused. -/
theorem loadDirectory_mirrors {root : FileTree} {entries : List (Text × FileTree)}
    (hroot : root.resolve? path = some (.directory entries)) (h : Proper entries) (hf : f.Sound) :
    ((∃ d, l.loadDirectory code root path = .ok d) ↔
      ∀ p n bytes, Lies path entries p n bytes → Path.HasExtension l.extension n →
        ∃ e, Reads code p bytes e) ∧
    (∀ d, l.loadDirectory code root path = .ok d → Mirrors l code path entries d ∧
      ∃ id g, l.plantDirectory code root path f = .ok (id, g) ∧
        g.element? id = some (.directory d) ∧ g.Coherent ∧ g.parent? id = none ∧
        ∀ i, i < f.nodes.length → g.node? i = f.node? i) ∧
    ∀ e, l.loadDirectory code root path = .error e → Fails l code path entries e ∧
      l.plantDirectory code root path f = .error (.load e) := by
  have hload : l.loadDirectory code root path = l.loadEntries code path entries := by
    rw [loadDirectory, hroot, loadEntries]
  have hplant : l.plantDirectory code root path f =
      plantEntries path (l.plantItems code path entries) f := by
    rw [plantDirectory, hroot]
  have hloads := h.loads l code path
  have hfollows := plantEntries_follows (follows_plantItems l code entries path) path hf
  rw [← loadEntries] at hfollows
  rw [hload, hplant]
  refine ⟨h.exists_loadEntries_iff l code path, fun d hd => ?_, fun e he => ?_⟩
  · rw [hd] at hloads hfollows
    obtain ⟨r, hr, hgrown⟩ := hfollows
    exact ⟨hloads, r.1, r.2, hr, hgrown.element?, hgrown.planted.sound.coherent,
      Planted.parent? hgrown.planted, hgrown.planted.older⟩
  · rw [he] at hloads hfollows
    exact ⟨hloads, hfollows⟩

/-- A feature file, a directory with another one, and a hidden file that is no text. -/
def sampleEntries : List (Text × FileTree) :=
  [("b.feature".toList, .file "Feature: b".toUTF8.toList),
    ("a".toList, .directory [("c.feature".toList, .file "Feature: c".toUTF8.toList)]),
    (".feature".toList, .file [255])]

theorem proper_sampleEntries : Proper sampleEntries := by
  have isName : ∀ name : Text, name ≠ [] ∧ '/' ∉ name ∧ name ≠ ['.'] ∧ name ≠ ['.', '.'] →
      Path.IsName name := fun _ h => ⟨h.1, h.2.1, h.2.2.1, h.2.2.2⟩
  refine ⟨fun e he => isName e.1 ?_, by decide, fun name sub hsub => ?_⟩
  · revert e
    decide
  · obtain ⟨rfl, rfl⟩ : name = "a".toList ∧
        sub = [("c.feature".toList, .file "Feature: c".toUTF8.toList)] := by
      simpa [sampleEntries] using hsub
    refine ⟨fun e he => isName e.1 ?_, by decide, fun name sub hsub => ?_⟩
    · revert e
      decide
    · simp at hsub

theorem loadDirectory_mirrors_sample : ∃ d,
    Loader.default.loadDirectory "en".toList (.directory sampleEntries) ".".toList = .ok d ∧
    Mirrors .default "en".toList ".".toList sampleEntries d ∧
    ∃ id g, Loader.default.plantDirectory "en".toList (.directory sampleEntries) ".".toList {} =
      .ok (id, g) ∧ g.element? id = some (.directory d) ∧ g.Coherent := by
  have hok : (Loader.default.loadDirectory "en".toList (.directory sampleEntries)
      ".".toList).isOk := by decide +kernel
  cases hload : Loader.default.loadDirectory "en".toList (.directory sampleEntries) ".".toList with
  | error e =>
    rw [hload] at hok
    cases hok
  | ok d =>
    obtain ⟨hmirrors, id, g, hplant, helement, hcoherent, -⟩ :=
      (loadDirectory_mirrors (f := {}) rfl proper_sampleEntries Sound.empty).2.1 d hload
    exact ⟨d, rfl, hmirrors, id, g, hplant, helement, hcoherent⟩

end Loader

end Gherkin
