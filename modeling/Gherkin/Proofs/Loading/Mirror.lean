import Mathlib.Data.List.TakeWhile
import Gherkin.Loading
import Gherkin.Proofs.Text.Order

/-! What a directory is loaded as. A loaded directory mirrors the tree of files that it was read from:
it holds, in the order of their names, one feature file for every file with the loader's extension
and one directory for every sub-directory. Loading fails at the first file, in that order and with
sub-directories in their place, that is no text or is refused. -/

namespace Gherkin

/-! ### Names and paths -/

namespace Path

variable {directory name extension path : Text}

/-- A name that an entry of a directory can have. -/
structure IsName (name : Text) : Prop where
  ne_nil : name ≠ []
  slash : '/' ∉ name
  here : name ≠ ['.']
  up : name ≠ ['.', '.']

/-- The name ends in a dot and the extension, and something stands before the dot. -/
def HasExtension (extension name : Text) : Prop :=
  '.' ∉ extension ∧ ∃ stem, stem ≠ [] ∧ name = stem ++ '.' :: extension

theorem parts_of_not_mem (h : '/' ∉ name) : parts name = [name] := by
  have happend := Text.splitOn_append name [] h
  rw [List.append_nil] at happend
  rw [parts, happend]
  simp [Text.splitOn]

/-- The name of an entry is the last part of its path. -/
theorem exists_parts_join (h : IsName name) (directory : Text) :
    ∃ front, parts (join directory name) = front ++ [name] := by
  unfold join
  split
  · next hlast =>
    rw [List.getLast?_eq_none_iff.1 hlast, List.nil_append, parts_of_not_mem h.slash]
    exact ⟨[], rfl⟩
  · next hlast =>
    obtain ⟨init, hinit⟩ := List.getLast?_eq_some_iff.1 hlast
    rw [hinit, List.append_assoc, List.singleton_append, parts, Text.splitOn_append_cons, ← parts,
      ← parts, parts_of_not_mem h.slash]
    exact ⟨_, rfl⟩
  · rw [parts, Text.splitOn_append_cons, ← parts, ← parts, parts_of_not_mem h.slash]
    exact ⟨_, rfl⟩

theorem component?_of_isName (h : IsName name) : component? name = some (.name name) := by
  rw [component?, if_neg (not_or.2 ⟨h.ne_nil, h.here⟩), if_neg h.up]

theorem fileName_join (h : IsName name) (directory : Text) : fileName (join directory name) = name := by
  have hlast : (components (join directory name)).getLast? = some (.name name) := by
    obtain ⟨front, hfront⟩ := exists_parts_join h directory
    have htail : ∀ front : List Text,
        ((front ++ [name]).filterMap component?).getLast? = some (.name name) := by
      intro front
      rw [List.filterMap_append, List.filterMap_cons_some (component?_of_isName h)]
      simp
    unfold components
    rw [hfront]
    cases front with
    | nil =>
      split
      · next heq => cases heq
      · next heq => exact absurd (List.cons.inj heq).1 h.here
      · exact htail []
    | cons first front =>
      split
      · next heq =>
        have hrest : _ = front ++ [name] := (List.cons.inj heq).2.symm
        rw [hrest, List.getLast?_cons, htail front]
        rfl
      · next heq =>
        have hrest : _ = front ++ [name] := (List.cons.inj heq).2.symm
        rw [hrest, List.getLast?_cons, htail front]
        rfl
      · exact htail (first :: front)
  rw [fileName, hlast]

theorem extension?_eq_some_iff :
    extension? path = some extension ↔ HasExtension extension (fileName path) := by
  have hsplit := List.takeWhile_append_dropWhile (p := (· ≠ '.')) (l := (fileName path).reverse)
  have hname : fileName path = ((fileName path).reverse.dropWhile (· ≠ '.')).reverse ++
      ((fileName path).reverse.takeWhile (· ≠ '.')).reverse := by
    rw [← List.reverse_append, hsplit, List.reverse_reverse]
  constructor
  · intro h
    simp only [extension?] at h
    split_ifs at h with hlen
    obtain rfl := Option.some.inj h
    refine ⟨fun hdot => ?_, ?_⟩
    · have := List.mem_takeWhile_imp (List.mem_reverse.1 hdot)
      simp at this
    -- what the dot ends is not empty, as the extension and the dot are not the whole name
    have hlong : 1 < ((fileName path).reverse.dropWhile (· ≠ '.')).length := by
      have hsum := congrArg List.length hname
      rw [List.length_append, List.length_reverse] at hsum
      omega
    cases hdrop : (fileName path).reverse.dropWhile (· ≠ '.') with
    | nil =>
      rw [hdrop] at hlong
      exact absurd hlong (by decide)
    | cons c rest =>
      have hc := List.head?_dropWhile_not (· ≠ '.') (fileName path).reverse
      rw [hdrop] at hc
      obtain rfl : c = '.' := by simpa using hc
      refine ⟨rest.reverse, ?_, ?_⟩
      · rintro hnil
        rw [hdrop, List.reverse_eq_nil_iff.1 hnil] at hlong
        simp at hlong
      · rw [hdrop] at hname
        simpa using hname
  · rintro ⟨hdot, stem, hstem, hfile⟩
    have htake : ((fileName path).reverse.takeWhile (· ≠ '.')) = extension.reverse := by
      rw [hfile, List.reverse_append, List.reverse_cons, List.append_assoc,
        List.takeWhile_append_of_pos]
      · simp
      · intro c hc
        have hne : c ≠ '.' := by
          rintro rfl
          exact hdot (List.mem_reverse.1 hc)
        simpa using hne
    have hlen : extension.length + 1 < (fileName path).length := by
      have := List.length_pos_of_ne_nil hstem
      rw [hfile, List.length_append, List.length_cons]
      omega
    simp only [extension?, htake, List.reverse_reverse, if_pos hlen]

end Path

namespace Loader

/-- A file is loaded when its name has the loader's extension. -/
theorem accepts_join {name : Text} (h : Path.IsName name) (l : Loader) (directory : Text) :
    l.accepts (Path.join directory name) ↔ Path.HasExtension l.extension name := by
  rw [accepts, beq_iff_eq, Path.extension?_eq_some_iff, Path.fileName_join h]

/-! ### Trees -/

/-- The entries of a directory, as a file system has them at every depth. -/
inductive Proper : List (Text × FileTree) → Prop
  | mk {entries} (names : ∀ e ∈ entries, Path.IsName e.1)
    (distinct : (entries.map Prod.fst).Nodup)
    (below : ∀ name sub, (name, FileTree.directory sub) ∈ entries → Proper sub) : Proper entries

/-- A file that lies in a directory, at whatever depth, with its path and name. -/
inductive Lies : Text → List (Text × FileTree) → Text → Text → List UInt8 → Prop
  | here {path entries name bytes} (h : (name, FileTree.file bytes) ∈ entries) :
    Lies path entries (Path.join path name) name bytes
  | deeper {path entries name sub p n bytes} (h : (name, FileTree.directory sub) ∈ entries)
    (hl : Lies (Path.join path name) sub p n bytes) : Lies path entries p n bytes

/-- The bytes of the file at a path are a text that is read as a feature file. -/
def Reads (code path : Text) (bytes : List UInt8) (f : FeatureFile) : Prop :=
  ∃ source, (FileTree.file bytes).text? = some source ∧ FeatureFile.parse code path source = .ok f

/-- The bytes of the file at a path are no text, or one that is refused. -/
inductive Faulty (code path : Text) (bytes : List UInt8) : LoadError → Prop
  | unreadable (h : (FileTree.file bytes).text? = none) : Faulty code path bytes (.unreadable path)
  | refused {source e} (h : (FileTree.file bytes).text? = some source)
    (hparse : FeatureFile.parse code path source = .error e) : Faulty code path bytes (.refused e)

/-- The entries of a directory in the order of the bytes of their names. -/
structure Listing (entries sorted : List (Text × FileTree)) : Prop where
  perm : sorted.Perm entries
  sorted : sorted.Pairwise fun a b => a.1.bytes < b.1.bytes

variable (l : Loader) (code : Text)

mutual

/-- What the directory at a path is loaded as: a directory with the path, filled from the entries in
the order of their names. -/
inductive Mirrors : Text → List (Text × FileTree) → Directory → Prop
  | mk {path entries sorted files directories} (hlist : Listing entries sorted)
    (h : Filled path sorted files directories) : Mirrors path entries (.mk path files directories)

/-- The feature files and the directories that the entries of a directory are loaded as. -/
inductive Filled : Text → List (Text × FileTree) → List FeatureFile → List Directory → Prop
  | nil {path} : Filled path [] [] []
  | file {path name bytes rest f files directories} (hext : Path.HasExtension l.extension name)
    (hread : Reads code (Path.join path name) bytes f) (h : Filled path rest files directories) :
    Filled path ((name, .file bytes) :: rest) (f :: files) directories
  | skipped {path name bytes rest files directories} (hext : ¬Path.HasExtension l.extension name)
    (h : Filled path rest files directories) :
    Filled path ((name, .file bytes) :: rest) files directories
  | directory {path name sub rest d files directories} (hd : Mirrors (Path.join path name) sub d)
    (h : Filled path rest files directories) :
    Filled path ((name, .directory sub) :: rest) files (d :: directories)

end

/-- Why the directory at a path is not loaded: all is well with the entries before some name, and the
entry of that name is a faulty file or a directory that is not loaded in its turn. -/
inductive Fails : Text → List (Text × FileTree) → LoadError → Prop
  | file {path entries before name bytes after files directories e}
    (hlist : Listing entries (before ++ (name, .file bytes) :: after))
    (hbefore : Filled l code path before files directories)
    (hext : Path.HasExtension l.extension name) (h : Faulty code (Path.join path name) bytes e) :
    Fails path entries e
  | directory {path entries before name sub after files directories e}
    (hlist : Listing entries (before ++ (name, .directory sub) :: after))
    (hbefore : Filled l code path before files directories)
    (h : Fails (Path.join path name) sub e) : Fails path entries e

variable {l code} {path : Text} {entries es : List (Text × FileTree)} {d : Directory} {e : LoadError}

/-! ### What the relations say of every file -/

theorem Faulty.not_reads {bytes : List UInt8} {f : FeatureFile} (h : Faulty code path bytes e) :
    ¬Reads code path bytes f := by
  rintro ⟨source, hsource, hparse⟩
  cases h with
  | unreadable h => cases h.symm.trans hsource
  | refused h hrefused =>
    obtain rfl := Option.some.inj (h.symm.trans hsource)
    cases hrefused.symm.trans hparse

theorem Filled.exists_file {name : Text} {bytes : List UInt8} {files : List FeatureFile}
    {directories : List Directory} (h : Filled l code path es files directories)
    (hmem : (name, FileTree.file bytes) ∈ es) (hext : Path.HasExtension l.extension name) :
    ∃ f ∈ files, Reads code (Path.join path name) bytes f := by
  induction es generalizing files directories with
  | nil => cases hmem
  | cons entry es ih =>
    rcases List.mem_cons.1 hmem with rfl | hrest
    · cases h with
      | file _ hread _ => exact ⟨_, List.mem_cons_self, hread⟩
      | skipped hno _ => exact absurd hext hno
    · cases h with
      | file _ _ h =>
        obtain ⟨f, hf, hread⟩ := ih h hrest
        exact ⟨f, List.mem_cons_of_mem _ hf, hread⟩
      | skipped _ h => exact ih h hrest
      | directory _ h => exact ih h hrest

theorem Filled.exists_directory {name : Text} {sub : List (Text × FileTree)}
    {files : List FeatureFile} {directories : List Directory}
    (h : Filled l code path es files directories) (hmem : (name, FileTree.directory sub) ∈ es) :
    ∃ d ∈ directories, Mirrors l code (Path.join path name) sub d := by
  induction es generalizing files directories with
  | nil => cases hmem
  | cons entry es ih =>
    rcases List.mem_cons.1 hmem with rfl | hrest
    · cases h with
      | directory hd _ => exact ⟨_, List.mem_cons_self, hd⟩
    · cases h with
      | file _ _ h => exact ih h hrest
      | skipped _ h => exact ih h hrest
      | directory _ h =>
        obtain ⟨d, hd, hmirror⟩ := ih h hrest
        exact ⟨d, List.mem_cons_of_mem _ hd, hmirror⟩

/-- When a directory is mirrored, every file with the extension in it is read. -/
theorem Mirrors.reads {p n : Text} {bytes : List UInt8} (hl : Lies path entries p n bytes)
    (h : Mirrors l code path entries d) (hext : Path.HasExtension l.extension n) :
    ∃ f, Reads code p bytes f := by
  induction hl generalizing d with
  | here hmem =>
    cases h with
    | mk hlist h =>
      obtain ⟨f, -, hread⟩ := h.exists_file (hlist.perm.mem_iff.2 hmem) hext
      exact ⟨f, hread⟩
  | deeper hmem _ ih =>
    cases h with
    | mk hlist h =>
      obtain ⟨d, -, hd⟩ := h.exists_directory (hlist.perm.mem_iff.2 hmem)
      exact ih hd hext

/-- When loading fails, it is for a faulty file with the extension. -/
theorem Fails.exists_faulty (h : Fails l code path entries e) :
    ∃ p n bytes, Lies path entries p n bytes ∧ Path.HasExtension l.extension n ∧
      Faulty code p bytes e := by
  induction h with
  | file hlist _ hext h =>
    exact ⟨_, _, _, .here (hlist.perm.mem_iff.1 (by simp)), hext, h⟩
  | directory hlist _ _ ih =>
    obtain ⟨p, n, bytes, hl, hext, h⟩ := ih
    exact ⟨p, n, bytes, .deeper (hlist.perm.mem_iff.1 (by simp)) hl, hext, h⟩

/-! ### The loader -/

/-- The entries in the order of their names. -/
def sortEntries {α : Type} (entries : List (Text × α)) : List (Text × α) :=
  sortBy (fun a b => Text.leq a.1 b.1) entries

theorem insertBy_map {α β : Type} {le : α → α → Bool} {le' : β → β → Bool} {f : α → β}
    (h : ∀ a b, le' (f a) (f b) = le a b) (x : α) (xs : List α) :
    insertBy le' (f x) (xs.map f) = (insertBy le x xs).map f := by
  induction xs with
  | nil => rfl
  | cons y ys ih =>
    rw [List.map_cons, insertBy, insertBy, h, ih]
    split <;> rfl

theorem sortBy_map {α β : Type} (le : α → α → Bool) {le' : β → β → Bool} {f : α → β}
    (h : ∀ a b, le' (f a) (f b) = le a b) (xs : List α) :
    sortBy le' (xs.map f) = (sortBy le xs).map f := by
  induction xs with
  | nil => rfl
  | cons x xs ih => rw [List.map_cons, sortBy, sortBy, ih, insertBy_map h]

/-- What is made of each entry is in the order of the entries' names. -/
theorem byName_map {α β : Type} (make : Text → α → β) (entries : List (Text × α)) :
    byName (entries.map fun e => (e.1, make e.1 e.2)) =
      (sortEntries entries).map fun e => make e.1 e.2 := by
  rw [byName, sortBy_map (fun a b => Text.leq a.1 b.1) (fun _ _ => rfl), List.map_map]
  rfl

theorem Proper.listing (h : Proper entries) : Listing entries (sortEntries entries) := by
  cases h with
  | mk names distinct below =>
    have hperm := perm_sortBy (fun a b => Text.leq a.1 b.1) entries
    refine ⟨hperm, ?_⟩
    have hsorted : (sortEntries entries).Pairwise fun a b => Text.leq a.1 b.1 :=
      pairwise_sortBy (fun a b => Text.leq_total a.1 b.1)
        (fun a b c => Text.leq_trans a.1 b.1 c.1) entries
    have hdistinct : (sortEntries entries).Pairwise fun a b => a.1 ≠ b.1 :=
      List.pairwise_map.1 ((hperm.map Prod.fst).nodup_iff.2 distinct)
    exact (hsorted.and hdistinct).imp fun h => Text.bytes_lt_of_leq h.1 h.2

theorem loadItems_eq (l : Loader) (code path : Text) (entries : List (Text × FileTree)) :
    l.loadItems code path entries =
      entries.map fun e => (e.1, l.loadItem code (Path.join path e.1) e.2) := by
  induction entries with
  | nil => rfl
  | cons entry entries ih => rw [loadItems, ih, List.map_cons]

/-- The directory of some entries at a path. -/
def loadEntries (l : Loader) (code path : Text) (entries : List (Text × FileTree)) :
    Except LoadError Directory :=
  gather path (byName (l.loadItems code path entries))

/-- The feature files and the directories that an entry is loaded as: one or none. -/
def Item.files : Item → List FeatureFile
  | .file f => [f]
  | _ => []

def Item.directories : Item → List Directory
  | .directory d => [d]
  | _ => []

theorem path_gather {items : List (Except LoadError Item)} (h : gather path items = .ok d) :
    d.path = path := by
  induction items generalizing d with
  | nil => cases h; rfl
  | cons item items ih =>
    cases item with
    | error e => cases h
    | ok item =>
      rw [gather] at h
      cases hrest : gather path items with
      | error e => rw [hrest] at h; cases h
      | ok d' =>
        rw [hrest] at h
        obtain rfl := Except.ok.inj h
        cases item with
        | file | directory => rfl
        | skipped => exact ih hrest

theorem gather_cons (item : Item) (items : List (Except LoadError Item)) :
    gather path (.ok item :: items) = (gather path items).map fun d =>
      .mk path (item.files ++ d.files) (item.directories ++ d.directories) := by
  rw [gather]
  cases hrest : gather path items with
  | error e => rfl
  | ok d =>
    cases item with
    | file | directory => rfl
    | skipped =>
      obtain ⟨p, files, directories⟩ := d
      obtain rfl : p = path := path_gather hrest
      rfl

/-- The outcome of loading a directory is as it should be: a mirror of the tree, or the failure of
the first entry that fails. -/
def Loads (l : Loader) (code path : Text) (entries : List (Text × FileTree)) :
    Except LoadError Directory → Prop
  | .ok d => Mirrors l code path entries d
  | .error e => Fails l code path entries e

/-- Why a single entry is not loaded. -/
def EntryFails (l : Loader) (code path name : Text) (e : LoadError) : FileTree → Prop
  | .file bytes => Path.HasExtension l.extension name ∧ Faulty code (Path.join path name) bytes e
  | .directory sub => Fails l code (Path.join path name) sub e

theorem reads_readFile {p : Text} {bytes : List UInt8} {f : FeatureFile}
    (h : readFile code p (.file bytes) = .ok f) : Reads code p bytes f := by
  unfold readFile at h
  split at h
  · cases h
  · next source hsource =>
    cases hparse : FeatureFile.parse code p source with
    | error e => rw [hparse] at h; cases h
    | ok r =>
      rw [hparse] at h
      obtain rfl := Except.ok.inj h
      exact ⟨source, hsource, hparse⟩

theorem faulty_readFile {p : Text} {bytes : List UInt8}
    (h : readFile code p (.file bytes) = .error e) : Faulty code p bytes e := by
  unfold readFile at h
  split at h
  · next hsource =>
    obtain rfl := Except.error.inj h
    exact .unreadable hsource
  · next source hsource =>
    cases hparse : FeatureFile.parse code p source with
    | error e =>
      rw [hparse] at h
      obtain rfl := Except.error.inj h
      exact .refused hsource hparse
    | ok r => rw [hparse] at h; cases h

/-- One entry with a proper name: what it is loaded as goes in front of what the others are loaded
as, or it fails. -/
theorem loadItem_cases (path : Text) {name : Text} (hname : Path.IsName name) (t : FileTree)
    (hsub : ∀ sub, t = .directory sub →
      Loads l code (Path.join path name) sub (l.loadEntries code (Path.join path name) sub)) :
    (∃ item, l.loadItem code (Path.join path name) t = .ok item ∧
      ∀ {rest files directories}, Filled l code path rest files directories →
        Filled l code path ((name, t) :: rest) (item.files ++ files)
          (item.directories ++ directories)) ∨
    ∃ e, l.loadItem code (Path.join path name) t = .error e ∧ EntryFails l code path name e t := by
  cases t with
  | file bytes =>
    have hext := accepts_join hname l path
    rw [loadItem]
    by_cases haccepts : l.accepts (Path.join path name)
    · rw [if_pos haccepts]
      cases hread : readFile code (Path.join path name) (.file bytes) with
      | error e => exact .inr ⟨e, rfl, hext.1 haccepts, faulty_readFile hread⟩
      | ok f => exact .inl ⟨.file f, rfl, .file (hext.1 haccepts) (reads_readFile hread)⟩
    · rw [if_neg haccepts]
      exact .inl ⟨.skipped, rfl, .skipped fun h => haccepts (hext.2 h)⟩
  | directory sub =>
    have hloads := hsub sub rfl
    have hload : l.loadItem code (Path.join path name) (.directory sub) =
        (l.loadEntries code (Path.join path name) sub).map .directory := by
      rw [loadItem, loadEntries]
    rw [hload]
    cases hentries : l.loadEntries code (Path.join path name) sub with
    | error e => exact .inr ⟨e, rfl, by rwa [hentries] at hloads⟩
    | ok d => exact .inl ⟨.directory d, rfl, .directory (by rwa [hentries] at hloads)⟩

/-- Entries in a given order are loaded up to the first that fails. -/
theorem gather_loads (path : Text) (hnames : ∀ e ∈ es, Path.IsName e.1)
    (hsub : ∀ name sub, (name, FileTree.directory sub) ∈ es →
      Loads l code (Path.join path name) sub (l.loadEntries code (Path.join path name) sub)) :
    (∃ d, gather path (es.map fun e => l.loadItem code (Path.join path e.1) e.2) = .ok d ∧
      Filled l code path es d.files d.directories) ∨
    ∃ e before name t after files directories,
      gather path (es.map fun e => l.loadItem code (Path.join path e.1) e.2) = .error e ∧
      es = before ++ (name, t) :: after ∧ Filled l code path before files directories ∧
      EntryFails l code path name e t := by
  induction es with
  | nil => exact .inl ⟨_, rfl, .nil⟩
  | cons entry es ih =>
    obtain ⟨name, t⟩ := entry
    obtain ⟨hname, hnames⟩ := List.forall_mem_cons.1 hnames
    have ih := ih hnames fun name sub h => hsub name sub (List.mem_cons_of_mem _ h)
    rw [List.map_cons]
    obtain ⟨item, hitem, hfilled⟩ | ⟨e, he, hfails⟩ := loadItem_cases path hname t
      fun sub ht => hsub name sub (ht ▸ List.mem_cons_self)
    · simp only [hitem, gather_cons]
      obtain ⟨d, hd, hd'⟩ | ⟨e, before, name', t', after, files, directories, he, rfl, hbefore, hf⟩ := ih
      · exact .inl ⟨.mk path (item.files ++ d.files) (item.directories ++ d.directories),
          by rw [hd]; rfl, hfilled hd'⟩
      · exact .inr ⟨e, (name, t) :: before, name', t', after, _, _, by rw [he]; rfl, rfl,
          hfilled hbefore, hf⟩
    · exact .inr ⟨e, [], name, t, es, [], [], by simp only [he, gather], rfl, .nil, hfails⟩

/-- Loading the entries of a directory mirrors them or fails at the first faulty file. -/
theorem Proper.loads (h : Proper entries) (l : Loader) (code path : Text) :
    Loads l code path entries (l.loadEntries code path entries) := by
  induction h generalizing path with
  | @mk entries names distinct below ih =>
    have hlist : Listing entries (sortEntries entries) := (Proper.mk names distinct below).listing
    have hmem : ∀ {entry}, entry ∈ sortEntries entries → entry ∈ entries := hlist.perm.mem_iff.1
    rw [loadEntries, loadItems_eq,
      byName_map (fun name t => l.loadItem code (Path.join path name) t) entries]
    obtain ⟨d, hd, hfilled⟩ | ⟨e, before, name, t, after, files, directories, he, hes, hbefore, hf⟩ :=
      gather_loads path (fun e he => names e (hmem he))
        fun name sub hsub => ih name sub (hmem hsub) (Path.join path name)
    · rw [hd]
      obtain ⟨p, files, directories⟩ := d
      obtain rfl : p = path := path_gather hd
      exact .mk hlist hfilled
    · rw [he]
      rw [hes] at hlist
      cases t with
      | file bytes => exact .file hlist hbefore hf.1 hf.2
      | directory sub => exact .directory hlist hbefore hf

/-- The directory is loaded just when every file with the extension in it is read. -/
theorem Proper.exists_loadEntries_iff (h : Proper entries) (l : Loader) (code path : Text) :
    (∃ d, l.loadEntries code path entries = .ok d) ↔
      ∀ p n bytes, Lies path entries p n bytes → Path.HasExtension l.extension n →
        ∃ f, Reads code p bytes f := by
  have hloads := h.loads l code path
  cases hload : l.loadEntries code path entries with
  | ok d =>
    rw [hload] at hloads
    exact ⟨fun _ p n bytes hl hext => Mirrors.reads hl hloads hext, fun _ => ⟨d, rfl⟩⟩
  | error e =>
    rw [hload] at hloads
    obtain ⟨p, n, bytes, hl, hext, hfaulty⟩ := Fails.exists_faulty hloads
    constructor
    · rintro ⟨d, hd⟩
      cases hd
    · intro hall
      obtain ⟨f, hf⟩ := hall p n bytes hl hext
      exact absurd hf hfaulty.not_reads

end Loader

end Gherkin
