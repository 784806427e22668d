import Gherkin.Forest.Attach
import Gherkin.Forest.Plant
import Gherkin.Loading

/-! Loading a directory straight into a forest. The directory is added first; then its entries, in
the order of their names, are loaded one after the other, and what each of them is loaded as is
attached to the directory. -/

namespace Gherkin

/-- Why loading into a forest fails: an entry cannot be loaded, or cannot be attached. -/
inductive ForestError
  | load (e : LoadError)
  | tree (e : TreeError)
deriving DecidableEq

namespace Loader

/-- What loads an entry into a forest and gives the number of what it is loaded as, if it is not
skipped. -/
abbrev Planter := Forest → Except ForestError (Option Nat × Forest)

/-- Loads entries one after the other, and attaches each to `parent`. -/
def attachEach (parent : Nat) : List Planter → Forest → Except ForestError Forest
  | [], f => .ok f
  | planter :: rest, f =>
    match planter f with
    | .error e => .error e
    | .ok (none, f) => attachEach parent rest f
    | .ok (some child, f) =>
      match f.attach parent child with
      | .error e => .error (.tree e)
      | .ok f => attachEach parent rest f

/-- A directory with nothing in it. -/
def addDirectory (path : Text) (f : Forest) : Nat × Forest :=
  f.add ⟨.directory path [] [], none, none⟩

/-- Adds the directory at a path and then what its entries are loaded as. -/
def plantEntries (path : Text) (entries : List (Text × Planter)) (f : Forest) :
    Except ForestError (Nat × Forest) :=
  (attachEach (addDirectory path f).1 (byName entries) (addDirectory path f).2).map
    ((addDirectory path f).1, ·)

mutual

/-- Loads the entry at a path into a forest. -/
def plantItem (l : Loader) (code path : Text) : FileTree → Planter
  | .file bytes => fun f =>
    if l.accepts path then
      match readFile code path (.file bytes) with
      | .error e => .error (.load e)
      | .ok file => .ok ((f.plant true (.featureFile file)).map some id)
    else .ok (none, f)
  | .directory entries => fun f =>
    (plantEntries path (l.plantItems code path entries) f).map (Prod.map some id)

/-- Loads the entries of the directory at a path, in the order in which they are listed. -/
def plantItems (l : Loader) (code path : Text) : List (Text × FileTree) → List (Text × Planter)
  | [] => []
  | (name, t) :: rest =>
    (name, l.plantItem code (Path.join path name) t) :: l.plantItems code path rest

end

/-- Loads the directory that a path leads to into a forest, and gives its number. -/
def plantDirectory (l : Loader) (code : Text) (root : FileTree) (path : Text) (f : Forest) :
    Except ForestError (Nat × Forest) :=
  match root.resolve? path with
  | some (.directory entries) => plantEntries path (l.plantItems code path entries) f
  | _ => .error (.load (.unreadable path))

end Loader

end Gherkin
