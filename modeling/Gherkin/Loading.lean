import Gherkin.Element.Parse
import Gherkin.FileTree
import Gherkin.Text.Order

/-! Loading feature files and directories. A directory holds its sub-directories and the files with
the loader's extension, in the order of their names; the first entry in that order that cannot be
read or parsed fails the whole. -/

namespace Gherkin

/-- Why loading fails: a path that cannot be read, or a text that is refused. -/
inductive LoadError
  | unreadable (path : Text)
  | refused (e : ParseError)
deriving DecidableEq

/-- A loader for files with one extension. -/
structure Loader where
  extension : Text
deriving DecidableEq

namespace Loader

/-- A loader for an extension given with or without dots in front. -/
def ofExtension (extension : Text) : Loader := ⟨extension.dropWhile (· == '.')⟩

def default : Loader := ofExtension "feature".toList

/-- Whether the file at a path is a feature file. -/
def accepts (l : Loader) (path : Text) : Bool := Path.extension? path == some l.extension

/-- What an entry of a directory is loaded as. -/
inductive Item
  | file (f : FeatureFile)
  | directory (d : Directory)
  | skipped

/-- Reads the file at a path as a feature file. -/
def readFile (code path : Text) (t : FileTree) : Except LoadError FeatureFile :=
  match t.text? with
  | none => .error (.unreadable path)
  | some source => (FeatureFile.parse code path source).mapError .refused

/-- The directory of the items loaded from its entries, or the failure of the first that failed. -/
def gather (path : Text) : List (Except LoadError Item) → Except LoadError Directory
  | [] => .ok (.mk path [] [])
  | .error e :: _ => .error e
  | .ok item :: rest =>
    (gather path rest).map fun d =>
      match item with
      | .file f => .mk path (f :: d.files) d.directories
      | .directory sub => .mk path d.files (sub :: d.directories)
      | .skipped => d

/-- Entries in the order of their names. -/
def byName {α : Type} (entries : List (Text × α)) : List α :=
  (sortBy (fun a b => Text.leq a.1 b.1) entries).map Prod.snd

mutual

/-- Loads the entry at a path. -/
def loadItem (l : Loader) (code path : Text) : FileTree → Except LoadError Item
  | .file bytes =>
    if l.accepts path then (readFile code path (.file bytes)).map .file else .ok .skipped
  | .directory entries =>
    (gather path (byName (l.loadItems code path entries))).map .directory

/-- Loads the entries of the directory at a path, in the order in which they are listed. -/
def loadItems (l : Loader) (code path : Text) :
    List (Text × FileTree) → List (Text × Except LoadError Item)
  | [] => []
  | (name, t) :: rest =>
    (name, l.loadItem code (Path.join path name) t) :: l.loadItems code path rest

end

/-- Loads the directory that a path leads to. -/
def loadDirectory (l : Loader) (code : Text) (root : FileTree) (path : Text) :
    Except LoadError Directory :=
  match root.resolve? path with
  | some (.directory entries) => gather path (byName (l.loadItems code path entries))
  | _ => .error (.unreadable path)

/-- Loads the single file that a path leads to, whatever its extension. -/
def loadFile (code : Text) (root : FileTree) (path : Text) : Except LoadError FeatureFile :=
  match root.resolve? path with
  | some t => readFile code path t
  | none => .error (.unreadable path)

end Loader

end Gherkin
