import Gherkin.Text.Split

/-! Paths of files and directories. Two paths are the same when they have the same components:
repeated and trailing slashes do not count, nor does a single dot after the first component. -/

namespace Gherkin.Path

/-- The steps of a path. -/
inductive Component
  | root
  | here
  | up
  | name (n : Text)
deriving DecidableEq

/-- The parts of a path between slashes. -/
def parts (path : Text) : List Text := Text.splitOn '/' path

/-- The component that a part stands for, unless it stands for none. -/
def component? (part : Text) : Option Component :=
  if part = [] ∨ part = ['.'] then none
  else if part = ['.', '.'] then some .up
  else some (.name part)

/-- The components of a path. A single dot counts only at the start of a relative path. -/
def components (path : Text) : List Component :=
  match parts path with
  | [] :: next :: rest => .root :: (next :: rest).filterMap component?
  | ['.'] :: rest => .here :: rest.filterMap component?
  | all => all.filterMap component?

/-- The last component when it is a name, and empty otherwise. -/
def fileName (path : Text) : Text :=
  match (components path).getLast? with
  | some (.name n) => n
  | _ => []

/-- What follows the last dot of the file name, when something comes before that dot. -/
def extension? (path : Text) : Option Text :=
  let name := fileName path
  let after := (name.reverse.takeWhile (· ≠ '.')).reverse
  if after.length + 1 < name.length then some after else none

/-- The path with one more extension at the end of its file name, if it has one. Trailing slashes
and dots are dropped, and two dots are no file name. -/
def addExtension? (path extension : Text) : Option Text :=
  let kept := ((parts path).reverse.dropWhile fun p => p = [] ∨ p = ['.']).reverse
  match kept.getLast? with
  | none | some ['.', '.'] => none
  | some _ => some (Text.joinWith '/' kept ++ '.' :: extension)

/-- The path of an entry of a directory. -/
def join (directory name : Text) : Text :=
  match directory.getLast? with
  | none | some '/' => directory ++ name
  | some _ => directory ++ '/' :: name

end Gherkin.Path
