import Gherkin.Entries
import Gherkin.Path

/-! Trees of files and directories. A path is resolved part by part from a directory: a dot and an
empty part stay there, two dots go up, and each of them needs a directory to start from. -/

namespace Gherkin

inductive FileTree
  | file (bytes : List UInt8)
  | directory (entries : List (Text × FileTree))

namespace FileTree

def isDirectory : FileTree → Bool
  | directory _ => true
  | file _ => false

/-- The text of a file, if its bytes are one in UTF-8. -/
def text? : FileTree → Option Text
  | file bytes => (String.fromUTF8? ⟨bytes.toArray⟩).map String.toList
  | directory _ => none

/-- Puts `leaf` where names lead, through directories that are made where they are missing; a
directory that is there already is kept. -/
def insert (leaf : FileTree) : List Text → FileTree → FileTree
  | [], t => if leaf.isDirectory ∧ t.isDirectory then t else leaf
  | name :: rest, t =>
    let entries := match t with
      | directory entries => entries
      | file _ => []
    directory (Entries.set name
      (insert leaf rest ((entries.lookup name).getD (directory []))) entries)

/-- The places that the parts of a path lead to one after the other, each as the names on the way
to it. -/
def places (place : List Text) : List Text → List (List Text)
  | [] => []
  | part :: rest =>
    let next := if part = [] ∨ part = ['.'] then place
      else if part = ['.', '.'] then place.dropLast
      else place ++ [part]
    next :: places next rest

/-- Makes the directories on the way along a path and puts `leaf` at the end of it. -/
def make (leaf : FileTree) (path : Text) (root : FileTree) : FileTree :=
  let way := places [] (Path.parts path)
  let made := way.dropLast.foldl (fun t p => insert (directory []) p t) root
  insert leaf (way.getLast?.getD []) made

/-- Follows the parts of a path. The trail holds the directories on the way, the nearest first. -/
def follow : List FileTree → List Text → Option FileTree
  | t :: _, [] => some t
  | directory entries :: up, part :: rest =>
    if part = [] ∨ part = ['.'] then follow (directory entries :: up) rest
    else if part = ['.', '.'] then follow up rest
    else (entries.lookup part).bind fun t => follow (t :: directory entries :: up) rest
  | _, _ => none

/-- What a relative path leads to from a directory. -/
def resolve? (t : FileTree) (path : Text) : Option FileTree :=
  match path with
  | [] | '/' :: _ => none
  | _ => follow [t] (Path.parts path)

end FileTree

end Gherkin
