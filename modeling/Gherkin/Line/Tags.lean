import Gherkin.Location
import Gherkin.Text.Basic

/-! Tag lines. A tag is an at sign and the characters up to the next blank or at sign; tags may be
glued together. A number sign at the start of a word opens a comment that runs to the end. -/

namespace Gherkin

/-- A tag as written, with its at sign and its place. -/
structure LocatedTag where
  location : Location
  name : Text
deriving DecidableEq

/-- Why a tag line is malformed: an at sign with no name, or a word that is no tag. -/
inductive TagFault
  | unnamed
  | word (w : Text)
deriving DecidableEq

def TagFault.message : TagFault → Text
  | unnamed => "invalid tag '@'".toList
  | word w => "tags must start with '@', got '".toList ++ w ++ ['\'']

namespace LocatedTag

/-- The characters that a tag's name may hold. -/
def isNameChar (c : Char) : Bool := !Text.isBlank c && c != '@'

/-- The tags of a text whose first character is in the given column. -/
def splitFrom (line : Nat) (column : Nat) (t : Text) : Except TagFault (List LocatedTag) :=
  match t with
  | [] => .ok []
  | c :: cs =>
    if Text.isBlank c then splitFrom line (column + 1) cs
    else if c = '#' then .ok []
    else if c = '@' then
      let name := cs.takeWhile isNameChar
      if name = [] then .error .unnamed
      else (splitFrom line (column + 1 + name.length) (cs.dropWhile isNameChar)).map
        (⟨⟨line, column⟩, '@' :: name⟩ :: ·)
    else .error (.word (c :: cs.takeWhile fun c => !Text.isBlank c))
termination_by t.length
decreasing_by
  · simp
  · have := (List.dropWhile_sublist (l := cs) isNameChar).length_le
    simp; omega

/-- The tags of a tag line that starts at `start`. -/
def split (t : Text) (start : Location) : Except TagFault (List LocatedTag) :=
  splitFrom start.line start.column t

end LocatedTag

end Gherkin
