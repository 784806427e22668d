import Gherkin.Element.Rows
import Gherkin.Forest.Basic

/-! Changing the attributes of an element in place. An attribute that the element's kind does not
have is left aside; collections and links stay as they are. -/

namespace Gherkin

/-- New values for some attributes. A block may also be taken away. -/
structure Change where
  keyword : Option Text := none
  name : Option Text := none
  description : Option Text := none
  language : Option Text := none
  text : Option Text := none
  path : Option Text := none
  rows : Option (List (List Text)) := none
  block : Option (Option StepBlock) := none

namespace Change

def heading (a : Change) (h : Heading) : Heading :=
  ⟨a.keyword.getD h.keyword, a.name.getD h.name, a.description.getD h.description⟩

def content (a : Change) : Content → Content
  | .directory path files directories => .directory (a.path.getD path) files directories
  | .featureFile path held => .featureFile (a.path.getD path) held
  | .feature head language first tests tags comments =>
    .feature (a.heading head) (a.language.getD language) first tests tags comments
  | .background head steps => .background (a.heading head) steps
  | .scenario head steps tags => .scenario (a.heading head) steps tags
  | .outline head steps examples tags => .outline (a.heading head) steps examples tags
  | .example head rows tags => .example (a.heading head) (a.rows.getD rows) tags
  | .step keyword text block =>
    .step (a.keyword.getD keyword) (a.text.getD text) (a.block.getD block)
  | .tag name => .tag (a.name.getD name)
  | .comment text => .comment (a.text.getD text)

end Change

namespace Forest

/-- Gives an element new values for some of its attributes. -/
def change (f : Forest) (id : Nat) (a : Change) : Forest :=
  f.modify id fun n => { n with content := a.content n.content }

/-- The rows of an examples block. -/
def rows? (f : Forest) (id : Nat) : Option (List (List Text)) :=
  match f.node? id with
  | some ⟨.example _ rows _, _, _⟩ => some rows
  | _ => none

end Forest

end Gherkin
