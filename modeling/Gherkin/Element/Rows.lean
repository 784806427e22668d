import Gherkin.Element.Basic

/-! Argument rows of an examples block, given as pairs of a parameter and a value. A row follows the
order of the parameter row; a parameter that is not given has an empty value. -/

namespace Gherkin.Rows

/-- The value given for a parameter. -/
def valueOf (values : List (Text × Text)) (parameter : Text) : Text :=
  (values.lookup parameter).getD []

/-- The argument row for the given values, under a parameter row that is not empty. -/
def rowFor? (rows : List (List Text)) (values : List (Text × Text)) : Option (List Text) :=
  match rows.headD [] with
  | [] => none
  | parameters => some (parameters.map (valueOf values))

/-- The rows with one more argument row at the end. -/
def add? (rows : List (List Text)) (values : List (Text × Text)) : Option (List (List Text)) :=
  (rowFor? rows values).map fun row => rows ++ [row]

/-- The rows without the first argument row for the given values, if there is one. -/
def remove? (rows : List (List Text)) (values : List (Text × Text)) : Option (List (List Text)) :=
  match rows, rowFor? rows values with
  | parameters :: arguments, some row =>
    if row ∈ arguments then some (parameters :: arguments.erase row) else none
  | _, _ => none

end Gherkin.Rows
