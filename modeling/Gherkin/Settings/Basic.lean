import Gherkin.Dialect.Scope
import Gherkin.FileTree
import Gherkin.Loading
import Gherkin.Settings.Key
import Gherkin.Settings.Toml.Document

/-! Settings in layers. Defaults come first, then files in the order in which they are added, then
single values, which win over every file. -/

namespace Gherkin

/-- The settings: the default dialect, the indentation of rendered elements, and the extension of
feature files. -/
structure Settings where
  dialect : Text
  indent : Text
  extension : Text
deriving DecidableEq

/-- A source of settings. -/
inductive Layer
  | file (path : Text)
  | optionalFile (path : Text)
  | project (directory : Text)
  | value (key : Text) (v : Settings.Scalar)

namespace Settings

/-! ### Layers -/

/-- The name of the settings file of a project. -/
def projectFile : Text := "cuke.toml".toList

/-- A table with one field, a text. -/
def single (name : String) (t : Text) : Value := .table [(name.toList, .scalar (.text t))]

/-- The values in force when no layer says otherwise. -/
def defaults : Value :=
  .table [("parsing".toList, single "dialect" Dialect.defaultCode),
    ("formatting".toList, single "indent_string" "  ".toList),
    ("loading".toList, single "feature_extension" "feature".toList)]

/-- The text of the file that a path leads to, or that it leads to with `toml` as one more
extension. -/
def fileText? (root : FileTree) (path : Text) : Option Text :=
  match root.resolve? path with
  | some (.file bytes) => (FileTree.file bytes).text?
  | _ => ((Path.addExtension? path "toml".toList).bind root.resolve?).bind FileTree.text?

/-- Values with the field of a file put under the key that its name is. -/
def addField (values : Value) (f : Text × Value) : Option Value :=
  Key.assign f.2 (Key.ofName f.1) values

/-- The values of a settings file on top of those before it. -/
def addFile (required : Bool) (root : FileTree) (path : Text) (values : Value) : Option Value :=
  match fileText? root path with
  | none => if required then none else some values
  | some source => (Toml.parse? source).bind fun fields => fields.foldlM addField values

/-- The values of a layer on top of those before it; single values are left for later. -/
def addLayer (root : FileTree) (values : Value) : Layer → Option Value
  | .file path => addFile true root path values
  | .optionalFile path => addFile false root path values
  | .project directory => addFile false root (Path.join directory projectFile) values
  | .value .. => some values

/-- The single value of a layer on top of the values before it. -/
def addValue (values : Value) : Layer → Option Value
  | .value key v => (Key.parse? key).bind fun steps => Key.assign (.scalar v) steps values
  | _ => some values

/-- The text of the setting under two names. -/
def settingText? (values : Value) (part name : String) : Option Text :=
  ((values.setting? part).bind (Value.setting? name)).bind Value.text?

/-- The settings that values amount to. -/
def ofValue? (values : Value) : Option Settings := do
  let dialect ← settingText? values "parsing" "dialect"
  let indent ← settingText? values "formatting" "indent_string"
  let extension ← settingText? values "loading" "feature_extension"
  some ⟨dialect, indent, extension⟩

/-- The settings of layers on top of the defaults, unless a layer is missing or malformed. -/
def build? (root : FileTree) (layers : List Layer) : Option Settings := do
  let values ← layers.foldlM (addLayer root) defaults
  let values ← layers.foldlM addValue values
  ofValue? values

/-! ### Use -/

/-- The loader that settings ask for. -/
def loader (s : Settings) : Loader := Loader.ofExtension s.extension

/-- Puts the default dialect of the settings in force. -/
def apply (s : Settings) (scope : Scope) : Scope := scope.setDefault s.dialect

end Settings

end Gherkin
