import Gherkin.Proofs.Settings.Writes
import Gherkin.Proofs.Settings.Key
import Gherkin.Settings.Basic

/-! Which source decides a setting. Layers come down to writes: first those of the files, in the order
of the layers and of the fields in each file, then those of the single values. A setting is what the
last write that reaches its path puts there. A single value therefore wins over every file and over
the single values before it, a file wins over the files before it, and what no layer speaks of has
its default. -/

namespace Gherkin.Settings

open Value

/-! ### Layers as writes -/

/-- The writes of the file of a layer, if it is there and well formed. -/
def fileWrites? (required : Bool) (root : FileTree) (path : Text) : Option (List Write) :=
  match fileText? root path with
  | none => if required then none else some []
  | some source => (Toml.parse? source).map fun fields => fields.map fun f => ⟨Key.ofName f.1, f.2⟩

/-- What a layer writes before any single value. -/
def layerWrites? (root : FileTree) : Layer → Option (List Write)
  | .file path => fileWrites? true root path
  | .optionalFile path => fileWrites? false root path
  | .project directory => fileWrites? false root (Path.join directory projectFile)
  | .value .. => some []

/-- What a layer writes on top of every file. -/
def singleWrites? : Layer → Option (List Write)
  | .value key x => (Key.parse? key).map fun steps => [⟨steps, .scalar x⟩]
  | _ => some []

/-- What layers write, in order. -/
def writes? (root : FileTree) (layers : List Layer) : Option (List Write) := do
  let files ← layers.mapM (layerWrites? root)
  let singles ← layers.mapM singleWrites?
  some (files.flatten ++ singles.flatten)

theorem addFile_eq (required : Bool) (root : FileTree) (path : Text) (values : Value) :
    addFile required root path values = (fileWrites? required root path).bind (runAll values) := by
  unfold addFile fileWrites?
  cases fileText? root path with
  | none => cases required <;> rfl
  | some source =>
    cases hparse : Toml.parse? source with
    | none => simp [hparse]
    | some fields =>
      simp only [hparse, Option.bind_some, Option.map_some, runAll, List.foldlM_map]
      rfl

theorem addLayer_eq (root : FileTree) (values : Value) (layer : Layer) :
    addLayer root values layer = (layerWrites? root layer).bind (runAll values) := by
  cases layer with
  | file path => exact addFile_eq true root path values
  | optionalFile path => exact addFile_eq false root path values
  | project directory => exact addFile_eq false root _ values
  | value key x => rfl

theorem addValue_eq (values : Value) (layer : Layer) :
    addValue values layer = (singleWrites? layer).bind (runAll values) := by
  cases layer with
  | file path => rfl
  | optionalFile path => rfl
  | project directory => rfl
  | value key x =>
    cases hkey : Key.parse? key with
    | none => simp [addValue, singleWrites?, hkey]
    | some steps =>
      have hone : runAll values [⟨steps, .scalar x⟩] = Key.assign (.scalar x) steps values := by
        rw [runAll, List.foldlM_cons]
        exact Option.bind_fun_some _
      rw [addValue, singleWrites?, hkey, Option.bind_some, Option.map_some, Option.bind_some, hone]

/-- Steps that each run the writes of a layer run the writes of all layers. -/
theorem foldlM_eq_runAll {step : Value → Layer → Option Value} {writes : Layer → Option (List Write)}
    (h : ∀ values layer, step values layer = (writes layer).bind (runAll values))
    (layers : List Layer) (values : Value) :
    layers.foldlM step values = (layers.mapM writes).bind fun ws => runAll values ws.flatten := by
  induction layers generalizing values with
  | nil => rfl
  | cons layer layers ih =>
    rw [List.foldlM_cons, List.mapM_cons, h]
    cases hw : writes layer with
    | none => rfl
    | some ws =>
      cases hws : layers.mapM writes with
      | none =>
        have hnone (mid : Value) : layers.foldlM step mid = none := by rw [ih, hws]; rfl
        simp [hnone]
      | some wss =>
        simp only [Option.bind_some, Option.bind_eq_bind, Option.pure_def, List.flatten_cons,
          runAll_append]
        congr 1
        funext mid
        rw [ih, hws, Option.bind_some]

/-- Settings are what the writes of the layers make of the defaults. -/
theorem build?_eq (root : FileTree) (layers : List Layer) :
    build? root layers =
      ((writes? root layers).bind (runAll defaults)).bind ofValue? := by
  rw [build?, foldlM_eq_runAll (addLayer_eq root), writes?]
  cases layers.mapM (layerWrites? root) with
  | none => rfl
  | some files =>
    simp only [Option.bind_some, Option.bind_eq_bind]
    cases hsingles : layers.mapM singleWrites? with
    | none =>
      have hnone (mid : Value) : layers.foldlM addValue mid = none := by
        rw [foldlM_eq_runAll addValue_eq, hsingles]
        rfl
      simp [hnone]
    | some singles =>
      simp only [Option.bind_some, runAll_append, Option.bind_assoc]
      congr 1
      funext mid
      rw [foldlM_eq_runAll addValue_eq, hsingles, Option.bind_some]

/-! ### The settings in force -/

/-- One of the settings. -/
inductive Setting
  | dialect
  | indent
  | extension
deriving DecidableEq

namespace Setting

/-- The table that a setting is in, and its name in the table. -/
def names : Setting → String × String
  | dialect => ("parsing", "dialect")
  | indent => ("formatting", "indent_string")
  | extension => ("loading", "feature_extension")

def path (setting : Setting) : List Text := [setting.names.1.toList, setting.names.2.toList]

/-- The key of a setting, its names with a dot between them. -/
def key (setting : Setting) : Text := Key.spell (setting.path.map fun name => ⟨name, []⟩)

def default : Setting → Text
  | dialect => Dialect.defaultCode
  | indent => "  ".toList
  | extension => "feature".toList

/-- The key of a setting leads to its path. -/
theorem parse?_key (setting : Setting) : Key.parse? setting.key = some (setting.path.map .field) := by
  have hnames : setting.path.all fun name => name != [] && name.all Key.isNameChar := by
    cases setting <;> decide
  have hvalid : ∀ p ∈ setting.path.map fun name => Key.Part.mk name [], p.Valid := by
    refine List.forall_mem_map.2 fun name hname => ?_
    have hname := List.all_eq_true.1 hnames name hname
    simp only [Bool.and_eq_true, bne_iff_ne, List.all_eq_true] at hname
    exact ⟨hname.1, hname.2, by simp⟩
  have hsteps := Key.parse?_spell (List.cons_ne_nil _ _) hvalid
  cases setting <;> exact hsteps

end Setting

/-- What a setting is set to. -/
def get (s : Settings) : Setting → Text
  | .dialect => s.dialect
  | .indent => s.indent
  | .extension => s.extension

/-- The settings that are set to the given texts. -/
def ofTexts (text : Setting → Text) : Settings := ⟨text .dialect, text .indent, text .extension⟩

@[simp] theorem get_ofTexts (text : Setting → Text) (setting : Setting) :
    (ofTexts text).get setting = text setting := by
  cases setting <;> rfl

theorem ofValue?_eq_some_iff {values : Value} {s : Settings} :
    ofValue? values = some s ↔
      ∀ setting, settingText? values setting.names.1 setting.names.2 = some (s.get setting) := by
  constructor
  · intro h setting
    simp only [ofValue?, Option.bind_eq_bind, Option.bind_eq_some_iff] at h
    obtain ⟨dialect, hdialect, indent, hindent, extension, hextension, hs⟩ := h
    obtain rfl := Option.some.inj hs
    cases setting with
    | dialect => exact hdialect
    | indent => exact hindent
    | extension => exact hextension
  · intro h
    have hdialect := h .dialect
    have hindent := h .indent
    have hextension := h .extension
    simp only [Setting.names] at hdialect hindent hextension
    rw [ofValue?, hdialect, hindent, hextension]
    rfl

/-- A scalar that is read at the path of a setting is the setting. -/
theorem settingText?_of_find? {values : Value} {setting : Setting} {x : Scalar}
    (h : find? setting.path values = some (scalar x)) :
    settingText? values setting.names.1 setting.names.2 = some x.toText := by
  have hfield {v w : Value} {name : String} (hlookup : v.fields.lookup name.toList = some w) :
      v.setting? name = some w := by
    cases v with
    | table fields => exact hlookup
    | _ => cases hlookup
  obtain ⟨part, hpart, hrest⟩ := Option.bind_eq_some_iff.1 h
  obtain ⟨v, hv, hscalar⟩ := Option.bind_eq_some_iff.1 hrest
  obtain rfl : v = scalar x := Option.some.inj hscalar
  rw [settingText?, hfield hpart, Option.bind_some, hfield hv]
  rfl

theorem find?_defaults (setting : Setting) :
    find? setting.path defaults = some (scalar (.text setting.default)) := by
  cases setting <;> rfl

/-- What the last write that reaches a path says about it, if any write does. -/
inductive Says (q : List Text) : List Write → Option Scalar → Prop
  | silent {ws} (spares : ∀ w ∈ ws, w.Spares q) : Says q ws none
  | last {front w back x} (sets : w.Sets q x) (spares : ∀ w ∈ back, w.Spares q) :
    Says q (front ++ w :: back) (some x)

section Build

variable {root : FileTree} {layers before after : List Layer} {layer : Layer} {s : Settings}
  {ws front back : List Write} {w : Write} {setting : Setting} {x : Scalar} {said : Option Scalar}

theorem Says.settingText? {values : Value} (h : Says setting.path ws said)
    (hrun : runAll defaults ws = some values) :
    Settings.settingText? values setting.names.1 setting.names.2 =
      some ((said.map Scalar.toText).getD setting.default) := by
  cases h with
  | silent hws =>
    have hfind := (find?_runAll_of_spares hws hrun).trans (find?_defaults setting)
    exact settingText?_of_find? hfind
  | last hw hback => exact settingText?_of_find? (find?_runAll_of_last hw hback hrun)

/-- A setting is what the last write that reaches it says, and its default when none does. -/
theorem get_of_says (h : build? root layers = some s) (hwrites : writes? root layers = some ws)
    (htold : Says setting.path ws said) :
    s.get setting = (said.map Scalar.toText).getD setting.default := by
  rw [build?_eq, hwrites, Option.bind_some] at h
  obtain ⟨values, hvalues, hs⟩ := Option.bind_eq_some_iff.1 h
  have htext := ofValue?_eq_some_iff.1 hs setting
  rw [htold.settingText? hvalues] at htext
  exact (Option.some.inj htext).symm

/-- Layers that write along names only, and about no setting anything but a scalar at last, amount
to settings. -/
theorem exists_build (hwrites : writes? root layers = some ws)
    (hnames : ∀ w ∈ ws, ∃ p : List Text, w.steps = p.map .field)
    (htold : ∀ setting : Setting, ∃ said, Says setting.path ws said) :
    ∃ s, build? root layers = some s := by
  obtain ⟨values, hvalues⟩ := exists_runAll hnames defaults
  choose said hsaid using htold
  refine ⟨ofTexts fun setting => ((said setting).map Scalar.toText).getD setting.default, ?_⟩
  rw [build?_eq, hwrites, Option.bind_some, hvalues, Option.bind_some]
  refine ofValue?_eq_some_iff.2 fun setting => ?_
  rw [(hsaid setting).settingText? hvalues, get_ofTexts]

/-! ### Which layer wins -/

theorem mapM_eq_some_iff_split {f : Layer → Option (List Write)} {wss : List (List Write)} :
    (before ++ layer :: after).mapM f = some wss ↔
      ∃ wss₁ ws wss₂, before.mapM f = some wss₁ ∧ f layer = some ws ∧ after.mapM f = some wss₂ ∧
        wss = wss₁ ++ ws :: wss₂ := by
  rw [List.mapM_append, List.mapM_cons]
  simp only [Option.bind_eq_bind, Option.pure_def, Option.bind_eq_some_iff, Option.some.injEq]
  constructor
  · rintro ⟨wss₁, h₁, wss₂, ⟨ws, h, wss', h₂, rfl⟩, rfl⟩
    exact ⟨wss₁, ws, wss', h₁, h, h₂, rfl⟩
  · rintro ⟨wss₁, ws, wss₂, h₁, h, h₂, rfl⟩
    exact ⟨wss₁, h₁, ws :: wss₂, ⟨ws, h, wss₂, h₂, rfl⟩, rfl⟩

theorem exists_layer_of_mem {f : Layer → Option (List Write)} {wss : List (List Write)}
    (h : layers.mapM f = some wss) (hw : w ∈ wss.flatten) :
    ∃ layer ∈ layers, ∃ ws ∈ f layer, w ∈ ws := by
  induction layers generalizing wss with
  | nil =>
    obtain rfl := Option.some.inj h
    cases hw
  | cons layer layers ih =>
    obtain ⟨first, ws, wss', hnil, hlayer, hrest, rfl⟩ := mapM_eq_some_iff_split.1
      (show ([] ++ layer :: layers).mapM f = some wss from h)
    obtain rfl : [] = first := Option.some.inj hnil
    rw [List.nil_append, List.flatten_cons, List.mem_append] at hw
    rcases hw with hw | hw
    · exact ⟨layer, List.mem_cons_self, ws, hlayer, hw⟩
    · obtain ⟨other, hmem, hother⟩ := ih hrest hw
      exact ⟨other, List.mem_cons_of_mem layer hmem, hother⟩

/-- No write of the layers reaches the path. -/
def SparedBy (f : Layer → Option (List Write)) (layers : List Layer) (q : List Text) : Prop :=
  ∀ layer ∈ layers, ∀ ws ∈ f layer, ∀ w ∈ ws, w.Spares q

theorem SparedBy.flatten {f : Layer → Option (List Write)} {q : List Text}
    {wss : List (List Write)} (h : SparedBy f layers q) (hmap : layers.mapM f = some wss) :
    ∀ w ∈ wss.flatten, w.Spares q := by
  intro w hw
  obtain ⟨layer, hlayer, ws, hws, hmem⟩ := exists_layer_of_mem hmap hw
  exact h layer hlayer ws hws w hmem

theorem writes?_eq_some_iff :
    writes? root layers = some ws ↔ ∃ files singles, layers.mapM (layerWrites? root) = some files ∧
      layers.mapM singleWrites? = some singles ∧ files.flatten ++ singles.flatten = ws := by
  simp [writes?, Option.bind_eq_some_iff]

theorem exists_writes_of_build (h : build? root layers = some s) :
    ∃ ws, writes? root layers = some ws := by
  rw [build?_eq, Option.bind_assoc] at h
  obtain ⟨ws, hws, -⟩ := Option.bind_eq_some_iff.1 h
  exact ⟨ws, hws⟩

/-- A single value wins over every file, wherever its layer stands, and over the single values
before it. -/
theorem get_of_value {key : Text} (h : build? root (before ++ .value key x :: after) = some s)
    (hkey : Key.parse? key = some (setting.path.map .field))
    (hafter : SparedBy singleWrites? after setting.path) : s.get setting = x.toText := by
  obtain ⟨ws, hws⟩ := exists_writes_of_build h
  obtain ⟨files, singles, -, hsingles, hsplit⟩ := writes?_eq_some_iff.1 hws
  obtain ⟨first, one, rest, -, hone, hrest, rfl⟩ := mapM_eq_some_iff_split.1 hsingles
  rw [singleWrites?, hkey, Option.map_some] at hone
  obtain rfl := Option.some.inj hone
  rw [List.flatten_append, List.flatten_cons, ← List.append_assoc, List.singleton_append] at hsplit
  rw [← hsplit] at hws
  exact get_of_says h hws
    (.last (Write.sets_fields setting.path x) (hafter.flatten hrest))

/-- A file wins over the files before it, where no single value is given. -/
theorem get_of_file (h : build? root (before ++ layer :: after) = some s)
    (hlayer : layerWrites? root layer = some (front ++ w :: back)) (hw : w.Sets setting.path x)
    (hback : ∀ w ∈ back, w.Spares setting.path)
    (hafter : SparedBy (layerWrites? root) after setting.path)
    (hsingles : SparedBy singleWrites? (before ++ layer :: after) setting.path) :
    s.get setting = x.toText := by
  obtain ⟨ws, hws⟩ := exists_writes_of_build h
  obtain ⟨files, singles, hfiles, hmap, hsplit⟩ := writes?_eq_some_iff.1 hws
  obtain ⟨first, one, rest, -, hone, hrest, rfl⟩ := mapM_eq_some_iff_split.1 hfiles
  obtain rfl := Option.some.inj (hlayer.symm.trans hone)
  have hall : first.flatten ++ front ++ w :: (back ++ rest.flatten ++ singles.flatten) = ws := by
    rw [← hsplit]
    simp
  rw [← hall] at hws
  refine get_of_says h hws (.last hw ?_)
  refine List.forall_mem_append.2 ⟨List.forall_mem_append.2 ⟨hback, ?_⟩, ?_⟩
  · exact hafter.flatten hrest
  · exact hsingles.flatten hmap

/-- Settings are refused when one layer is missing or malformed, whatever the others are. -/
theorem build?_eq_none_of_layer (hmem : layer ∈ layers)
    (h : layerWrites? root layer = none ∨ singleWrites? layer = none) :
    build? root layers = none := by
  by_contra hbuild
  obtain ⟨s, hs⟩ := Option.ne_none_iff_exists'.1 hbuild
  obtain ⟨ws, hws⟩ := exists_writes_of_build hs
  obtain ⟨before, after, rfl⟩ := List.append_of_mem hmem
  obtain ⟨files, singles, hfiles, hsingles, -⟩ := writes?_eq_some_iff.1 hws
  obtain ⟨-, one, -, -, hone, -⟩ := mapM_eq_some_iff_split.1 hfiles
  obtain ⟨-, single, -, -, hsingle, -⟩ := mapM_eq_some_iff_split.1 hsingles
  rcases h with h | h
  · rw [h] at hone
    cases hone
  · rw [h] at hsingle
    cases hsingle

/-! ### A single value on top -/

theorem exists_field_of_fileWrites? {required : Bool} {path : Text}
    (h : fileWrites? required root path = some ws) :
    ∀ w ∈ ws, ∃ name rest, w.steps = .field name :: rest := by
  unfold fileWrites? at h
  split at h
  · cases required with
    | true => cases h
    | false =>
      obtain rfl := Option.some.inj h
      simp
  · obtain ⟨fields, -, rfl⟩ := Option.map_eq_some_iff.1 h
    exact List.forall_mem_map.2 fun f _ => Key.exists_field_ofName f.1

theorem exists_field_of_layerWrites? (h : layerWrites? root layer = some ws) :
    ∀ w ∈ ws, ∃ name rest, w.steps = .field name :: rest := by
  cases layer with
  | file path => exact exists_field_of_fileWrites? h
  | optionalFile path => exact exists_field_of_fileWrites? h
  | project directory => exact exists_field_of_fileWrites? h
  | value key x =>
    obtain rfl := Option.some.inj h
    simp

theorem exists_field_of_singleWrites? (h : singleWrites? layer = some ws) :
    ∀ w ∈ ws, ∃ name rest, w.steps = .field name :: rest := by
  cases layer with
  | value key x =>
    obtain ⟨steps, hsteps, rfl⟩ := Option.map_eq_some_iff.1 h
    simpa using Key.exists_field_of_parse? hsteps
  | _ =>
    obtain rfl := Option.some.inj h
    simp

/-- Whatever the layers write is written to a field at the top. -/
theorem exists_field_of_writes? (h : writes? root layers = some ws) :
    ∀ w ∈ ws, ∃ name rest, w.steps = .field name :: rest := by
  obtain ⟨files, singles, hfiles, hsingles, rfl⟩ := writes?_eq_some_iff.1 h
  intro w hw
  rcases List.mem_append.1 hw with hw | hw
  · obtain ⟨layer, -, ws, hws, hmem⟩ := exists_layer_of_mem hfiles hw
    exact exists_field_of_layerWrites? hws w hmem
  · obtain ⟨layer, -, ws, hws, hmem⟩ := exists_layer_of_mem hsingles hw
    exact exists_field_of_singleWrites? hws w hmem

theorem writes?_value (h : writes? root layers = some ws) (setting : Setting) (x : Scalar) :
    writes? root (layers ++ [.value setting.key x]) =
      some (ws ++ [⟨setting.path.map .field, scalar x⟩]) := by
  obtain ⟨files, singles, hfiles, hsingles, rfl⟩ := writes?_eq_some_iff.1 h
  refine writes?_eq_some_iff.2 ⟨files ++ [[]], singles ++ [[⟨setting.path.map .field, scalar x⟩]],
    mapM_eq_some_iff_split.2 ⟨files, [], [], hfiles, rfl, rfl, rfl⟩,
    mapM_eq_some_iff_split.2 ⟨singles, _, [], hsingles, ?_, rfl, rfl⟩, by simp⟩
  rw [singleWrites?, setting.parse?_key]
  rfl

/-- The settings are in tables of their own, so one can be put without the others being seen to
change. -/
theorem settingText?_put_of_ne {other : Setting} (hne : other ≠ setting) (x : Scalar)
    (fields : List (Text × Value)) :
    settingText? (put (scalar x) setting.path (table fields)) other.names.1 other.names.2 =
      settingText? (table fields) other.names.1 other.names.2 := by
  have hpart : other.names.1.toList ≠ setting.names.1.toList := by
    cases other <;> cases setting <;> first | exact absurd rfl hne | decide
  have hfield : (put (scalar x) setting.path (table fields)).setting? other.names.1 =
      (table fields).setting? other.names.1 := by
    rw [Setting.path, put]
    exact Entries.lookup_set_of_ne hpart _ fields
  rw [settingText?, settingText?, hfield]

/-- A single value that is added last sets its setting and no other. -/
theorem exists_build_value (h : build? root layers = some s) (setting : Setting) (x : Scalar) :
    ∃ s', build? root (layers ++ [.value setting.key x]) = some s' ∧ s'.get setting = x.toText ∧
      ∀ other, other ≠ setting → s'.get other = s.get other := by
  obtain ⟨ws, hws⟩ := exists_writes_of_build h
  rw [build?_eq, hws, Option.bind_some] at h
  obtain ⟨values, hvalues, hs⟩ := Option.bind_eq_some_iff.1 h
  obtain ⟨fields, rfl⟩ := exists_table_of_runAll (exists_field_of_writes? hws) hvalues
  refine ⟨ofTexts fun other => if other = setting then x.toText else s.get other, ?_, ?_, ?_⟩
  · rw [build?_eq, writes?_value hws, Option.bind_some, runAll_append, hvalues, Option.bind_some,
      runAll, List.foldlM_cons, Write.run, Key.assign_fields]
    refine ofValue?_eq_some_iff.2 fun other => ?_
    rw [get_ofTexts]
    by_cases hother : other = setting
    · rw [if_pos hother, hother]
      exact settingText?_of_find? (find?_put_scalar x setting.path _)
    · rw [if_neg hother, settingText?_put_of_ne hother]
      exact ofValue?_eq_some_iff.1 hs other
  · simp
  · intro other hother
    simp [hother]

end Build

end Gherkin.Settings
