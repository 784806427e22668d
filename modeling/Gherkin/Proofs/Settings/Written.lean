import Gherkin.Proofs.Settings.Layers
import Gherkin.Proofs.Settings.Toml.Written

/-! Settings that are written to a file. Whatever the settings are, a file with a table for each
part of them puts them in force, on top of whatever the files before it say. -/

namespace Gherkin.Settings

open Value

namespace Setting

/-- All settings. -/
def all : List Setting := [dialect, indent, extension]

theorem mem_all (setting : Setting) : setting ∈ all := by
  cases setting <;> decide

/-- The write of a file with the setting in its table. -/
def write (s : Settings) (setting : Setting) : Write :=
  ⟨[.field setting.names.1.toList],
    table [(setting.names.2.toList, scalar (.text (s.get setting)))]⟩

theorem leaves_write (s : Settings) (setting : Setting) :
    (setting.write s).leaves = [(setting.path, some (scalar (.text (s.get setting))))] := by
  have hleaves := Write.leaves_of_names
    (table [(setting.names.2.toList, scalar (.text (s.get setting)))]) [setting.names.1.toList]
  have hname : storedName setting.names.2.toList = setting.names.2.toList := by
    cases setting <;> decide
  have hscalar (x : Scalar) : (scalar x).leaves = [([], scalar x)] := by simp [Value.leaves]
  rw [Value.leaves, fieldLeaves, fieldLeaves, hscalar, hname] at hleaves
  exact hleaves

theorem sets_write (s : Settings) (setting : Setting) :
    (setting.write s).Sets setting.path (.text (s.get setting)) :=
  ⟨[], [], setting.leaves_write s, by simp⟩

theorem apart_path {setting other : Setting} (h : other ≠ setting) :
    Apart other.path setting.path := by
  revert h
  cases setting <;> cases other <;> decide

theorem spares_write (s : Settings) {setting other : Setting} (h : other ≠ setting) :
    (other.write s).Spares setting.path := by
  intro l hl
  rw [leaves_write, List.mem_singleton] at hl
  rw [hl]
  exact apart_path h

/-- The writes of all settings set each of them. -/
theorem find?_runAll_write {s : Settings} {old new : Value}
    (hrun : runAll old (all.map (write s)) = some new) (setting : Setting) :
    find? setting.path new = some (scalar (.text (s.get setting))) := by
  obtain ⟨front, back, hall⟩ := List.append_of_mem setting.mem_all
  have hnodup : (front ++ setting :: back).Nodup := hall ▸ (by decide : all.Nodup)
  have hback : ∀ w ∈ back.map (write s), w.Spares setting.path := by
    refine List.forall_mem_map.2 fun other hother => spares_write s ?_
    rintro rfl
    exact (List.nodup_cons.1 (List.nodup_append.1 hnodup).2.1).1 hother
  rw [hall, List.map_append, List.map_cons] at hrun
  exact find?_runAll_of_last (setting.sets_write s) hback hrun

end Setting

/-- The text of a settings file. -/
def written (s : Settings) : Text :=
  Toml.write (Setting.all.map fun setting =>
    (setting.names.1.toList, [(setting.names.2.toList, s.get setting)]))

theorem parse?_written (s : Settings) :
    Toml.parse? s.written = some (Setting.all.map fun setting =>
      (setting.names.1.toList,
        table [(setting.names.2.toList, scalar (.text (s.get setting)))])) := by
  rw [written, Toml.parse?_write]
  · rfl
  · rw [List.map_map]
    exact (by decide : (Setting.all.map fun setting => setting.names.1.toList).Nodup)
  · simp

section File

variable {root : FileTree} {layers : List Layer} {path : Text} {s before : Settings}

theorem fileWrites?_written (required : Bool) (h : fileText? root path = some s.written) :
    fileWrites? required root path = some (Setting.all.map (Setting.write s)) := by
  have hnames : ∀ setting : Setting, Key.ofName setting.names.1.toList =
      [.field setting.names.1.toList] := by
    intro setting
    cases setting <;> decide
  simp [fileWrites?, h, parse?_written, Setting.write, hnames]

/-- Settings that a file is written from are in force, whatever the files before it say. -/
theorem build?_written (h : build? root layers = some before)
    (hfiles : ∀ key x, Layer.value key x ∉ layers) (hfile : fileText? root path = some s.written) :
    build? root (layers ++ [.file path]) = some s := by
  obtain ⟨ws, hws⟩ := exists_writes_of_build h
  obtain ⟨files, singles, hread, hsingles, rfl⟩ := writes?_eq_some_iff.1 hws
  have hnone : singles.flatten = [] := by
    refine List.eq_nil_iff_forall_not_mem.2 fun w hw => ?_
    obtain ⟨layer, hlayer, ws, hws, hmem⟩ := exists_layer_of_mem hsingles hw
    cases layer with
    | value key x => exact hfiles key x hlayer
    | _ =>
      obtain rfl := Option.some.inj hws
      cases hmem
  have hall : writes? root (layers ++ [.file path]) =
      some (files.flatten ++ singles.flatten ++ Setting.all.map (Setting.write s)) := by
    refine writes?_eq_some_iff.2 ⟨files ++ [Setting.all.map (Setting.write s)], singles ++ [[]],
      mapM_eq_some_iff_split.2 ⟨files, _, [], hread, fileWrites?_written true hfile, rfl, rfl⟩,
      mapM_eq_some_iff_split.2 ⟨singles, [], [], hsingles, rfl, rfl, rfl⟩, ?_⟩
    simp [hnone]
  rw [build?_eq, hws, Option.bind_some] at h
  obtain ⟨values, hvalues, -⟩ := Option.bind_eq_some_iff.1 h
  have hnames : ∀ w ∈ Setting.all.map (Setting.write s), ∃ p : List Text, w.steps = p.map .field :=
    List.forall_mem_map.2 fun setting _ => ⟨[setting.names.1.toList], rfl⟩
  obtain ⟨new, hnew⟩ := exists_runAll hnames values
  rw [build?_eq, hall, Option.bind_some, runAll_append, hvalues, Option.bind_some, hnew]
  exact ofValue?_eq_some_iff.2 fun setting =>
    settingText?_of_find? (Setting.find?_runAll_write hnew setting)

end File

end Gherkin.Settings
