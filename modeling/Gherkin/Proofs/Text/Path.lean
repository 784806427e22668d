import Gherkin.Element.Equality

/-! The plain spelling of a path. It has the components of the path and none of the slashes and dots
that do not count, so two paths are the same exactly when their plain spellings are. -/

namespace Gherkin.Path

variable {t : Text} {c : Component} {cs : List Component}

/-- The part that stands for a component. -/
def Component.part : Component → Text
  | root => []
  | here => ['.']
  | up => ['.', '.']
  | name n => n

/-- A component that can stand anywhere in a path. -/
structure Component.Plain (c : Component) : Prop where
  reads : component? c.part = some c
  slash : '/' ∉ c.part

/-- Components written as a path. A root alone is a slash. -/
def spell : List Component → Text
  | [.root] => ['/']
  | cs => Text.joinWith '/' (cs.map Component.part)

/-- A path without the slashes and dots that do not count. -/
def normal (path : Text) : Text := spell (components path)

theorem part_of_component? (h : component? t = some c) : c.part = t := by
  unfold component? at h
  split at h
  · cases h
  · split at h
    · next hup =>
      obtain rfl := Option.some.inj h
      exact hup.symm
    · obtain rfl := Option.some.inj h
      rfl

theorem plain_of_component? (h : component? t = some c) (hslash : '/' ∉ t) : c.Plain := by
  have hpart := part_of_component? h
  exact ⟨by rw [hpart, h], by rwa [hpart]⟩

theorem components_cases (path : Text) : ∃ cs : List Component, (∀ c ∈ cs, c.Plain) ∧
    (components path = .root :: cs ∨ components path = .here :: cs ∨ components path = cs) := by
  have hplain : ∀ ps : List Text, (∀ p ∈ ps, p ∈ parts path) →
      ∀ c ∈ ps.filterMap component?, c.Plain := by
    intro ps hps c hc
    obtain ⟨p, hp, hread⟩ := List.mem_filterMap.1 hc
    exact plain_of_component? hread (Text.not_mem_of_mem_splitOn (hps p hp))
  unfold components
  split
  · next next rest hparts =>
    refine ⟨_, hplain (next :: rest) (fun p hp => ?_), .inl rfl⟩
    exact hparts ▸ List.mem_cons_of_mem _ hp
  · next rest hparts =>
    refine ⟨_, hplain rest (fun p hp => ?_), .inr (.inl rfl)⟩
    exact hparts ▸ List.mem_cons_of_mem _ hp
  · exact ⟨_, hplain (parts path) (fun _ hp => hp), .inr (.inr rfl)⟩

theorem filterMap_part (h : ∀ c ∈ cs, c.Plain) :
    (cs.map Component.part).filterMap component? = cs := by
  induction cs with
  | nil => rfl
  | cons c cs ih =>
    obtain ⟨hc, hcs⟩ := List.forall_mem_cons.1 h
    rw [List.map_cons, List.filterMap_cons_some hc.reads, ih hcs]

theorem parts_joinWith {first : Text} (hfirst : '/' ∉ first) (h : ∀ c ∈ cs, c.Plain) :
    parts (Text.joinWith '/' (first :: cs.map Component.part)) =
      first :: cs.map Component.part := by
  refine Text.splitOn_joinWith first _ (List.forall_mem_cons.2 ⟨hfirst, fun p hp => ?_⟩)
  obtain ⟨c, hc, rfl⟩ := List.mem_map.1 hp
  exact (h c hc).slash

theorem components_spell_root (h : ∀ c ∈ cs, c.Plain) :
    components (spell (.root :: cs)) = .root :: cs := by
  cases cs with
  | nil => rfl
  | cons c cs =>
    have hparts : parts (spell (.root :: c :: cs)) = [] :: c.part :: cs.map Component.part :=
      parts_joinWith List.not_mem_nil h
    unfold components
    rw [hparts]
    exact congrArg (Component.root :: ·) (filterMap_part h)

theorem components_spell_here (h : ∀ c ∈ cs, c.Plain) :
    components (spell (.here :: cs)) = .here :: cs := by
  have hparts : parts (spell (.here :: cs)) = ['.'] :: cs.map Component.part :=
    parts_joinWith (by decide) h
  unfold components
  rw [hparts]
  exact congrArg (Component.here :: ·) (filterMap_part h)

theorem components_spell_plain (h : ∀ c ∈ cs, c.Plain) : components (spell cs) = cs := by
  cases cs with
  | nil => rfl
  | cons c cs =>
    obtain ⟨hc, hcs⟩ := List.forall_mem_cons.1 h
    have hroot : c.part ≠ [] := fun hnil => by
      have hread := hc.reads
      rw [hnil] at hread
      cases hread
    have hhere : c.part ≠ ['.'] := fun hdot => by
      have hread := hc.reads
      rw [hdot] at hread
      cases hread
    have hspell : spell (c :: cs) = Text.joinWith '/' ((c :: cs).map Component.part) := by
      unfold spell
      split
      · next heq =>
        obtain rfl := (List.cons.inj heq).1
        exact absurd rfl hroot
      · rfl
    have hparts : parts (spell (c :: cs)) = c.part :: cs.map Component.part :=
      hspell ▸ parts_joinWith hc.slash hcs
    unfold components
    rw [hparts]
    split
    · next heq => exact absurd (List.cons.inj heq).1 hroot
    · next heq => exact absurd (List.cons.inj heq).1 hhere
    · exact filterMap_part h

theorem components_normal (path : Text) : components (normal path) = components path := by
  obtain ⟨cs, hplain, hroot | hhere | hall⟩ := components_cases path
  · rw [normal, hroot, components_spell_root hplain]
  · rw [normal, hhere, components_spell_here hplain]
  · rw [normal, hall, components_spell_plain hplain]

theorem normal_normal (path : Text) : normal (normal path) = normal path :=
  congrArg spell (components_normal path)

theorem equal_iff {p q : Text} : equal p q ↔ normal p = normal q := by
  rw [equal, beq_iff_eq]
  constructor
  · intro h
    rw [normal, normal, h]
  · intro h
    rw [← components_normal p, h, components_normal q]

end Gherkin.Path
