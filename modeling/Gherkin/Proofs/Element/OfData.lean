import Mathlib.Data.Nat.Notation
import Gherkin.Proofs.Element.Forget
import Gherkin.Snippet

/-! An element read from data is the same, but for its origin, whichever excerpt it is taken from
and however the lines in the data are counted. -/

namespace Gherkin

/-! ### Lowered lines -/

namespace Data

variable (n : ℕ)

theorem lookup_lowerFields {key : String} (hkey : key ≠ "location")
    (fields : List (String × Data)) :
    (lowerFields n fields).lookup key = (fields.lookup key).map (lowerLines n) := by
  induction fields with
  | nil => rfl
  | cons field fields ih =>
    obtain ⟨name, value⟩ := field
    rw [lowerFields, List.lookup_cons, List.lookup_cons]
    by_cases h : key = name
    · subst h
      simp [hkey]
    · have hne : (key == name) = false := by simpa using h
      simp only [hne, ih]

theorem field?_lowerLines {key : String} (hkey : key ≠ "location") (d : Data) :
    (d.lowerLines n).field? key = (d.field? key).map (lowerLines n) := by
  cases d with
  | record fields =>
    rw [lowerLines, field?_record, field?_record, lookup_lowerFields n hkey]
  | _ => rfl

@[simp] theorem text?_lowerLines (d : Data) : (d.lowerLines n).text? = d.text? := by
  cases d <;> rfl

@[simp] theorem isNull_lowerLines (d : Data) : (d.lowerLines n).isNull = d.isNull := by
  cases d <;> rfl

theorem lowerItems_eq_map (items : List Data) :
    lowerItems n items = items.map (lowerLines n) := by
  induction items with
  | nil => rfl
  | cons d ds ih => rw [lowerItems, ih, List.map_cons]

@[simp] theorem items_lowerLines (d : Data) : (d.lowerLines n).items = d.items.map (lowerLines n) := by
  cases d with
  | list items => exact lowerItems_eq_map n items
  | _ => rfl

theorem field_lowerLines {key : String} (hkey : key ≠ "location") (d : Data) :
    (d.lowerLines n).field key = (d.field key).lowerLines n := by
  rw [field, field, field?_lowerLines n hkey]
  cases d.field? key <;> rfl

theorem itemsAt_lowerLines {key : String} (hkey : key ≠ "location") (d : Data) :
    (d.lowerLines n).itemsAt key = (d.itemsAt key).map (lowerLines n) := by
  rw [itemsAt, field_lowerLines n hkey, items_lowerLines, itemsAt]

theorem bind_text?_lowerLines {key : String} (hkey : key ≠ "location") (d : Data) :
    ((d.lowerLines n).field? key).bind text? = (d.field? key).bind text? := by
  rw [field?_lowerLines n hkey]
  cases d.field? key <;> simp

theorem textAt_lowerLines {key : String} (hkey : key ≠ "location") (d : Data) :
    (d.lowerLines n).textAt key = d.textAt key := by
  rw [textAt, textAt, bind_text?_lowerLines n hkey]

theorem hasType_lowerLines (d : Data) (type : String) :
    (d.lowerLines n).hasType type = d.hasType type := by
  rw [hasType, hasType, type?, type?, bind_text?_lowerLines n (by decide)]

theorem present?_lowerLines {key : String} (hkey : key ≠ "location") (d : Data) :
    (d.lowerLines n).present? key = (d.present? key).map (lowerLines n) := by
  rw [present?, present?, field?_lowerLines n hkey]
  cases hd : d.field? key with
  | none => rfl
  | some value => by_cases hnull : value.isNull <;> simp [Option.filter, hnull]

theorem rowsAt_lowerLines (d : Data) : (d.lowerLines n).rowsAt = d.rowsAt := by
  rw [rowsAt, rowsAt, itemsAt_lowerLines n (by decide), List.map_map]
  refine List.map_congr_left fun row _ => ?_
  rw [Function.comp_apply, itemsAt_lowerLines n (by decide), List.map_map]
  exact List.map_congr_left fun cell _ => by rw [Function.comp_apply, text?_lowerLines]

theorem descriptionAt_lowerLines (d : Data) : (d.lowerLines n).descriptionAt = d.descriptionAt := by
  rw [descriptionAt, descriptionAt, bind_text?_lowerLines n (by decide)]

/-! ### Lines lowered by nothing -/

theorem eq_nat_of_nat? {d : Data} {n : ℕ} (h : d.nat? = some n) : d = nat n := by
  unfold nat? at h
  split at h
  · obtain rfl := Option.some.inj h
    rfl
  · cases h

theorem lowerLine_zero (d : Data) : lowerLine 0 d = d := by
  cases d with
  | record fields =>
    refine congrArg record (List.map_id'' (fun f => ?_) fields)
    split
    · next n hkey hn => exact Prod.ext rfl (eq_nat_of_nat? hn).symm
    · rfl
  | _ => rfl

mutual

theorem lowerLines_zero : (d : Data) → d.lowerLines 0 = d
  | .record fields => congrArg record (lowerFields_zero fields)
  | .list items => congrArg list (lowerItems_zero items)
  | .null | .bool _ | .number _ _ | .text _ => rfl

theorem lowerFields_zero : (fields : List (String × Data)) → lowerFields 0 fields = fields
  | [] => rfl
  | (key, value) :: fields => by
    rw [lowerFields, lowerFields_zero fields, lowerLines_zero value, lowerLine_zero, ite_self]

theorem lowerItems_zero : (items : List Data) → lowerItems 0 items = items
  | [] => rfl
  | d :: ds => by rw [lowerItems, lowerLines_zero d, lowerItems_zero ds]

end

end Data

/-! ### Excerpts -/

/-- Whether lines are lowered and which excerpt a node is read from show only in its origin. -/
def Unplaced {α : Type} (forget : α → α) (ofData : Excerpt → Data → α) : Prop :=
  ∀ e e' n d, forget (ofData e (d.lowerLines n)) = forget (ofData e' d)

theorem map_zipWith {α β γ : Type} {f : γ → Excerpt → α} {g : α → β} {h : γ → β}
    (heq : ∀ d e, g (f d e) = h d) (ds : List γ) {es : List Excerpt} (hlen : ds.length ≤ es.length) :
    (ds.zipWith f es).map g = ds.map h := by
  induction ds generalizing es with
  | nil => rfl
  | cons d ds ih => cases es with
    | nil => simp at hlen
    | cons e es => simp [heq, @ih es (by simpa using hlen)]

/-- Nodes read from excerpts of their own, of which there are enough. -/
theorem Unplaced.zipWith {α : Type} {forget : α → α} {ofData : Excerpt → Data → α}
    (h : Unplaced forget ofData) (n : ℕ) (ds : List Data) (es es' : List Excerpt)
    (hlen : ds.length ≤ es.length) (hlen' : ds.length ≤ es'.length) :
    ((ds.map (Data.lowerLines n)).zipWith (fun node part => ofData part node) es).map forget =
      (ds.zipWith (fun node part => ofData part node) es').map forget := by
  rw [List.zipWith_map_left, map_zipWith (fun d e => h e (.whole []) n d) ds hlen,
    map_zipWith (fun d e => (h (.whole []) e 0 d).symm.trans (h (.whole []) (.whole []) 0 d)) ds hlen']

theorem length_splitAt (e : Excerpt) (nodes : List Data) : (e.splitAt nodes).length = nodes.length := by
  rw [Excerpt.splitAt, Excerpt.length_split, List.length_map]

theorem Tag.unplaced : Unplaced Tag.forget Tag.ofData := by
  intro e e' n d
  simp [Tag.forget, Tag.ofData, Data.textAt_lowerLines]

theorem Comment.unplaced : Unplaced Comment.forget Comment.ofData := by
  intro e e' n d
  simp [Comment.forget, Comment.ofData, Data.textAt_lowerLines]

theorem Tag.listOfData_unplaced (e e' : Excerpt) (n : ℕ) (d : Data) :
    (Tag.listOfData e (d.lowerLines n)).map Tag.forget = (Tag.listOfData e' d).map Tag.forget := by
  rw [Tag.listOfData, Tag.listOfData, Data.itemsAt_lowerLines n (by decide), List.map_map,
    List.map_map, List.map_map]
  exact List.map_congr_left fun t _ => Tag.unplaced _ _ n t

theorem StepBlock.ofData?_lowerLines (n : ℕ) (d : Data) :
    StepBlock.ofData? (d.lowerLines n) = StepBlock.ofData? d := by
  simp only [StepBlock.ofData?, Data.hasType_lowerLines, Data.rowsAt_lowerLines]
  rw [Data.textAt_lowerLines n (by decide), Data.bind_text?_lowerLines n (by decide)]

theorem Step.unplaced : Unplaced Step.forget Step.ofData := by
  intro e e' n d
  have hblock : ((d.lowerLines n).field? "block").bind StepBlock.ofData? =
      (d.field? "block").bind StepBlock.ofData? := by
    rw [Data.field?_lowerLines n (by decide)]
    cases d.field? "block" <;> simp [StepBlock.ofData?_lowerLines]
  simp only [Step.forget, Step.ofData, hblock]
  rw [Data.textAt_lowerLines n (by decide), Data.textAt_lowerLines n (by decide)]

theorem Step.listOfData_unplaced (e e' : Excerpt) (n : ℕ) (d : Data) (later later' : List Data) :
    (Step.listOfData e (d.lowerLines n) later).map Step.forget =
      (Step.listOfData e' d later').map Step.forget := by
  simp only [Step.listOfData]
  rw [Data.itemsAt_lowerLines n (by decide)]
  exact Step.unplaced.zipWith n _ _ _ (by simp [length_splitAt]) (by simp [length_splitAt])

theorem Heading.ofData_lowerLines (n : ℕ) (d : Data) :
    Heading.ofData (d.lowerLines n) = Heading.ofData d := by
  rw [Heading.ofData, Heading.ofData, Data.textAt_lowerLines n (by decide),
    Data.textAt_lowerLines n (by decide), Data.descriptionAt_lowerLines]

theorem Background.unplaced : Unplaced Background.forget Background.ofData := by
  intro e e' n d
  simp only [Background.forget, Background.ofData, Heading.ofData_lowerLines]
  rw [Step.listOfData_unplaced e e' n d [] []]

theorem Scenario.unplaced : Unplaced Scenario.forget Scenario.ofData := by
  intro e e' n d
  simp only [Scenario.forget, Scenario.ofData, Heading.ofData_lowerLines]
  rw [Step.listOfData_unplaced e e' n d [] [], Tag.listOfData_unplaced e e' n d]

theorem Example.unplaced : Unplaced Example.forget Example.ofData := by
  intro e e' n d
  simp only [Example.forget, Example.ofData, Heading.ofData_lowerLines, Data.rowsAt_lowerLines]
  rw [Tag.listOfData_unplaced e e' n d]

theorem Outline.unplaced : Unplaced Outline.forget Outline.ofData := by
  intro e e' n d
  simp only [Outline.forget, Outline.ofData, Heading.ofData_lowerLines]
  rw [Step.listOfData_unplaced e e' n d _ (d.itemsAt "examples"), Tag.listOfData_unplaced e e' n d,
    Data.itemsAt_lowerLines n (by decide),
    Example.unplaced.zipWith n (d.itemsAt "examples") _ (e'.splitAt (d.itemsAt "examples"))
      (by simp [length_splitAt]) (by simp [length_splitAt])]

theorem Test.unplaced : Unplaced Test.forget Test.ofData := by
  intro e e' n d
  simp only [Test.ofData, Data.hasType_lowerLines]
  split
  · exact congrArg Test.outline (Outline.unplaced e e' n d)
  · exact congrArg Test.scenario (Scenario.unplaced e e' n d)

theorem Feature.unplaced : Unplaced Feature.forget Feature.ofData := by
  intro e e' n d
  have hlist : ((d.present? "background").map (Data.lowerLines n)).toList =
      (d.present? "background").toList.map (Data.lowerLines n) := by
    cases d.present? "background" <;> rfl
  simp only [Feature.forget, Feature.ofData, Heading.ofData_lowerLines]
  rw [Data.present?_lowerLines n (by decide), Data.itemsAt_lowerLines n (by decide),
    Data.itemsAt_lowerLines n (by decide), Data.textAt_lowerLines n (by decide),
    Tag.listOfData_unplaced e e' n d, hlist, ← List.head?_map, ← List.head?_map,
    Background.unplaced.zipWith n _ _
      (e'.splitAt ((d.present? "background").toList ++ d.itemsAt "elements"))
      (by simp [length_splitAt]) (by simp [length_splitAt]),
    Test.unplaced.zipWith n _ _
      ((e'.splitAt ((d.present? "background").toList ++ d.itemsAt "elements")).drop
        (d.present? "background").toList.length)
      (by simp [length_splitAt]) (by simp [length_splitAt]),
    List.map_map, List.map_map, List.map_map]
  have hcomments : (d.itemsAt "comments").map
        ((Comment.forget ∘ fun c => Comment.ofData (e.lineOf c) c) ∘ Data.lowerLines n) =
      (d.itemsAt "comments").map (Comment.forget ∘ fun c => Comment.ofData (e'.lineOf c) c) :=
    List.map_congr_left fun c _ => Comment.unplaced _ _ n c
  rw [hcomments]

end Gherkin
