import Gherkin.Proofs.Settings.Toml.Document

/-! No table that is read from a settings file has a name twice, at whatever depth it stands: a key
is given a value only once, a table has one header only, and what is opened again is filled, not
made anew. -/

namespace Gherkin.Settings

/-- No table has a name twice, at any depth. -/
inductive Value.Distinct : Value → Prop
  | missing : Distinct missing
  | scalar (x : Scalar) : Distinct (scalar x)
  | list {items} (values : ∀ v ∈ items, Distinct v) : Distinct (list items)
  | table {fields} (names : (fields.map Prod.fst).Nodup) (values : ∀ f ∈ fields, Distinct f.2) :
    Distinct (table fields)

namespace Value.Distinct

variable {v : Value} {name : Text} {fields : List (Text × Value)} {items : List Value}

theorem of_lookup (h : (Value.table fields).Distinct) (hlookup : fields.lookup name = some v) :
    v.Distinct := by
  cases h with
  | table names values => exact values (name, v) (Entries.mem_of_lookup hlookup)

theorem set (h : (Value.table fields).Distinct) (hv : v.Distinct) (name : Text) :
    (Value.table (Entries.set name v fields)).Distinct := by
  cases h with
  | table names values =>
    refine .table (Entries.nodup_set names) fun f hf => ?_
    rcases Entries.mem_of_mem_set hf with rfl | hf
    · exact hv
    · exact values f hf

theorem concat (h : ∀ w ∈ items, w.Distinct) (hv : v.Distinct) :
    (Value.list (items ++ [v])).Distinct := by
  refine .list fun w hw => ?_
  rcases List.mem_append.1 hw with hw | hw
  · exact h w hw
  · rw [List.mem_singleton.1 hw]
    exact hv

theorem empty : (Value.table []).Distinct := .table List.nodup_nil (by simp)

end Value.Distinct

namespace Toml

open Value

/-! ### Tables as they are filled -/

section Alter

variable {fresh origin : Origin} {name : Text} {path : List Text} {key : Key} {v : Value}
  {change : Origin → List (Text × Item) → Option (List (Text × Item))}
  {fields new root : List (Text × Item)}

theorem distinct_of_lookup {i : Item} (h : (content fields).Distinct)
    (hlookup : fields.lookup name = some i) : i.toValue.Distinct := by
  have hvalue : (Item.fieldValues fields).lookup name = some i.toValue := by
    rw [Item.lookup_fieldValues, hlookup]
    rfl
  exact h.of_lookup hvalue

theorem distinct_set {i : Item} (h : (content fields).Distinct) (hi : i.toValue.Distinct) :
    (content (Entries.set name i fields)).Distinct := by
  rw [content_set]
  exact h.set hi name

theorem distinct_of_tables {earlier : List Value} {last : List (Text × Item)}
    (h : (Item.tables earlier last).toValue.Distinct) :
    (∀ v ∈ earlier, v.Distinct) ∧ (content last).Distinct := by
  rw [Item.toValue] at h
  cases h with
  | list values =>
    exact ⟨fun v hv => values v (List.mem_append_left _ hv), values _ (by simp [content])⟩

theorem alter_distinct
    (hchange : ∀ origin old new, change origin old = some new →
      (content old).Distinct → (content new).Distinct)
    (h : alter fresh change path origin fields = some new) (hfields : (content fields).Distinct) :
    (content new).Distinct := by
  refine alter_lift (R := fun _ old new => (content old).Distinct → (content new).Distinct)
    hchange ?_ h hfields
  intro name path fields old hold next hholds hnext hfields
  generalize hfound : fields.lookup name = found at hholds
  cases hholds with
  | made => exact distinct_set hfields (hnext .empty)
  | table => exact distinct_set hfields (hnext (distinct_of_lookup hfields hfound))
  | last =>
    obtain ⟨hearlier, hlast⟩ := distinct_of_tables (distinct_of_lookup hfields hfound)
    exact distinct_set hfields (.concat hearlier (hnext hlast))

theorem assign_distinct (h : assign key v origin fields = some new) (hv : v.Distinct)
    (hfields : (content fields).Distinct) : (content new).Distinct := by
  refine alter_distinct (fun inner old next hnext hold => ?_) h hfields
  split at hnext
  · obtain rfl := Option.some.inj hnext
    exact distinct_set hold hv
  · cases hnext

theorem openTable_distinct (h : openTable key root = some new) (hroot : (content root).Distinct) :
    (content new).Distinct := by
  refine alter_distinct (fun inner old next hnext hold => ?_) h hroot
  split at hnext
  · obtain rfl := Option.some.inj hnext
    exact distinct_set hold .empty
  · next fields hfields =>
    obtain rfl := Option.some.inj hnext
    have hvalue := distinct_of_lookup hold hfields
    exact distinct_set hold hvalue
  · cases hnext

theorem openNext_distinct (h : openNext key root = some new) (hroot : (content root).Distinct) :
    (content new).Distinct := by
  refine alter_distinct (fun inner old next hnext hold => ?_) h hroot
  split at hnext
  · obtain rfl := Option.some.inj hnext
    exact distinct_set hold (.concat (by simp) .empty)
  · next earlier last hfields =>
    obtain rfl := Option.some.inj hnext
    have hlist := distinct_of_lookup hold hfields
    rw [Item.toValue] at hlist
    cases hlist with
    | list values => exact distinct_set hold (.concat values .empty)
  · cases hnext

end Alter

/-! ### Values -/

section Values

variable {read : Text → Option (Value × Text)} {t rest : Text}

theorem items?_distinct (hread : ∀ t v rest, read t = some (v, rest) → v.Distinct) (fuel : ℕ)
    {items : List Value} (h : items? read fuel t = some (items, rest)) :
    ∀ v ∈ items, v.Distinct := by
  induction fuel generalizing t items rest with
  | zero => cases h
  | succ fuel ih =>
    rw [items?] at h
    split at h
    · obtain ⟨rfl, -⟩ := Prod.mk.inj (Option.some.inj h)
      simp
    · obtain ⟨⟨v, after⟩, hv, hrest⟩ := Option.bind_eq_some_iff.1 h
      have hdistinct := hread _ v after hv
      dsimp only at hrest
      split at hrest
      · obtain ⟨⟨more, last⟩, hmore, hpair⟩ := Option.map_eq_some_iff.1 hrest
        obtain ⟨rfl, -⟩ := Prod.mk.inj hpair
        exact List.forall_mem_cons.2 ⟨hdistinct, ih hmore⟩
      · obtain ⟨rfl, -⟩ := Prod.mk.inj (Option.some.inj hrest)
        exact List.forall_mem_singleton.2 hdistinct
      · cases hrest

theorem pair?_distinct (hread : ∀ t v rest, read t = some (v, rest) → v.Distinct)
    {pair : Key × Value} (h : pair? read t = some (pair, rest)) : pair.2.Distinct := by
  simp only [pair?, Option.bind_eq_bind, Option.bind_eq_some_iff] at h
  obtain ⟨⟨key, t₁⟩, -, t₂, -, ⟨v, t₃⟩, hv, hpair⟩ := h
  obtain ⟨rfl, -⟩ := Prod.mk.inj (Option.some.inj hpair)
  exact hread _ v t₃ hv

theorem pairs?_distinct (hread : ∀ t v rest, read t = some (v, rest) → v.Distinct) (fuel : ℕ)
    {pairs : List (Key × Value)} (h : pairs? read fuel t = some (pairs, rest)) :
    ∀ p ∈ pairs, p.2.Distinct := by
  induction fuel generalizing t pairs rest with
  | zero => cases h
  | succ fuel ih =>
    rw [pairs?] at h
    obtain ⟨⟨pair, after⟩, hpair, hrest⟩ := Option.bind_eq_some_iff.1 h
    have hdistinct := pair?_distinct hread hpair
    dsimp only at hrest
    split at hrest
    · obtain ⟨⟨more, last⟩, hmore, hlist⟩ := Option.map_eq_some_iff.1 hrest
      obtain ⟨rfl, -⟩ := Prod.mk.inj hlist
      exact List.forall_mem_cons.2 ⟨hdistinct, ih hmore⟩
    · obtain ⟨rfl, -⟩ := Prod.mk.inj (Option.some.inj hrest)
      exact List.forall_mem_singleton.2 hdistinct
    · cases hrest

theorem foldlM_assign_distinct {pairs : List (Key × Value)} {fields new : List (Text × Item)}
    (h : pairs.foldlM (fun fields pair => assign pair.1 pair.2 .header fields) fields = some new)
    (hpairs : ∀ p ∈ pairs, p.2.Distinct) (hfields : (content fields).Distinct) :
    (content new).Distinct := by
  induction pairs generalizing fields with
  | nil =>
    obtain rfl := Option.some.inj h
    exact hfields
  | cons pair pairs ih =>
    obtain ⟨hpair, hmore⟩ := List.forall_mem_cons.1 hpairs
    rw [List.foldlM_cons] at h
    obtain ⟨mid, hmid, hrest⟩ := Option.bind_eq_some_iff.1 h
    exact ih hrest hmore (assign_distinct hmid hpair hfields)

theorem ofPairs?_distinct {pairs : List (Key × Value)} {v : Value} (h : ofPairs? pairs = some v)
    (hpairs : ∀ p ∈ pairs, p.2.Distinct) : v.Distinct := by
  obtain ⟨fields, hfields, rfl⟩ := Option.map_eq_some_iff.1 h
  exact foldlM_assign_distinct hfields hpairs .empty

theorem value?_distinct (depth : ℕ) {v : Value} (h : value? depth t = some (v, rest)) :
    v.Distinct := by
  induction depth generalizing t v rest with
  | zero =>
    obtain ⟨⟨x, after⟩, -, hv⟩ := Option.map_eq_some_iff.1 h
    obtain ⟨rfl, -⟩ := Prod.mk.inj hv
    exact .scalar x
  | succ depth ih =>
    have hread (t : Text) (v : Value) (rest : Text) : value? depth t = some (v, rest) → v.Distinct :=
      ih
    unfold value? at h
    split at h
    · next inner after hdepth =>
      obtain rfl := Nat.succ.inj hdepth
      obtain ⟨⟨items, after⟩, hitems, hv⟩ := Option.map_eq_some_iff.1 h
      obtain ⟨rfl, -⟩ := Prod.mk.inj hv
      exact .list (items?_distinct hread _ hitems)
    · next inner after hdepth =>
      obtain rfl := Nat.succ.inj hdepth
      split at h
      · obtain ⟨rfl, -⟩ := Prod.mk.inj (Option.some.inj h)
        exact .empty
      · simp only [Option.bind_eq_bind, Option.bind_eq_some_iff] at h
        obtain ⟨⟨pairs, after⟩, hpairs, table, htable, hv⟩ := h
        obtain ⟨rfl, -⟩ := Prod.mk.inj (Option.some.inj hv)
        exact ofPairs?_distinct htable (pairs?_distinct hread _ hpairs)
    · obtain ⟨⟨x, after⟩, -, hv⟩ := Option.map_eq_some_iff.1 h
      obtain ⟨rfl, -⟩ := Prod.mk.inj hv
      exact .scalar x

end Values

/-! ### Files -/

theorem header?_ne_pair {t rest : Text} {e : Entry} (h : header? t = some (e, rest)) (key : Key)
    (v : Value) : e ≠ .pair key v := by
  unfold header? at h
  split at h
  · simp only [Option.bind_eq_bind, Option.bind_eq_some_iff] at h
    obtain ⟨⟨other, t₁⟩, -, t₂, -, he⟩ := h
    obtain ⟨rfl, -⟩ := Prod.mk.inj (Option.some.inj he)
    exact nofun
  · simp only [Option.bind_eq_bind, Option.bind_eq_some_iff] at h
    obtain ⟨⟨other, t₁⟩, -, t₂, -, he⟩ := h
    obtain ⟨rfl, -⟩ := Prod.mk.inj (Option.some.inj he)
    exact nofun

theorem eq_of_lineEnd? {found : Option (Entry × Text)} {e : Entry} {rest : Text}
    (h : (found.bind fun p => (lineEnd? p.2).bind fun rest => some (p.1, rest)) = some (e, rest)) :
    ∃ after, found = some (e, after) := by
  obtain ⟨⟨other, after⟩, hfound, hrest⟩ := Option.bind_eq_some_iff.1 h
  obtain ⟨last, -, hpair⟩ := Option.bind_eq_some_iff.1 hrest
  obtain ⟨rfl, -⟩ := Prod.mk.inj (Option.some.inj hpair)
  exact ⟨after, hfound⟩

/-- What an entry can be. -/
theorem entry?_cases {t rest : Text} {e : Entry} (h : entry? t = some (e, rest)) :
    e = .blank ∨ (∃ t after, header? t = some (e, after)) ∨
      ∃ t after key v, pair? (value? maxDepth) t = some ((key, v), after) ∧ e = .pair key v := by
  unfold entry? at h
  simp only [Option.bind_eq_bind] at h
  split at h
  · obtain ⟨after, he⟩ := eq_of_lineEnd? h
    exact .inr (.inl ⟨_, after, he⟩)
  · obtain ⟨after, he⟩ := eq_of_lineEnd? h
    exact .inl (Prod.mk.inj (Option.some.inj he)).1.symm
  · obtain ⟨after, he⟩ := eq_of_lineEnd? h
    exact .inl (Prod.mk.inj (Option.some.inj he)).1.symm
  · obtain ⟨after, he⟩ := eq_of_lineEnd? h
    exact .inl (Prod.mk.inj (Option.some.inj he)).1.symm
  · obtain ⟨after, he⟩ := eq_of_lineEnd? h
    obtain ⟨⟨⟨key, v⟩, behind⟩, hkey, heq⟩ := Option.map_eq_some_iff.1 he
    exact .inr (.inr ⟨_, behind, key, v, hkey, (Prod.mk.inj heq).1.symm⟩)

theorem entry?_distinct {t rest : Text} {key : Key} {v : Value}
    (h : entry? t = some (.pair key v, rest)) : v.Distinct := by
  rcases entry?_cases h with hblank | ⟨t, after, hheader⟩ | ⟨t, after, other, w, hpair, heq⟩
  · cases hblank
  · exact absurd rfl (header?_ne_pair hheader key v)
  · obtain ⟨-, rfl⟩ := Entry.pair.inj heq
    exact pair?_distinct (fun _ _ _ => value?_distinct maxDepth) hpair

theorem entries?_distinct {t : Text} {fuel : ℕ} {es : List Entry} (h : entries? fuel t = some es) :
    ∀ key v, Entry.pair key v ∈ es → v.Distinct := by
  induction fuel generalizing t es with
  | zero => cases h
  | succ fuel ih =>
    rw [entries?] at h
    split at h
    · obtain rfl := Option.some.inj h
      simp
    · simp only [Option.bind_eq_bind, Option.bind_eq_some_iff] at h
      obtain ⟨⟨e, rest⟩, he, more, hmore, hes⟩ := h
      obtain rfl := Option.some.inj hes
      intro key v hmem
      rcases List.mem_cons.1 hmem with rfl | hmem
      · exact entry?_distinct he
      · exact ih hmore key v hmem

/-- One more entry does not give a table a name that it has. -/
theorem State.add_distinct {s s' : State} {e : Entry} (h : s.add e = some s')
    (he : ∀ key v, e = .pair key v → v.Distinct) (hs : (content s.root).Distinct) :
    (content s'.root).Distinct := by
  cases e with
  | blank =>
    obtain rfl := Option.some.inj h
    exact hs
  | header key =>
    obtain ⟨root, hroot, rfl⟩ := Option.map_eq_some_iff.1 h
    exact openTable_distinct hroot hs
  | nextHeader key =>
    obtain ⟨root, hroot, rfl⟩ := Option.map_eq_some_iff.1 h
    exact openNext_distinct hroot hs
  | pair key v =>
    obtain ⟨root, hroot, rfl⟩ := Option.map_eq_some_iff.1 h
    exact alter_distinct (fun _ _ _ hnext => assign_distinct hnext (he key v rfl)) hroot hs

/-- No table that a settings file is read as has a name twice. -/
theorem parse?_distinct {source : Text} {fields : List (Text × Value)}
    (h : parse? source = some fields) : (Value.table fields).Distinct := by
  rw [parse?_eq] at h
  obtain ⟨es, hes, hrun⟩ := Option.bind_eq_some_iff.1 h
  obtain ⟨s, hs, rfl⟩ := Option.map_eq_some_iff.1 hrun
  refine foldlM_keeps (P := fun s => (content s.root).Distinct)
    (fun e he s s' hadd hdistinct => ?_) hs .empty
  exact State.add_distinct hadd (fun key v heq => entries?_distinct hes key v (heq ▸ he)) hdistinct

end Toml

end Gherkin.Settings
