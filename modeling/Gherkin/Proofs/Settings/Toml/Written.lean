import Gherkin.Proofs.Settings.Toml.Quoted
import Gherkin.Proofs.Settings.Toml.Document

/-! Tables of texts that are written out. With a header for each table, a line for each pair and
every name and text in quotes, they are read back as they are, when no name is given twice. -/

namespace Gherkin.Settings.Toml

/-! ### Lines -/

/-- A line with a name and its text. -/
def pairLine (p : Text × Text) : Text := quote p.1 ++ '=' :: quote p.2 ++ ['\n']

/-- A line that opens the table of a name. -/
def headerLine (name : Text) : Text := '[' :: quote name ++ [']', '\n']

/-- The lines of tables of texts, each with what it is read as. -/
def tableLines (tables : List (Text × List (Text × Text))) : List (Text × Entry) :=
  tables.flatMap fun t => (headerLine t.1, .header ⟨[], t.1⟩) ::
    t.2.map fun p => (pairLine p, .pair ⟨[], p.1⟩ (.scalar (.text p.2)))

/-- Tables of texts, one after the other. -/
def write (tables : List (Text × List (Text × Text))) : Text := (tableLines tables).flatMap Prod.fst

section Lines

variable {c : Char} {t rest : Text}

theorem skipSpace_cons (h : isSpace c = false) : skipSpace (c :: rest) = c :: rest :=
  List.dropWhile_cons_of_neg (by simp [h])

theorem skipSpace_quote (t rest : Text) : skipSpace (quote t ++ rest) = quote t ++ rest :=
  skipSpace_cons rfl

theorem name?_quote (t rest : Text) : name? (quote t ++ rest) = some (t, rest) := by
  have hquoted := quoted?_quote t rest
  rw [quote_append] at hquoted ⊢
  exact hquoted

/-- A quoted name is a key of its own before anything but a blank and a dot. -/
theorem key?_quote (n : ℕ) (name : Text) (hspace : isSpace c = false) (hdot : c ≠ '.') :
    key? (n + 1) (quote name ++ c :: rest) = some (⟨[], name⟩, c :: rest) := by
  rw [key?, skipSpace_quote, name?_quote]
  simp [skipSpace_cons hspace, hdot]

theorem header?_quote (name rest : Text) :
    header? (quote name ++ ']' :: rest) = some (.header ⟨[], name⟩, rest) := by
  have hkey : key? maxDepth (quote name ++ ']' :: rest) = some (⟨[], name⟩, ']' :: rest) :=
    key?_quote 78 name rfl (by decide)
  rw [quote_append] at hkey ⊢
  simp [header?, hkey, Text.after?]

theorem pair?_quote (p : Text × Text) (rest : Text) :
    pair? (value? maxDepth) (quote p.1 ++ '=' :: (quote p.2 ++ '\n' :: rest)) =
      some ((⟨[], p.1⟩, .scalar (.text p.2)), '\n' :: rest) := by
  have hkey : key? maxDepth (quote p.1 ++ '=' :: (quote p.2 ++ '\n' :: rest)) =
      some (⟨[], p.1⟩, '=' :: (quote p.2 ++ '\n' :: rest)) := key?_quote 78 p.1 rfl (by decide)
  have hvalue : value? maxDepth (quote p.2 ++ '\n' :: rest) =
      some (.scalar (.text p.2), '\n' :: rest) := value?_quote maxDepth p.2 (by simp)
  simp [pair?, hkey, Text.after?, skipSpace_quote, hvalue]

theorem entry?_headerLine (name rest : Text) :
    entry? (headerLine name ++ rest) = some (.header ⟨[], name⟩, rest) := by
  have hline : headerLine name ++ rest = '[' :: (quote name ++ ']' :: '\n' :: rest) := by
    simp [headerLine]
  have hend : lineEnd? ('\n' :: rest) = some rest := rfl
  rw [hline, entry?, skipSpace_cons rfl]
  simp [header?_quote, hend]

theorem entry?_pairLine (p : Text × Text) (rest : Text) :
    entry? (pairLine p ++ rest) = some (.pair ⟨[], p.1⟩ (.scalar (.text p.2)), rest) := by
  have hline : pairLine p ++ rest = quote p.1 ++ '=' :: (quote p.2 ++ '\n' :: rest) := by
    simp [pairLine]
  have hpair := pair?_quote p rest
  have hend : lineEnd? ('\n' :: rest) = some rest := rfl
  rw [hline, entry?, skipSpace_quote]
  rw [quote_append] at hpair ⊢
  simp [hpair, hend]

theorem entry?_of_mem_tableLines {tables : List (Text × List (Text × Text))} {l : Text × Entry}
    (h : l ∈ tableLines tables) (rest : Text) : entry? (l.1 ++ rest) = some (l.2, rest) := by
  obtain ⟨table, -, hl⟩ := List.mem_flatMap.1 h
  rcases List.mem_cons.1 hl with rfl | hl
  · exact entry?_headerLine table.1 rest
  · obtain ⟨p, -, rfl⟩ := List.mem_map.1 hl
    exact entry?_pairLine p rest

theorem entry?_eq_none_of_blank (h : skipSpace t = []) : entry? t = none := by
  unfold entry?
  rw [h]
  rfl

/-- Lines that are read one by one are read together. -/
theorem entries?_flatMap {ls : List (Text × Entry)}
    (h : ∀ l ∈ ls, ∀ rest, entry? (l.1 ++ rest) = some (l.2, rest)) {fuel : ℕ}
    (hfuel : ls.length < fuel) : entries? fuel (ls.flatMap Prod.fst) = some (ls.map Prod.snd) := by
  induction ls generalizing fuel with
  | nil =>
    cases fuel with
    | zero => exact absurd hfuel (Nat.not_lt_zero _)
    | succ fuel => rfl
  | cons l ls ih =>
    obtain ⟨hl, hls⟩ := List.forall_mem_cons.1 h
    cases fuel with
    | zero => exact absurd hfuel (Nat.not_lt_zero _)
    | succ fuel =>
      have hentry := hl (ls.flatMap Prod.fst)
      have hblank : skipSpace (l.1 ++ ls.flatMap Prod.fst) ≠ [] := by
        intro hblank
        rw [entry?_eq_none_of_blank hblank] at hentry
        cases hentry
      rw [List.flatMap_cons, entries?, if_neg hblank, hentry]
      simp [ih hls (Nat.lt_of_succ_lt_succ hfuel)]

theorem length_le_flatMap {ls : List (Text × Entry)}
    (h : ∀ l ∈ ls, ∀ rest, entry? (l.1 ++ rest) = some (l.2, rest)) :
    ls.length ≤ (ls.flatMap Prod.fst).length := by
  induction ls with
  | nil => exact Nat.le_refl 0
  | cons l ls ih =>
    obtain ⟨hl, hls⟩ := List.forall_mem_cons.1 h
    have hne : l.1 ≠ [] := by
      intro hnil
      have hentry := hl []
      rw [hnil, List.append_nil, entry?_eq_none_of_blank rfl] at hentry
      cases hentry
    have hpos := List.length_pos_of_ne_nil hne
    have hrest := ih hls
    rw [List.flatMap_cons, List.length_append, List.length_cons]
    omega

theorem textEntries?_write (tables : List (Text × List (Text × Text))) :
    textEntries? (write tables) = some ((tableLines tables).map Prod.snd) := by
  have hread : ∀ l ∈ tableLines tables, ∀ rest, entry? (l.1 ++ rest) = some (l.2, rest) :=
    fun _ => entry?_of_mem_tableLines
  have hmark : Text.after? ['\ufeff'] (write tables) = none := by
    cases tables with
    | nil => rfl
    | cons t tables => rfl
  rw [textEntries?, hmark]
  exact entries?_flatMap hread (Nat.lt_succ_of_le (length_le_flatMap hread))

end Lines

/-! ### Tables -/

/-- The fields of texts that are read one after the other. -/
def textFields (ps : List (Text × Text)) : List (Text × Item) :=
  ps.map fun p => (p.1, .value (.scalar (.text p.2)))

/-- The fields of tables that are read one after the other. -/
def tableFields (tables : List (Text × List (Text × Text))) : List (Text × Item) :=
  tables.map fun t => (t.1, .table .header (textFields t.2))

theorem fieldValues_textFields (ps : List (Text × Text)) :
    Item.fieldValues (textFields ps) = ps.map fun p => (p.1, .scalar (.text p.2)) := by
  induction ps with
  | nil => rfl
  | cons p ps ih => exact congrArg (_ :: ·) ih

theorem fieldValues_tableFields (tables : List (Text × List (Text × Text))) :
    Item.fieldValues (tableFields tables) = tables.map fun t =>
      (t.1, .table (t.2.map fun p => (p.1, .scalar (.text p.2)))) := by
  induction tables with
  | nil => rfl
  | cons t tables ih =>
    rw [tableFields, List.map_cons, Item.fieldValues, Item.toValue, fieldValues_textFields]
    exact congrArg (_ :: ·) ih

theorem not_mem_of_nodup {α : Type} {done more : List (Text × α)} {e : Text × α}
    (h : ((done ++ e :: more).map Prod.fst).Nodup) : e.1 ∉ done.map Prod.fst := by
  rw [List.map_append, List.map_cons, List.nodup_append] at h
  exact fun hmem => h.2.2 _ hmem _ List.mem_cons_self rfl

section Tables

variable {name : Text} {front fields : List (Text × Item)}

theorem add_header (s : State) (h : name ∉ s.root.map Prod.fst) :
    s.add (.header ⟨[], name⟩) = some ⟨[name], s.root ++ [(name, .table .header [])]⟩ := by
  simp [State.add, openTable, alter, Entries.lookup_eq_none h, Entries.set_of_not_mem h]

/-- A pair goes to the end of the table that is open. -/
theorem add_pair {key : Text} (hname : name ∉ front.map Prod.fst)
    (hkey : key ∉ fields.map Prod.fst) (v : Value) :
    State.add ⟨[name], front ++ [(name, .table .header fields)]⟩ (.pair ⟨[], key⟩ v) =
      some ⟨[name], front ++ [(name, .table .header (fields ++ [(key, .value v)]))]⟩ := by
  have hlookup : (front ++ [(name, Item.table .header fields)]).lookup name =
      some (.table .header fields) := by
    rw [Entries.lookup_append hname]
    simp
  have hset (i : Item) : Entries.set name i (front ++ [(name, .table .header fields)]) =
      front ++ [(name, i)] := by
    rw [Entries.set_append hname]
    simp [Entries.set]
  simp [State.add, assign, alter, hlookup, hset, Entries.lookup_eq_none hkey,
    Entries.set_of_not_mem hkey]

theorem foldlM_pairs (done ps : List (Text × Text)) (hname : name ∉ front.map Prod.fst)
    (h : ((done ++ ps).map Prod.fst).Nodup) :
    (ps.map fun p => Entry.pair ⟨[], p.1⟩ (.scalar (.text p.2))).foldlM State.add
        ⟨[name], front ++ [(name, .table .header (textFields done))]⟩ =
      some ⟨[name], front ++ [(name, .table .header (textFields (done ++ ps)))]⟩ := by
  induction ps generalizing done with
  | nil => simp
  | cons p ps ih =>
    have hkey : p.1 ∉ (textFields done).map Prod.fst := by
      rw [textFields, List.map_map]
      exact not_mem_of_nodup h
    have hdone : textFields (done ++ [p]) =
        textFields done ++ [(p.1, .value (.scalar (.text p.2)))] := by
      simp [textFields]
    rw [List.append_cons done p ps] at h ⊢
    rw [List.map_cons, List.foldlM_cons, add_pair hname hkey, ← hdone]
    exact ih (done ++ [p]) h

theorem foldlM_tables (done tables : List (Text × List (Text × Text))) (current : List Text)
    (h : ((done ++ tables).map Prod.fst).Nodup) (hps : ∀ t ∈ tables, (t.2.map Prod.fst).Nodup) :
    ∃ last, ((tableLines tables).map Prod.snd).foldlM State.add ⟨current, tableFields done⟩ =
      some ⟨last, tableFields (done ++ tables)⟩ := by
  induction tables generalizing done current with
  | nil => exact ⟨current, by simp [tableLines]⟩
  | cons t tables ih =>
    obtain ⟨ht, hmore⟩ := List.forall_mem_cons.1 hps
    have hname : t.1 ∉ (tableFields done).map Prod.fst := by
      rw [tableFields, List.map_map]
      exact not_mem_of_nodup h
    have hentries : (tableLines (t :: tables)).map Prod.snd = .header ⟨[], t.1⟩ ::
        (t.2.map fun p => Entry.pair ⟨[], p.1⟩ (.scalar (.text p.2))) ++
          (tableLines tables).map Prod.snd := by
      simp [tableLines, Function.comp_def]
    have hpairs := foldlM_pairs [] t.2 hname ht
    have hdone : tableFields (done ++ [t]) =
        tableFields done ++ [(t.1, .table .header (textFields t.2))] := by
      simp [tableFields]
    rw [List.append_cons done t tables] at h ⊢
    obtain ⟨last, hlast⟩ := ih (done ++ [t]) [t.1] h hmore
    refine ⟨last, ?_⟩
    rw [hdone] at hlast
    rw [hentries, List.cons_append, List.foldlM_cons, add_header _ hname]
    exact (List.foldlM_append).trans ((congrArg (· >>= _) hpairs).trans hlast)

/-- Tables of texts that are written out are read back, when no name is given twice. -/
theorem parse?_write {tables : List (Text × List (Text × Text))} (h : (tables.map Prod.fst).Nodup)
    (hps : ∀ t ∈ tables, (t.2.map Prod.fst).Nodup) :
    parse? (write tables) = some (tables.map fun t =>
      (t.1, .table (t.2.map fun p => (p.1, .scalar (.text p.2))))) := by
  obtain ⟨last, hlast⟩ := foldlM_tables [] tables [] h hps
  rw [parse?_eq, textEntries?_write, Option.bind_some]
  exact (congrArg _ hlast).trans (congrArg some (fieldValues_tableFields tables))

end Tables

end Gherkin.Settings.Toml
