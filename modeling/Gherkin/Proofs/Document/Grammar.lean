import Gherkin.Document.Parse
import Gherkin.Proofs.Document.Completeness
import Mathlib.Computability.Language
import Mathlib.Order.CompletePartialOrder

/-! The grammar of documents as languages of lines, and the texts that are refused. Trivia may stand
before any item and at the end; a description and the content of a doc string are taken as they
stand. The relations between lines and nodes are this grammar with values, so the sentences are
just the line sequences that have a reading. That trivia may go anywhere is a fact of Kleene
algebra: a sentence that starts with an item may start with trivia. -/

open scoped Computability

open Gherkin.Document.Parser

namespace Gherkin.Document.Grammar

/-! ### The grammar -/

/-- One line for which `p` holds. -/
def one (p : Line → Prop) : Language Line := {ls | ∃ l, p l ∧ ls = [l]}

/-- Any number of lines for which `p` holds. -/
def run (p : Line → Prop) : Language Line := {ls | ∀ l ∈ ls, p l}

/-- Blank lines, comments and the language header. -/
def trivia : Language Line := run fun l => l.kind.isTrivia

/-- One line with any trivia before it. -/
def item (p : Line → Prop) : Language Line := trivia * one p

/-- A line of tags, none of which is malformed. -/
def tagLine : Language Line :=
  item fun l => l.kind = .tags ∧ ∃ found, LocatedTag.split l.text l.location = .ok found

def header (block : Block) : Language Line :=
  item fun l => ∃ keyword name, l.kind = .header block keyword name

/-- The kinds of line that are prose when they stand in the description of a block. -/
def isProse (block : Block) : LineKind → Prop
  | .blank | .fence .. | .other => True
  | .step .. => block = .feature ∨ block = .examples
  | .row => block ≠ .examples
  | .comment | .language _ | .tags | .header .. => False

/-- The lines of a description. -/
def description (block : Block) : Language Line := run fun l => isProse block l.kind

/-- A table row with `width` cells. -/
def row (width : ℕ) : Language Line :=
  item fun l => l.kind = .row ∧ (Cell.split l.text l.location).length = width

/-- What lies between two fences of the same kind holds no such fence. -/
def docString : Language Line :=
  ⨆ fence : Fence, item (fun l => ∃ contentType, l.kind = .fence fence contentType) *
    run (fun l => ∀ contentType, l.kind ≠ .fence fence contentType) *
    one fun l => ∃ contentType, l.kind = .fence fence contentType

def table : Language Line := ⨆ width, row width * (row width)∗

def step : Language Line :=
  item (fun l => ∃ keyword text, l.kind = .step keyword text) * (1 + docString + table)

def background : Language Line := header .background * description .background * step∗

def examples : Language Line :=
  tagLine∗ * header .examples * description .examples * ⨆ width, (row width)∗

def test : Language Line :=
  tagLine∗ * header .scenario * description .scenario * step∗ +
    tagLine∗ * header .outline * description .outline * step∗ * examples∗

def feature : Language Line :=
  tagLine∗ * header .feature * description .feature * (1 + background) * test∗

/-- The sentences of the grammar. -/
def document : Language Line := (1 + feature) * trivia

/-! ### Trivia -/

theorem nil_mem_trivia : [] ∈ trivia := fun _ h => nomatch h

theorem one_le_trivia : 1 ≤ trivia := by
  rintro ls rfl
  exact nil_mem_trivia

theorem trivia_mul_trivia : trivia * trivia = trivia := by
  refine le_antisymm ?_ (le_mul_of_one_le_left' one_le_trivia)
  rintro _ ⟨ts, ht, us, hu, rfl⟩
  exact List.forall_mem_append.2 ⟨ht, hu⟩

/-- A language whose sentences may start with trivia. -/
def Leads (L : Language Line) : Prop := trivia * L ≤ L

theorem leads_item (p : Line → Prop) : Leads (item p) := by
  rw [Leads, item, ← mul_assoc, trivia_mul_trivia]

variable {K L M : Language Line}

theorem Leads.mul (h : Leads L) (M : Language Line) : Leads (L * M) := by
  rw [Leads, ← mul_assoc]
  exact mul_le_mul_left h M

theorem Leads.add (h : Leads L) (h' : Leads M) : Leads (L + M) := by
  rw [Leads, mul_add]
  exact add_le_add h h'

/-- Trivia before a sequence move behind it, if it is empty, or into its first part. -/
theorem Leads.kstar (h : Leads L) : trivia * L∗ ≤ L∗ * trivia := by
  refine mul_kstar_le (le_mul_of_one_le_left' one_le_kstar) ?_
  calc L∗ * trivia * L = L∗ * (trivia * L) := mul_assoc _ _ _
    _ ≤ L∗ * L := mul_le_mul_right h _
    _ ≤ L∗ := kstar_mul_le_kstar
    _ ≤ L∗ * trivia := le_mul_of_one_le_right' one_le_trivia

theorem Leads.kstar_mul (h : Leads L) (hM : Leads M) : Leads (L∗ * M) := by
  rw [Leads, ← mul_assoc]
  calc trivia * L∗ * M ≤ L∗ * trivia * M := mul_le_mul_left h.kstar _
    _ = L∗ * (trivia * M) := mul_assoc _ _ _
    _ ≤ L∗ * M := mul_le_mul_right hM _

theorem leads_header (block : Block) : Leads (header block) := leads_item _

theorem leads_tags (h : Leads L) : Leads (tagLine∗ * L) := (leads_item _).kstar_mul h

theorem leads_step : Leads step := (leads_item _).mul _

theorem leads_examples : Leads examples :=
  ((leads_tags (leads_header _)).mul _).mul _

theorem leads_test : Leads test :=
  (((leads_tags (leads_header _)).mul _).mul _).add
    ((((leads_tags (leads_header _)).mul _).mul _).mul _)

/-! ### Lines with a reading are sentences -/

theorem item_mem {p : Line → Prop} {ts : List Line} {l : Line} (ht : Trivia ts) (hl : p l) :
    ts ++ [l] ∈ item p := Language.append_mem_mul ht ⟨l, hl, rfl⟩

/-- One more part in front of a sequence. -/
theorem append_mem_kstar_mul {ls ms : List Line} (h : ls ∈ L) (hm : ms ∈ L∗ * M) :
    ls ++ ms ∈ L∗ * M := by
  have hle : L * (L∗ * M) ≤ L∗ * M := by
    rw [← mul_assoc]
    exact mul_le_mul_left mul_kstar_le_kstar M
  exact hle (Language.append_mem_mul h hm)

theorem mem_kstar_mul_trivia {ts : List Line} (ht : Trivia ts) (L : Language Line) :
    ts ∈ L∗ * trivia := by
  simpa using Language.append_mem_mul (Language.nil_mem_kstar L) (b := ts) ht

variable {ls : List Line} {cs : List Comment}

theorem tags_mem {found} (h : Reading.Tags ls found cs) : ls ∈ tagLine∗ * trivia := by
  induction h with
  | nil ht => exact mem_kstar_mul_trivia ht _
  | cons ht hl hf _ ih =>
    rw [List.append_cons]
    exact append_mem_kstar_mul (item_mem ht ⟨hl, _, hf⟩) ih

theorem rows_mem {width : ℕ} {rows} (h : Reading.Rows width ls rows cs) :
    ls ∈ (row width)∗ * trivia := by
  induction h with
  | nil ht => exact mem_kstar_mul_trivia ht _
  | cons ht hl hw _ ih =>
    rw [List.append_cons]
    exact append_mem_kstar_mul (item_mem ht ⟨hl, hw⟩) ih

theorem many_mem {α : Type} {R : List Line → α → List Comment → Prop}
    (hR : ∀ {ls a cs}, R ls a cs → ls ∈ L * trivia) (hL : Leads L) {as}
    (h : Reading.Many R ls as cs) : ls ∈ L∗ * trivia := by
  induction h with
  | nil ht => exact mem_kstar_mul_trivia ht _
  | cons h _ ih =>
    have hle : L * trivia * (L∗ * trivia) ≤ L∗ * trivia :=
      calc L * trivia * (L∗ * trivia) = L * (trivia * L∗) * trivia := by simp only [mul_assoc]
        _ ≤ L * (L∗ * trivia) * trivia := mul_le_mul_left (mul_le_mul_right hL.kstar L) trivia
        _ = L * L∗ * (trivia * trivia) := by simp only [mul_assoc]
        _ ≤ L∗ * trivia := by
          rw [trivia_mul_trivia]
          exact mul_le_mul_left mul_kstar_le_kstar trivia
    exact hle (Language.append_mem_mul (hR h) ih)

theorem isFence_iff {fence : Fence} {k : LineKind} :
    isFence fence k ↔ ∃ contentType, k = .fence fence contentType := by
  cases k <;> simp [isFence]

theorem isFence_eq_false_iff {fence : Fence} {k : LineKind} :
    isFence fence k = false ↔ ∀ contentType, k ≠ .fence fence contentType := by
  rw [Bool.eq_false_iff, ne_eq, isFence_iff, not_exists]

theorem argument_mem {arg} (h : Reading.Argument ls arg cs) :
    ls ∈ (1 + docString + table) * trivia := by
  cases h with
  | none ht =>
    have hnil : [] ∈ 1 + docString + table := .inl (.inl rfl)
    exact Language.append_mem_mul hnil ht
  | @table width ls row rows cs h =>
    cases h with
    | @cons ts l ls more cs ht hl hw h =>
      obtain ⟨ms, hm, us, hu, rfl⟩ := rows_mem h
      have htable : ts ++ [l] ++ ms ∈ table :=
        Language.mem_iSup.2 ⟨width, Language.append_mem_mul (item_mem ht ⟨hl, hw⟩) hm⟩
      rw [List.append_cons, ← List.append_assoc]
      exact Language.append_mem_mul (.inr htable) hu
  | @docString ts first body last fence contentType ht ho hb hc =>
    have hbody : body ∈ run fun l => ∀ contentType, l.kind ≠ .fence fence contentType :=
      fun l hl => isFence_eq_false_iff.1 (hb l hl)
    have hlast : [last] ∈ one fun l => ∃ contentType, l.kind = .fence fence contentType :=
      ⟨last, isFence_iff.1 hc, rfl⟩
    have hdoc : ts ++ [first] ++ body ++ [last] ∈ docString :=
      Language.mem_iSup.2 ⟨fence, Language.append_mem_mul
        (Language.append_mem_mul (item_mem ht ⟨_, ho⟩) hbody) hlast⟩
    have hmem : ts ++ [first] ++ body ++ [last] ∈ 1 + docString + table := .inl (.inr hdoc)
    simpa using Language.append_mem_mul hmem nil_mem_trivia

theorem step_mem {s} (h : Reading.Step ls s cs) : ls ∈ step * trivia := by
  cases h with
  | mk ht hl ha =>
    rw [List.append_cons, step, mul_assoc]
    exact Language.append_mem_mul (item_mem ht ⟨_, _, hl⟩) (argument_mem ha)

theorem isProse_iff {block : Block} {k : LineKind} :
    isProse block k ↔ endsDescription block k = false := by
  cases k <;> simp [isProse, endsDescription, or_iff_not_imp_left]

theorem headed_mem {block : Block} {head} (h : Reading.Headed block ls head cs) :
    ls ∈ header block * description block := by
  cases h with
  | mk ht hl hb =>
    rw [List.append_cons]
    exact Language.append_mem_mul (item_mem ht ⟨_, _, hl⟩) fun x hx => isProse_iff.2 (hb x hx)

theorem steps_mem {ss} (h : Reading.Many Reading.Step ls ss cs) : ls ∈ step∗ * trivia :=
  many_mem step_mem leads_step h

theorem background_mem {b} (h : Reading.Background ls b cs) : ls ∈ background * trivia := by
  cases h with
  | mk hh hs =>
    rw [background, mul_assoc]
    exact Language.append_mem_mul (headed_mem hh) (steps_mem hs)

/-- Trivia between tags and a header belong to the header. -/
theorem tags_headed_mem {block : Block} {found head} {ts hs : List Line} {bs : List Comment}
    (ht : Reading.Tags ts found bs) (hh : Reading.Headed block hs head cs) :
    ts ++ hs ∈ tagLine∗ * header block * description block := by
  have hle : tagLine∗ * trivia * (header block * description block) ≤
      tagLine∗ * header block * description block :=
    calc tagLine∗ * trivia * (header block * description block)
        = tagLine∗ * (trivia * (header block * description block)) := mul_assoc _ _ _
      _ ≤ tagLine∗ * (header block * description block) :=
        mul_le_mul_right ((leads_header block).mul _) _
      _ = tagLine∗ * header block * description block := (mul_assoc _ _ _).symm
  exact hle (Language.append_mem_mul (tags_mem ht) (headed_mem hh))

theorem examples_mem {e} (h : Reading.Examples ls e cs) : ls ∈ examples * trivia := by
  cases h with
  | mk ht hh hr =>
    obtain ⟨rs, hrs, us, hu, rfl⟩ := rows_mem hr
    rw [← List.append_assoc, ← List.append_assoc]
    exact Language.append_mem_mul
      (Language.append_mem_mul (tags_headed_mem ht hh) (Language.mem_iSup.2 ⟨_, hrs⟩)) hu

theorem test_mem {t} (h : Reading.Test ls t cs) : ls ∈ test * trivia := by
  rw [test, add_mul]
  cases h with
  | scenario ht hh hs =>
    rw [← List.append_assoc, mul_assoc _ step∗]
    exact .inl (Language.append_mem_mul (tags_headed_mem ht hh) (steps_mem hs))
  | outline ht hh hs he =>
    have hle : step∗ * trivia * (examples∗ * trivia) ≤ step∗ * examples∗ * trivia :=
      calc step∗ * trivia * (examples∗ * trivia) = step∗ * (trivia * examples∗) * trivia := by
            simp only [mul_assoc]
        _ ≤ step∗ * (examples∗ * trivia) * trivia :=
          mul_le_mul_left (mul_le_mul_right leads_examples.kstar _) _
        _ = step∗ * examples∗ * (trivia * trivia) := by simp only [mul_assoc]
        _ = step∗ * examples∗ * trivia := by rw [trivia_mul_trivia]
    have hrest := hle (Language.append_mem_mul (steps_mem hs)
      (many_mem examples_mem leads_examples he))
    have hmem := Language.append_mem_mul (tags_headed_mem ht hh) hrest
    rw [← List.append_assoc]
    refine .inr (?_ : _ ∈ _ * trivia)
    simpa only [mul_assoc] using hmem

theorem children_mem {blocks} (h : Reading.Children ls blocks cs) :
    ls ∈ (1 + background) * test∗ * trivia := by
  cases h with
  | tests h =>
    rw [mul_assoc, add_mul, one_mul]
    exact .inl (many_mem test_mem leads_test h)
  | background hb h =>
    have hle : background * trivia * (test∗ * trivia) ≤ (1 + background) * test∗ * trivia :=
      calc background * trivia * (test∗ * trivia) = background * (trivia * test∗) * trivia := by
            simp only [mul_assoc]
        _ ≤ background * (test∗ * trivia) * trivia :=
          mul_le_mul_left (mul_le_mul_right leads_test.kstar _) _
        _ = background * test∗ * (trivia * trivia) := by simp only [mul_assoc]
        _ = background * test∗ * trivia := by rw [trivia_mul_trivia]
        _ ≤ (1 + background) * test∗ * trivia :=
          mul_le_mul_left (mul_le_mul_left le_add_self _) _
    exact hle (Language.append_mem_mul (background_mem hb) (many_mem test_mem leads_test h))

theorem feature_mem {language : Text} {f} (h : Reading.Feature language ls f cs) :
    ls ∈ feature * trivia := by
  cases h with
  | mk ht hh h =>
    have hmem := Language.append_mem_mul (tags_headed_mem ht hh) (children_mem h)
    rw [← List.append_assoc, feature]
    simpa only [mul_assoc] using hmem

theorem mem_of_reading {language : Text} {d} (h : Reading language ls d) : ls ∈ document := by
  rw [document, add_mul, one_mul]
  cases h with
  | empty ht => exact .inl ht
  | feature h => exact .inr (feature_mem h)

/-! ### Sentences have a reading -/

theorem exists_of_mem_item_mul {p : Line → Prop} (h : ls ∈ item p * L) :
    ∃ ts l rest, Trivia ts ∧ p l ∧ rest ∈ L ∧ ls = ts ++ l :: rest := by
  obtain ⟨_, ⟨ts, ht, _, ⟨l, hl, rfl⟩, rfl⟩, rest, hrest, rfl⟩ := h
  exact ⟨ts, l, rest, ht, hl, hrest, (List.append_cons ts l rest).symm⟩

/-- A sequence is empty or starts with one of its parts. -/
theorem kstar_induction {motive : List Line → Prop} (nil : motive [])
    (append : ∀ {part rest}, part ∈ L → motive rest → motive (part ++ rest)) (h : ls ∈ L∗) :
    motive ls := by
  obtain ⟨parts, rfl, hparts⟩ := h
  induction parts with
  | nil => exact nil
  | cons part parts ih =>
    obtain ⟨hpart, hparts⟩ := List.forall_mem_cons.1 hparts
    exact append hpart (ih hparts)

theorem exists_tags (h : ls ∈ tagLine∗) : ∃ found cs, Reading.Tags ls found cs := by
  refine kstar_induction (motive := fun ls => ∃ found cs, Reading.Tags ls found cs) ⟨[], [], .nil .nil⟩
    (fun {part rest} hpart hrest => ?_) h
  obtain ⟨ts, ht, _, ⟨l, ⟨hl, found, hf⟩, rfl⟩, rfl⟩ := hpart
  obtain ⟨more, cs, hmore⟩ := hrest
  have hcons := Reading.Tags.cons ht hl hf hmore
  rw [List.append_cons] at hcons
  exact ⟨_, _, hcons⟩

theorem exists_rows {width : ℕ} (h : ls ∈ (row width)∗) :
    ∃ rows cs, Reading.Rows width ls rows cs := by
  refine kstar_induction (motive := fun ls => ∃ rows cs, Reading.Rows width ls rows cs) ⟨[], [], .nil .nil⟩
    (fun {part rest} hpart hrest => ?_) h
  obtain ⟨ts, ht, _, ⟨l, ⟨hl, hw⟩, rfl⟩, rfl⟩ := hpart
  obtain ⟨more, cs, hmore⟩ := hrest
  have hcons := Reading.Rows.cons ht hl hw hmore
  rw [List.append_cons] at hcons
  exact ⟨_, _, hcons⟩

theorem exists_many {α : Type} {R : List Line → α → List Comment → Prop}
    (hR : ∀ {ls}, ls ∈ L → ∃ a cs, R ls a cs) (h : ls ∈ L∗) :
    ∃ as cs, Reading.Many R ls as cs := by
  refine kstar_induction (motive := fun ls => ∃ as cs, Reading.Many R ls as cs) ⟨[], [], .nil .nil⟩
    (fun {part rest} hpart hrest => ?_) h
  obtain ⟨a, cs, ha⟩ := hR hpart
  obtain ⟨more, ds, hmore⟩ := hrest
  exact ⟨a :: more, cs ++ ds, .cons ha hmore⟩

theorem exists_docString (h : ls ∈ docString) : ∃ arg cs, Reading.Argument ls arg cs := by
  obtain ⟨fence, h⟩ := Language.mem_iSup.1 h
  rw [mul_assoc] at h
  obtain ⟨ts, first, rest, ht, ⟨contentType, ho⟩, ⟨body, hb, _, ⟨last, hc, rfl⟩, rfl⟩, rfl⟩ :=
    exists_of_mem_item_mul h
  have hread := Reading.Argument.docString ht ho
    (fun l hl => isFence_eq_false_iff.2 (hb l hl)) (isFence_iff.2 hc)
  rw [List.append_assoc] at hread
  exact ⟨_, _, hread⟩

theorem exists_argument (h : ls ∈ 1 + docString + table) :
    ∃ arg cs, Reading.Argument ls arg cs := by
  rcases h with (rfl | h) | h
  · exact ⟨none, [], .none .nil⟩
  · exact exists_docString h
  · obtain ⟨width, h⟩ := Language.mem_iSup.1 h
    obtain ⟨ts, l, rest, ht, ⟨hl, hw⟩, hrest, rfl⟩ := exists_of_mem_item_mul h
    obtain ⟨more, cs, hmore⟩ := exists_rows hrest
    exact ⟨_, _, .table (.cons ht hl hw hmore)⟩

theorem exists_step (h : ls ∈ step) : ∃ s cs, Reading.Step ls s cs := by
  obtain ⟨ts, l, rest, ht, ⟨keyword, text, hl⟩, hrest, rfl⟩ := exists_of_mem_item_mul h
  obtain ⟨arg, cs, harg⟩ := exists_argument hrest
  exact ⟨_, _, .mk ht hl harg⟩

theorem exists_headed {block : Block} (h : ls ∈ header block * description block) :
    ∃ head cs, Reading.Headed block ls head cs := by
  obtain ⟨ts, l, body, ht, ⟨keyword, name, hl⟩, hb, rfl⟩ := exists_of_mem_item_mul h
  exact ⟨_, _, .mk ht hl fun x hx => isProse_iff.1 (hb x hx)⟩

theorem exists_background (h : ls ∈ background) : ∃ b cs, Reading.Background ls b cs := by
  obtain ⟨hs, hh, ss, hss, rfl⟩ := h
  obtain ⟨head, cs, hhead⟩ := exists_headed hh
  obtain ⟨found, ds, hfound⟩ := exists_many exists_step hss
  exact ⟨_, _, .mk hhead hfound⟩

theorem exists_examples (h : ls ∈ examples) : ∃ e cs, Reading.Examples ls e cs := by
  rw [examples, mul_assoc, mul_assoc, ← mul_assoc (header _)] at h
  obtain ⟨ts, ht, _, ⟨hs, hh, rs, hr, rfl⟩, rfl⟩ := h
  obtain ⟨width, hr⟩ := Language.mem_iSup.1 hr
  obtain ⟨found, bs, hfound⟩ := exists_tags ht
  obtain ⟨head, cs, hhead⟩ := exists_headed hh
  obtain ⟨rows, ds, hrows⟩ := exists_rows hr
  exact ⟨_, _, .mk hfound hhead hrows⟩

theorem exists_test (h : ls ∈ test) : ∃ t cs, Reading.Test ls t cs := by
  rcases h with h | h
  · rw [mul_assoc, mul_assoc, ← mul_assoc (header _)] at h
    obtain ⟨ts, ht, _, ⟨hs, hh, ss, hss, rfl⟩, rfl⟩ := h
    obtain ⟨found, bs, hfound⟩ := exists_tags ht
    obtain ⟨head, cs, hhead⟩ := exists_headed hh
    obtain ⟨steps, ds, hsteps⟩ := exists_many exists_step hss
    exact ⟨_, _, .scenario hfound hhead hsteps⟩
  · rw [mul_assoc, mul_assoc, mul_assoc, ← mul_assoc (header _)] at h
    obtain ⟨ts, ht, _, ⟨hs, hh, _, ⟨ss, hss, es, he, rfl⟩, rfl⟩, rfl⟩ := h
    obtain ⟨found, bs, hfound⟩ := exists_tags ht
    obtain ⟨head, cs, hhead⟩ := exists_headed hh
    obtain ⟨steps, ds, hsteps⟩ := exists_many exists_step hss
    obtain ⟨blocks, fs, hblocks⟩ := exists_many exists_examples he
    exact ⟨_, _, .outline hfound hhead hsteps hblocks⟩

/-- Trivia after the last item of a sequence. -/
theorem many_trail {α : Type} {R : List Line → α → List Comment → Prop} {as} {ts : List Line}
    (h : Reading.Many R ls as cs) (ht : Trivia ts) :
    Reading.Many R (ls ++ ts) as (cs ++ commentsOf ts) := by
  induction h with
  | nil hu =>
    rw [← commentsOf_append]
    exact .nil (hu.append ht)
  | cons h _ ih =>
    rw [List.append_assoc, List.append_assoc]
    exact .cons h ih

/-- The trivia at the end of a document count as those after its last test. -/
theorem exists_feature {ts : List Line} (language : Text) (h : ls ∈ feature) (ht : Trivia ts) :
    ∃ f cs, Reading.Feature language (ls ++ ts) f cs := by
  rw [feature, mul_assoc, mul_assoc, mul_assoc, ← mul_assoc (header _)] at h
  obtain ⟨us, hu, _, ⟨hs, hh, _, ⟨bs, hb, xs, hx, rfl⟩, rfl⟩, rfl⟩ := h
  obtain ⟨found, cs, hfound⟩ := exists_tags hu
  obtain ⟨head, ds, hhead⟩ := exists_headed hh
  obtain ⟨tests, es, htests⟩ := exists_many exists_test hx
  have htests := many_trail htests ht
  simp only [List.append_assoc]
  rcases hb with rfl | hb
  · exact ⟨_, _, .mk hfound hhead (.tests htests)⟩
  · obtain ⟨b, fs, hb⟩ := exists_background hb
    exact ⟨_, _, .mk hfound hhead (.background hb htests)⟩

/-- The sentences are the lines that have a reading. -/
theorem mem_document_iff (language : Text) : ls ∈ document ↔ ∃ d, Reading language ls d := by
  constructor
  · rintro ⟨fs, hf, ts, ht, rfl⟩
    rcases hf with rfl | hf
    · exact ⟨_, .empty ht⟩
    · obtain ⟨f, cs, hread⟩ := exists_feature language hf ht
      exact ⟨_, .feature hread⟩
  · rintro ⟨d, hd⟩
    exact mem_of_reading hd

end Gherkin.Document.Grammar
