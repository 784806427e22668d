import Gherkin.Proofs.Element.Inside
import Gherkin.Proofs.Element.Alone
import Gherkin.Proofs.Element.Plan
import Gherkin.Proofs.Element.Runs

/-! Excerpts inside excerpts. Whatever is read from a text, the excerpt of each element is a run of
the text's lines around the line of the element, inside the run of the element above it and apart
from those beside it. What carries this down the tree is where the nodes stand: the lines of a node
come before those of its blocks, and these come one block after another. -/

open Gherkin.Document

namespace Gherkin

namespace Data

variable {d t : Data} {n : ℕ}

theorem foldr_min_le {ns : List ℕ} (h : n ∈ ns) (m : ℕ) : ns.foldr min m ≤ n := by
  induction ns with
  | nil => cases h
  | cons a ns ih =>
    rcases List.mem_cons.1 h with rfl | h
    · exact min_le_left _ _
    · exact (min_le_right _ _).trans (ih h)

theorem foldr_min_mem (ns : List ℕ) (m : ℕ) : ns.foldr min m = m ∨ ns.foldr min m ∈ ns := by
  induction ns with
  | nil => exact .inl rfl
  | cons a ns ih =>
    rw [List.foldr_cons]
    rcases min_choice a (ns.foldr min m) with h | h <;> rw [h]
    · exact .inr List.mem_cons_self
    · exact ih.imp id (List.mem_cons_of_mem a)

theorem foldr_min_le_init (ns : List ℕ) (m : ℕ) : ns.foldr min m ≤ m := by
  induction ns with
  | nil => exact le_rfl
  | cons a ns ih => exact (min_le_right _ _).trans ih

theorem startLine_le_line (h : d.line? = some n) : d.startLine ≤ n := by
  rw [startLine, h]
  exact foldr_min_le_init _ _

theorem startLine_le_tag (ht : t ∈ d.itemsAt "tags") (h : t.line? = some n) : d.startLine ≤ n :=
  foldr_min_le (List.mem_filterMap.2 ⟨t, ht, h⟩) _

end Data

namespace Plan

/-! ### Where the nodes of a plan stand -/

/-- A node has its own line and those of its tags among some lines; what gets a single line are
tags. -/
structure Rooted (d : Data) (marks : List Data) (ns : List ℕ) : Prop where
  own : ∃ n ∈ ns, d.line? = some n
  tags : ∀ t ∈ d.itemsAt "tags", ∃ n ∈ ns, t.line? = some n
  marks : marks ⊆ d.itemsAt "tags"

mutual

/-- The lines are those of a node and then those of its blocks. -/
def On : Plan Data → List ℕ → Prop
  | mk d marks blocks, ns => ∃ as bs, ns = as ++ bs ∧ Rooted d marks as ∧ OnAll blocks bs

/-- The lines of blocks, one block after another. -/
def OnAll : List (Plan Data) → List ℕ → Prop
  | [], _ => True
  | p :: ps, ns => ∃ as bs, ns = as ++ bs ∧ On p as ∧ OnAll ps bs

end

variable {p : Plan Data} {ps qs : List (Plan Data)} {d : Data} {marks : List Data}
  {ns as bs : List ℕ} {e : Excerpt} {source : Text} {k n : ℕ}

theorem Rooted.lead (h : Rooted d marks ns) (as : List ℕ) : Rooted d marks (as ++ ns) where
  own := h.own.imp fun _ hn => ⟨List.mem_append_right as hn.1, hn.2⟩
  tags t ht := (h.tags t ht).imp fun _ hn => ⟨List.mem_append_right as hn.1, hn.2⟩
  marks := h.marks

theorem On.lead (h : p.On ns) (as : List ℕ) : p.On (as ++ ns) := by
  cases p with
  | mk d marks blocks =>
    rw [On] at h ⊢
    obtain ⟨cs, bs, rfl, hroot, hblocks⟩ := h
    exact ⟨as ++ cs, bs, (List.append_assoc ..).symm, hroot.lead as, hblocks⟩

theorem OnAll.lead (h : OnAll ps ns) (as : List ℕ) : OnAll ps (as ++ ns) := by
  cases ps with
  | nil => exact trivial
  | cons p ps =>
    rw [OnAll] at h ⊢
    obtain ⟨cs, bs, rfl, hp, hps⟩ := h
    exact ⟨as ++ cs, bs, (List.append_assoc ..).symm, hp.lead as, hps⟩

theorem OnAll.append (h : OnAll ps as) (h' : OnAll qs bs) : OnAll (ps ++ qs) (as ++ bs) := by
  induction ps generalizing as with
  | nil => exact h'.lead as
  | cons p ps ih =>
    rw [OnAll] at h
    obtain ⟨cs, ds, rfl, hp, hps⟩ := h
    rw [List.cons_append, OnAll]
    exact ⟨cs, ds ++ bs, List.append_assoc .., hp, ih hps⟩

/-- Nodes at lines that are counted on from `k`. -/
theorem Rooted.lower (h : Rooted d marks ns) (k : ℕ) :
    Rooted (d.lowerLines k) (marks.map (Data.lowerLines k)) (ns.map (· - k)) := by
  have hline : ∀ {t : Data}, (∃ n ∈ ns, t.line? = some n) →
      ∃ n ∈ ns.map (· - k), (t.lowerLines k).line? = some n := by
    rintro t ⟨n, hn, ht⟩
    exact ⟨n - k, List.mem_map_of_mem hn, by rw [Data.line?_lowerLines, ht, Option.map_some]⟩
  have htags : (d.lowerLines k).itemsAt "tags" = (d.itemsAt "tags").map (Data.lowerLines k) :=
    Data.itemsAt_lowerLines k (by decide) d
  refine ⟨hline h.own, ?_, ?_⟩
  · rw [htags]
    exact List.forall_mem_map.2 fun t ht => hline (h.tags t ht)
  · rw [htags]
    exact List.map_subset _ h.marks

mutual

theorem On.lower (k : ℕ) : {p : Plan Data} → {ns : List ℕ} → p.On ns →
    (p.map (Data.lowerLines k)).On (ns.map (· - k))
  | mk d marks blocks, ns, h => by
    rw [On] at h
    obtain ⟨as, bs, rfl, hroot, hblocks⟩ := h
    rw [map, On]
    exact ⟨_, _, List.map_append, hroot.lower k, OnAll.lower k hblocks⟩

theorem OnAll.lower (k : ℕ) : {ps : List (Plan Data)} → {ns : List ℕ} → OnAll ps ns →
    OnAll (mapAll (Data.lowerLines k) ps) (ns.map (· - k))
  | [], _, _ => trivial
  | p :: ps, ns, h => by
    rw [OnAll] at h
    obtain ⟨as, bs, rfl, hp, hps⟩ := h
    rw [mapAll, OnAll]
    exact ⟨_, _, List.map_append, On.lower k hp, OnAll.lower k hps⟩

end

/-- The first line of a node is one of its lines. -/
theorem Rooted.startLine_mem (h : Rooted d marks ns) : d.startLine ∈ ns := by
  obtain ⟨n, hn, hline⟩ := h.own
  rw [Data.startLine, hline, Option.getD_some]
  rcases Data.foldr_min_mem ((d.itemsAt "tags").filterMap Data.line?) n with hmin | hmin
  · rwa [hmin]
  · obtain ⟨t, ht, hmem⟩ := List.mem_filterMap.1 hmin
    obtain ⟨m, hm, htag⟩ := h.tags t ht
    rwa [← Option.some.inj (htag.symm.trans hmem)]

theorem On.startLine_mem (h : p.On ns) : p.own.startLine ∈ ns := by
  cases p with
  | mk d marks blocks =>
    rw [On] at h
    obtain ⟨as, bs, rfl, hroot, -⟩ := h
    exact List.mem_append_left bs hroot.startLine_mem

theorem On.isSome_line? (h : p.On ns) : p.own.line?.isSome := by
  cases p with
  | mk d marks blocks =>
    rw [On] at h
    obtain ⟨as, bs, -, hroot, -⟩ := h
    obtain ⟨n, -, hline⟩ := hroot.own
    exact Option.isSome_of_eq_some hline

/-- Each block stands on some of the lines. -/
theorem OnAll.exists_on (h : OnAll ps ns) : ∀ p ∈ ps, ∃ as, as ⊆ ns ∧ p.On as := by
  induction ps generalizing ns with
  | nil => simp
  | cons p ps ih =>
    rw [OnAll] at h
    obtain ⟨as, bs, rfl, hp, hps⟩ := h
    refine List.forall_mem_cons.2 ⟨⟨as, List.subset_append_left as bs, hp⟩, fun q hq => ?_⟩
    obtain ⟨cs, hcs, hq⟩ := ih hps q hq
    exact ⟨cs, List.subset_append_of_subset_right as hcs, hq⟩

theorem OnAll.starts_subset (h : OnAll ps ns) : ps.map (·.own.startLine) ⊆ ns := by
  intro s hs
  obtain ⟨p, hp, rfl⟩ := List.mem_map.1 hs
  obtain ⟨as, has, hon⟩ := h.exists_on p hp
  exact has hon.startLine_mem

theorem OnAll.starts_sorted (h : OnAll ps ns) (hsorted : ns.Pairwise (· < ·)) :
    (ps.map (·.own.startLine)).Pairwise (· < ·) := by
  induction ps generalizing ns with
  | nil => exact .nil
  | cons p ps ih =>
    rw [OnAll] at h
    obtain ⟨as, bs, rfl, hp, hps⟩ := h
    obtain ⟨-, hbs, hlt⟩ := List.pairwise_append.1 hsorted
    exact .cons (fun s hs => hlt _ hp.startLine_mem s (hps.starts_subset hs)) (ih hps hbs)

/-! ### Sound excerpts -/

/-- The excerpt of a node is a run of the text's lines around the node's own line. What gets a single
line has the excerpt of just its own line, which the excerpt's end does not move. No bound up to
which a block may reach is out of range, and the excerpts of the blocks are inside, one after
another, and sound in turn. -/
inductive Sound (source : Text) : Plan (Excerpt × Data) → Prop
  | mk {e d ms ps} (run : e.IsRun source)
    (own : ∃ n, d.line? = some n ∧ e.first ≤ n ∧ n ≤ e.last)
    (marks : ∀ m ∈ ms, ∃ n, m.2.line? = some n ∧ e.first ≤ n ∧ n ≤ e.last ∧
      m.1 = ⟨source.lines, n, n⟩)
    (bounds : ∀ b ∈ e.bounds (ps.map fun p => p.own.2.startLine),
      e.first ≤ b.1 ∧ b.1 ≤ b.2 ∧ b.2 ≤ e.last)
    (inside : ∀ p ∈ ps, e.first ≤ p.own.1.first ∧ p.own.1.last ≤ e.last)
    (apart : ps.Pairwise fun p q => p.own.1.last < q.own.1.first)
    (parts : ∀ p ∈ ps, Sound source p) : Sound source (mk (e, d) ms ps)

/-- A run whose lines hold a node keeps these lines. -/
structure Keeps (source : Text) (e : Excerpt) (ns : List ℕ) : Prop where
  sorted : ns.Pairwise (· < ·)
  le_last : ∀ n ∈ ns, n ≤ e.last
  solid : ∀ n ∈ ns, Excerpt.Solid source.lines n

theorem Keeps.right (h : Keeps source e (as ++ bs)) : Keeps source e bs where
  sorted := (List.pairwise_append.1 h.sorted).2.1
  le_last n hn := h.le_last n (List.mem_append_right as hn)
  solid n hn := h.solid n (List.mem_append_right as hn)

/-- The run up to the bound of a block keeps the lines of the block. -/
theorem Keeps.trimmed (h : Keeps source e (as ++ bs)) (he : e.IsRun source) {s : ℕ} {rest : List ℕ}
    (hrest : rest ⊆ bs) : Keeps source (e.trimmed s (e.bound rest)) as := by
  obtain ⟨hsorted, -, hlt⟩ := List.pairwise_append.1 h.sorted
  refine ⟨hsorted, fun n hn => ?_, fun n hn => h.solid n (List.mem_append_left bs hn)⟩
  have hbound : n ≤ e.bound rest := Excerpt.le_bound (h.le_last n (List.mem_append_left bs hn))
    fun t ht => hlt n hn t (hrest ht)
  have hsolid := h.solid n (List.mem_append_left bs hn)
  rw [← he.lines] at hsolid
  exact (hsolid.le_lastKept hbound).trans (le_max_right _ _)

theorem Keeps.starts (h : Keeps source e ns) (hps : OnAll ps ns) (hfirst : ∀ n ∈ ns, e.first ≤ n) :
    e.Starts (ps.map (·.own.startLine)) where
  sorted := hps.starts_sorted h.sorted
  inside s hs := ⟨hfirst s (hps.starts_subset hs), h.le_last s (hps.starts_subset hs)⟩

theorem map_startLine (ps : List (Plan Data)) :
    (ps.map own).map Data.startLine = ps.map (·.own.startLine) := by
  rw [List.map_map]
  rfl

/-- Blocks that start one after another get excerpts that do. -/
theorem sound_mk (he : e.IsRun source) (hown : ∃ n, d.line? = some n ∧ e.first ≤ n ∧ n ≤ e.last)
    (hmarks : ∀ m ∈ marks, ∃ n, m.line? = some n ∧ e.first ≤ n ∧ n ≤ e.last)
    (hstarts : e.Starts (ps.map (·.own.startLine)))
    (hparts : ∀ p ∈ cutAll (e.splitAt (ps.map own)) ps, p.Sound source) :
    ((mk d marks ps).cut e).Sound source := by
  have hlength : (e.splitAt (ps.map own)).length = ps.length := by simp [length_splitAt]
  have howns := map_own_cutAll hlength
  have hexcerpts : (cutAll (e.splitAt (ps.map own)) ps).map (fun p => p.own.1) =
      e.split (ps.map (·.own.startLine)) := by
    have hfst := congrArg (List.map Prod.fst) howns
    rw [List.map_map, List.map_fst_zip (by simp [hlength])] at hfst
    rw [← map_startLine]
    exact hfst
  have hnodes : (cutAll (e.splitAt (ps.map own)) ps).map (fun p => p.own.2.startLine) =
      ps.map (·.own.startLine) := by
    have hsnd := congrArg (List.map Prod.snd) howns
    rw [List.map_snd_zip (by simp [hlength])] at hsnd
    have hlines := congrArg (List.map Data.startLine) hsnd
    rw [List.map_map, List.map_map, map_startLine] at hlines
    exact hlines
  have hruns := hstarts.isRun he
  have hapart := hstarts.apart he.pos
  rw [← hexcerpts] at hruns hapart
  rw [← hnodes] at hstarts
  rw [cut]
  refine .mk he hown (List.forall_mem_map.2 fun m hm => ?_) hstarts.bounds
    (fun p hp => (hruns _ (List.mem_map_of_mem hp)).2) (List.pairwise_map.1 hapart) hparts
  obtain ⟨n, hline, hfirst, hlast⟩ := hmarks m hm
  refine ⟨n, hline, hfirst, hlast, ?_⟩
  rw [Excerpt.lineOf, hline, Option.getD_some, Excerpt.line_eq hfirst hlast, he.lines]

mutual

/-- A run that keeps the lines of a node is cut into sound excerpts. -/
theorem sound_cut : (p : Plan Data) → {e : Excerpt} → {ns : List ℕ} → p.On ns → Keeps source e ns →
    e.IsRun source → e.first ≤ p.own.startLine → (p.cut e).Sound source
  | mk d marks blocks, e, ns, hon, hkeeps, he, hstart => by
    rw [On] at hon
    obtain ⟨as, bs, rfl, hroot, hblocks⟩ := hon
    have hlast : ∀ n ∈ as, n ≤ e.last := fun n hn => hkeeps.le_last n (List.mem_append_left bs hn)
    have hfirst : ∀ n ∈ bs, e.first ≤ n := fun n hn => hstart.trans
      ((List.pairwise_append.1 hkeeps.sorted).2.2 _ hroot.startLine_mem n hn).le
    refine sound_mk he ?_ (fun m hm => ?_) (hkeeps.right.starts hblocks hfirst)
      (sound_cutAll blocks hblocks hkeeps.right he hfirst)
    · obtain ⟨n, hn, hline⟩ := hroot.own
      exact ⟨n, hline, hstart.trans (Data.startLine_le_line hline), hlast n hn⟩
    · obtain ⟨n, hn, hline⟩ := hroot.tags m (hroot.marks hm)
      exact ⟨n, hline, hstart.trans (Data.startLine_le_tag (hroot.marks hm) hline), hlast n hn⟩

theorem sound_cutAll : (ps : List (Plan Data)) → {e : Excerpt} → {ns : List ℕ} → OnAll ps ns →
    Keeps source e ns → e.IsRun source → (∀ n ∈ ns, e.first ≤ n) →
    ∀ q ∈ cutAll (e.splitAt (ps.map own)) ps, q.Sound source
  | [], _, _, _, _, _, _ => by simp [cutAll]
  | p :: ps, e, ns, hon, hkeeps, he, hfirst => by
    have hstarts := hkeeps.starts hon hfirst
    rw [OnAll] at hon
    obtain ⟨as, bs, rfl, hp, hps⟩ := hon
    have hrest : ps.map (·.own.startLine) ⊆ bs := hps.starts_subset
    have hrun := he.trimmed (hstarts.inside _ List.mem_cons_self).1 hstarts.le_bound
      (e.bound_le (ps.map (·.own.startLine)))
    rw [Excerpt.splitAt, map_startLine, List.map_cons, Excerpt.split_cons, cutAll]
    refine List.forall_mem_cons.2 ⟨sound_cut p hp (hkeeps.trimmed he hrest) hrun le_rfl, ?_⟩
    have hmore := sound_cutAll ps hps hkeeps.right he fun n hn =>
      hfirst n (List.mem_append_right as hn)
    rwa [Excerpt.splitAt, map_startLine] at hmore

end

end Plan

end Gherkin
