import Mathlib.Data.List.Basic
import Gherkin.Proofs.Document.Completeness

/-! The core of a node: its lines without the trivia at either end. What holds a node still holds it
when only the core is left, since trivia belong to no item and the blank lines under a header do not
show at the end of its description. So the lines of a sequence fall into the cores of its items with
trivia in between, and this is the only way to divide them, as a core starts and ends with a line
that is no trivia. -/

open Gherkin.Document.Parser

namespace Gherkin.Document

variable {α : Type} {R : List Line → α → List Comment → Prop} {P Q S : List Line → Prop}
  {as bs ls ts us core : List Line} {cores : List (List Line)}

/-- The lines do not start with trivia. -/
def Starts (ls : List Line) : Prop := ∀ l ∈ ls.head?, l.kind.isTrivia = false

/-- The lines do not end with trivia. -/
def Ends (ls : List Line) : Prop := ∀ l ∈ ls.getLast?, l.kind.isTrivia = false

structure IsCore (ls : List Line) : Prop where
  ne_nil : ls ≠ []
  starts : Starts ls
  ends : Ends ls

/-- The lines hold the node. -/
def Held (R : List Line → α → List Comment → Prop) (a : α) (ls : List Line) : Prop :=
  ∃ cs, R ls a cs

/-- The lines without trivia at their end have the property. -/
def Trims (P : List Line → Prop) (ls : List Line) : Prop :=
  ∃ core us, ls = core ++ us ∧ Trivia us ∧ Ends core ∧ P core

/-- The lines without trivia at their start have the property. -/
def Drops (P : List Line → Prop) (ls : List Line) : Prop :=
  ∃ ts core, ls = ts ++ core ∧ Trivia ts ∧ Starts core ∧ P core

theorem Starts.cons {l : Line} (hl : l.kind.isTrivia = false) (ls : List Line) : Starts (l :: ls) := by
  intro m hm
  obtain rfl := Option.some.inj hm
  exact hl

theorem Starts.nil : Starts [] := fun _ h => nomatch h

theorem Ends.nil : Ends [] := fun _ h => nomatch h

theorem Ends.append (h : Ends core) (hne : core ≠ []) (as : List Line) : Ends (as ++ core) := by
  intro l hl
  rw [List.getLast?_append_of_ne_nil _ hne] at hl
  exact h l hl

/-- A line that is no trivia, and lines after it. -/
theorem Ends.mid {l : Line} (hl : l.kind.isTrivia = false) (h : Ends core) (ts : List Line) :
    Ends (ts ++ l :: core) := by
  refine Ends.append ?_ (List.cons_ne_nil _ _) ts
  cases core with
  | nil => exact Starts.cons hl []
  | cons m ms => exact h.append (List.cons_ne_nil _ _) [l]

/-- Lines that start with no trivia have none in front. -/
theorem Starts.eq_nil {l : Line} (h : Starts (ts ++ l :: ls)) (ht : Trivia ts) : ts = [] := by
  cases ts with
  | nil => rfl
  | cons t ts =>
    have htrivia := ht t List.mem_cons_self
    rw [h t rfl] at htrivia
    cases htrivia

theorem Starts.of_append (h : Starts (core ++ us)) : Starts core := by
  cases core with
  | nil => exact .nil
  | cons l core => exact Starts.cons (h l rfl) core

/-! ### Parts next to each other -/

/-- Lines with the one property and then lines with the other. -/
def Beside (P Q : List Line → Prop) (ls : List Line) : Prop := ∃ as bs, ls = as ++ bs ∧ P as ∧ Q bs

theorem Trims.beside (ha : P as) (h : Trims P as) (h' : Trims Q bs) :
    Trims (Beside P Q) (as ++ bs) := by
  obtain ⟨core', us', rfl, hu', hends', hcore'⟩ := h'
  by_cases hne : core' = []
  · obtain ⟨core, us, rfl, hu, hends, hcore⟩ := h
    subst hne
    exact ⟨core, us ++ us', by simp, hu.append hu', hends, core, [], by simp, hcore, hcore'⟩
  · exact ⟨as ++ core', us', by simp, hu', hends'.append hne as, as, core', rfl, ha, hcore'⟩

theorem Drops.beside (h : Drops P as) (hb : Q bs) (h' : Drops Q bs) :
    Drops (Beside P Q) (as ++ bs) := by
  obtain ⟨ts, core, rfl, ht, hstarts, hcore⟩ := h
  cases core with
  | nil =>
    obtain ⟨ts', core', rfl, ht', hstarts', hcore'⟩ := h'
    exact ⟨ts ++ ts', core', by simp, ht.append ht', hstarts', [], core', rfl, hcore, hcore'⟩
  | cons l core =>
    exact ⟨ts, (l :: core) ++ bs, by simp, ht, Starts.cons (hstarts l rfl) _, l :: core, bs, rfl,
      hcore, hb⟩

theorem Trims.imp (h : Trims P ls) (hPQ : ∀ {xs}, P xs → Q xs) : Trims Q ls := by
  obtain ⟨core, us, rfl, hu, hends, hcore⟩ := h
  exact ⟨core, us, rfl, hu, hends, hPQ hcore⟩

theorem Drops.imp (h : Drops P ls) (hPQ : ∀ {xs}, P xs → Q xs) : Drops Q ls := by
  obtain ⟨ts, core, rfl, ht, hstarts, hcore⟩ := h
  exact ⟨ts, core, rfl, ht, hstarts, hPQ hcore⟩

/-- Nothing is cut off up to a line that is no trivia. -/
theorem Trims.mid {l : Line} (hl : l.kind.isTrivia = false) (h : Trims P ls) (ts : List Line)
    (hPQ : ∀ {xs}, P xs → Q (ts ++ l :: xs)) : Trims Q (ts ++ l :: ls) := by
  obtain ⟨core, us, rfl, hu, hends, hcore⟩ := h
  exact ⟨ts ++ l :: core, us, by simp, hu, hends.mid hl ts, hPQ hcore⟩

theorem Drops.mid {l : Line} (hl : l.kind.isTrivia = false) (ht : Trivia ts) (h : P (l :: ls)) :
    Drops P (ts ++ l :: ls) :=
  ⟨ts, l :: ls, rfl, ht, Starts.cons hl ls, h⟩

theorem Trims.trivia (ht : Trivia ts) (h : P []) : Trims P ts := ⟨[], ts, rfl, ht, .nil, h⟩

theorem Drops.trivia (ht : Trivia ts) (h : P []) : Drops P ts :=
  ⟨ts, [], (List.append_nil ts).symm, ht, .nil, h⟩

theorem Tidy.of_append_left (h : Tidy (as ++ bs)) : Tidy as :=
  fun l hl => h l (List.mem_append_left _ hl)

/-! ### Nodes from their parts -/

theorem held_background {head steps}
    (h : Beside (Held (Reading.Headed .background) head) (Held (Reading.Many Reading.Step) steps) ls) :
    Held Reading.Background ⟨head, steps⟩ ls := by
  obtain ⟨_, _, rfl, ⟨_, hh⟩, ⟨_, h⟩⟩ := h
  exact ⟨_, .mk hh h⟩

theorem held_examples {found head width rows}
    (h : Beside (Held Reading.Tags found) (Beside (Held (Reading.Headed .examples) head)
      (Held (Reading.Rows width) rows)) ls) :
    Held Reading.Examples ⟨head, found, rows.head?, rows.tail⟩ ls := by
  obtain ⟨_, _, rfl, ⟨_, ht⟩, _, _, rfl, ⟨_, hh⟩, ⟨_, hr⟩⟩ := h
  exact ⟨_, .mk ht hh hr⟩

theorem held_scenario {found head steps}
    (h : Beside (Held Reading.Tags found) (Beside (Held (Reading.Headed .scenario) head)
      (Held (Reading.Many Reading.Step) steps)) ls) :
    Held Reading.Test (.scenario ⟨head, found, steps⟩) ls := by
  obtain ⟨_, _, rfl, ⟨_, ht⟩, _, _, rfl, ⟨_, hh⟩, ⟨_, h⟩⟩ := h
  exact ⟨_, .scenario ht hh h⟩

theorem held_outline {found head steps blocks}
    (h : Beside (Held Reading.Tags found) (Beside (Held (Reading.Headed .outline) head)
      (Beside (Held (Reading.Many Reading.Step) steps)
        (Held (Reading.Many Reading.Examples) blocks))) ls) :
    Held Reading.Test (.outline ⟨head, found, steps, blocks⟩) ls := by
  obtain ⟨_, _, rfl, ⟨_, ht⟩, _, _, rfl, ⟨_, hh⟩, _, _, rfl, ⟨_, h⟩, ⟨_, he⟩⟩ := h
  exact ⟨_, .outline ht hh h he⟩

theorem held_cons {item : α} {items : List α}
    (h : Beside (Held R item) (Held (Reading.Many R) items) ls) :
    Held (Reading.Many R) (item :: items) ls := by
  obtain ⟨_, _, rfl, ⟨_, ha⟩, ⟨_, h⟩⟩ := h
  exact ⟨_, .cons ha h⟩

/-! ### Trivia at the end -/

theorem trims_tags {found cs} (h : Reading.Tags ls found cs) :
    Trims (Held Reading.Tags found) ls := by
  induction h with
  | nil ht => exact .trivia ht ⟨_, .nil .nil⟩
  | @cons ts l _ _ _ _ ht hl hf _ ih =>
    refine ih.mid (by rw [hl]; rfl) ts ?_
    rintro xs ⟨cs, hxs⟩
    exact ⟨_, .cons ht hl hf hxs⟩

theorem trims_rows {width rows cs} (h : Reading.Rows width ls rows cs) :
    Trims (Held (Reading.Rows width) rows) ls := by
  induction h with
  | nil ht => exact .trivia ht ⟨_, .nil .nil⟩
  | @cons ts l _ _ _ ht hl hw _ ih =>
    refine ih.mid (by rw [hl]; rfl) ts ?_
    rintro xs ⟨cs, hxs⟩
    exact ⟨_, .cons ht hl hw hxs⟩

theorem trims_argument {arg cs} (h : Reading.Argument ls arg cs) :
    Trims (Held Reading.Argument arg) ls := by
  cases h with
  | none ht => exact .trivia ht ⟨_, .none .nil⟩
  | table h =>
    refine (trims_rows h).imp ?_
    rintro xs ⟨cs, hxs⟩
    exact ⟨_, .table hxs⟩
  | @docString ts first body last fence _ ht ho hb hc =>
    have hlast : last.kind.isTrivia = false := by
      cases hk : last.kind <;> simp_all [isFence, LineKind.isTrivia]
    refine ⟨ts ++ first :: body ++ [last], [], by simp, .nil, ?_, _, .docString ht ho hb hc⟩
    exact Ends.nil.mid hlast _

theorem trims_step {step cs} (h : Reading.Step ls step cs) : Trims (Held Reading.Step step) ls := by
  cases h with
  | @mk ts l _ _ _ _ _ ht hl h =>
    refine (trims_argument h).mid (by rw [hl]; rfl) ts ?_
    rintro xs ⟨cs, hxs⟩
    exact ⟨_, .mk ht hl hxs⟩

/-- The lines under a header are no trivia, unless they are blank. -/
theorem isTrivia_of_endsDescription {block : Block} {k : LineKind}
    (h : endsDescription block k = false) (hk : k ≠ .blank) : k.isTrivia = false := by
  cases k <;> simp_all [endsDescription, LineKind.isTrivia]

theorem trims_headed {block : Block} {head cs} (h : Reading.Headed block ls head cs)
    (htidy : Tidy ls) : Trims (Held (Reading.Headed block) head) ls := by
  cases h with
  | @mk ts l body keyword name ht hl hb =>
    obtain ⟨kept, blanks, hbody, hblanks, hkept⟩ : ∃ kept blanks, body = kept ++ blanks ∧
        (∀ x ∈ blanks, x.kind = .blank) ∧ ∀ x ∈ kept.getLast?, x.kind ≠ .blank := by
      obtain ⟨blanks, more, hmore, hblanks, hhead⟩ := exists_blanks body.reverse
      refine ⟨more.reverse, blanks.reverse, ?_, by simpa using hblanks, by simpa using hhead⟩
      rw [← List.reverse_append, ← hmore, List.reverse_reverse]
    subst hbody
    have hempty : ∀ x ∈ blanks, x.raw.trimEnd = [] := fun x hx =>
      htidy x (by simp [hx]) (hblanks x hx)
    have hdescription : descriptionText ((kept ++ blanks).dropWhile (·.kind = .blank)) =
        descriptionText (kept.dropWhile (·.kind = .blank)) := by
      rw [List.dropWhile_append]
      split_ifs with hnone
      · have hall : blanks.dropWhile (·.kind = .blank) = [] := by
          rw [List.dropWhile_eq_nil_iff]
          simpa using hblanks
        rw [hall, List.isEmpty_iff.1 hnone]
      · exact descriptionText_append_blank hempty _
    have hends : Ends kept := fun x hx => isTrivia_of_endsDescription
      (hb x (List.mem_append_left _ (List.mem_of_getLast? hx))) (hkept x hx)
    have htrivia : Trivia blanks := fun x hx => by rw [hblanks x hx]; rfl
    rw [hdescription]
    have hread := Reading.Headed.mk ht hl fun x hx => hb x (List.mem_append_left blanks hx)
    exact ⟨ts ++ l :: kept, blanks, by simp, htrivia, hends.mid (by rw [hl]; rfl) ts, _, hread⟩

theorem trims_many {items cs} (hR : ∀ {ls a cs}, R ls a cs → Tidy ls → Trims (Held R a) ls)
    (h : Reading.Many R ls items cs) (htidy : Tidy ls) :
    Trims (Held (Reading.Many R) items) ls := by
  induction h with
  | nil ht => exact .trivia ht ⟨_, .nil .nil⟩
  | cons ha _ ih =>
    exact (Trims.beside ⟨_, ha⟩ (hR ha htidy.of_append_left) (ih htidy.of_append_right)).imp held_cons

theorem trims_steps {steps cs} (h : Reading.Many Reading.Step ls steps cs) (htidy : Tidy ls) :
    Trims (Held (Reading.Many Reading.Step) steps) ls :=
  trims_many (fun h _ => trims_step h) h htidy

theorem trims_background {b cs} (h : Reading.Background ls b cs) (htidy : Tidy ls) :
    Trims (Held Reading.Background b) ls := by
  cases h with
  | mk hh h =>
    have hhead := trims_headed hh htidy.of_append_left
    exact (Trims.beside ⟨_, hh⟩ hhead (trims_steps h htidy.of_append_right)).imp held_background

theorem trims_examples {e cs} (h : Reading.Examples ls e cs) (htidy : Tidy ls) :
    Trims (Held Reading.Examples e) ls := by
  cases h with
  | mk ht hh hr =>
    have hhead := trims_headed hh htidy.of_append_right.of_append_left
    exact (Trims.beside ⟨_, ht⟩ (trims_tags ht)
      (.beside ⟨_, hh⟩ hhead (trims_rows hr))).imp held_examples

theorem trims_test {c cs} (h : Reading.Test ls c cs) (htidy : Tidy ls) :
    Trims (Held Reading.Test c) ls := by
  cases h with
  | scenario ht hh h =>
    have hhead := trims_headed hh htidy.of_append_right.of_append_left
    have hsteps := trims_steps h htidy.of_append_right.of_append_right
    exact (Trims.beside ⟨_, ht⟩ (trims_tags ht) (.beside ⟨_, hh⟩ hhead hsteps)).imp held_scenario
  | outline ht hh h he =>
    have hbody := htidy.of_append_right.of_append_right
    have hhead := trims_headed hh htidy.of_append_right.of_append_left
    have hsteps := trims_steps h hbody.of_append_left
    have hblocks := trims_many trims_examples he hbody.of_append_right
    exact (Trims.beside ⟨_, ht⟩ (trims_tags ht)
      (.beside ⟨_, hh⟩ hhead (.beside ⟨_, h⟩ hsteps hblocks))).imp held_outline

/-! ### Trivia at the start -/

theorem drops_tags {found cs} (h : Reading.Tags ls found cs) :
    Drops (Held Reading.Tags found) ls := by
  cases h with
  | nil ht => exact .trivia ht ⟨_, .nil .nil⟩
  | cons ht hl hf h => exact .mid (by rw [hl]; rfl) ht ⟨_, .cons .nil hl hf h⟩

theorem drops_step {step cs} (h : Reading.Step ls step cs) : Drops (Held Reading.Step step) ls := by
  cases h with
  | mk ht hl h => exact .mid (by rw [hl]; rfl) ht ⟨_, .mk .nil hl h⟩

/-- The header is there, so nothing is cut off after it. -/
theorem drops_headed {block : Block} {head cs} (h : Reading.Headed block as head cs) (hb : Q bs) :
    Drops (Beside (Held (Reading.Headed block) head) Q) (as ++ bs) := by
  cases h with
  | @mk ts l body _ _ ht hl hbody =>
    rw [List.append_assoc, List.cons_append]
    exact .mid (by rw [hl]; rfl) ht ⟨l :: body, bs, rfl, ⟨_, .mk .nil hl hbody⟩, hb⟩

theorem drops_background {b cs} (h : Reading.Background ls b cs) :
    Drops (Held Reading.Background b) ls := by
  cases h with
  | @mk _ _ _ steps _ _ hh h =>
    have hsteps : Held (Reading.Many Reading.Step) steps _ := ⟨_, h⟩
    exact (drops_headed hh hsteps).imp held_background

theorem drops_examples {e cs} (h : Reading.Examples ls e cs) :
    Drops (Held Reading.Examples e) ls := by
  cases h with
  | @mk _ _ _ _ head width rows _ _ _ ht hh hr =>
    have hrows : Held (Reading.Rows width) rows _ := ⟨_, hr⟩
    have hrest : Beside (Held (Reading.Headed .examples) head) (Held (Reading.Rows width) rows) _ :=
      ⟨_, _, rfl, ⟨_, hh⟩, hrows⟩
    exact ((drops_tags ht).beside hrest (drops_headed hh hrows)).imp held_examples

theorem drops_test {c cs} (h : Reading.Test ls c cs) : Drops (Held Reading.Test c) ls := by
  cases h with
  | @scenario _ _ _ _ head steps _ _ _ ht hh h =>
    have hsteps : Held (Reading.Many Reading.Step) steps _ := ⟨_, h⟩
    have hrest : Beside (Held (Reading.Headed .scenario) head) _ _ := ⟨_, _, rfl, ⟨_, hh⟩, hsteps⟩
    exact ((drops_tags ht).beside hrest (drops_headed hh hsteps)).imp held_scenario
  | @outline _ _ _ _ _ head steps blocks _ _ _ _ ht hh h he =>
    have hbody : Beside (Held (Reading.Many Reading.Step) steps)
        (Held (Reading.Many Reading.Examples) blocks) _ := ⟨_, _, rfl, ⟨_, h⟩, ⟨_, he⟩⟩
    have hrest : Beside (Held (Reading.Headed .outline) head) _ _ := ⟨_, _, rfl, ⟨_, hh⟩, hbody⟩
    exact ((drops_tags ht).beside hrest (drops_headed hh hbody)).imp held_outline

/-! ### Cores -/

/-- A block of a feature: its background or a test. -/
inductive Reading.Block (ls : List Line) : Child → List Comment → Prop
  | background {b cs} (h : Reading.Background ls b cs) : Block ls (.background b) cs
  | test {c cs} (h : Reading.Test ls c cs) : Block ls c cs

theorem blocks_of_children {children : List Child} {cs} (h : Reading.Children ls children cs) :
    ∃ ds, Reading.Many Reading.Block ls children ds := by
  have htests : ∀ {ls tests cs}, Reading.Many Reading.Test ls tests cs →
      Reading.Many Reading.Block ls tests cs := by
    intro ls tests cs h
    induction h with
    | nil ht => exact .nil ht
    | cons h _ ih => exact .cons (.test h) ih
  cases h with
  | tests h => exact ⟨_, htests h⟩
  | background hb h => exact ⟨_, .cons (.background hb) (htests h)⟩

/-- The lines are a core that holds the node. -/
def HasCore (R : List Line → α → List Comment → Prop) (a : α) (core : List Line) : Prop :=
  IsCore core ∧ Held R a core

/-- The lines of a node have a core that holds the node, with trivia around it. -/
def Pares (R : List Line → α → List Comment → Prop) : Prop :=
  ∀ {ls a cs}, R ls a cs → Tidy ls →
    ∃ ts core us, ls = ts ++ (core ++ us) ∧ Trivia ts ∧ Trivia us ∧ HasCore R a core

theorem Pares.of_drops (hd : ∀ {ls a cs}, R ls a cs → Drops (Held R a) ls)
    (ht : ∀ {ls a cs}, R ls a cs → Tidy ls → Trims (Held R a) ls)
    (hnil : ∀ {a}, ¬Held R a []) : Pares R := by
  intro ls a cs h htidy
  obtain ⟨ts, core, rfl, hts, hstarts, ds, hcore⟩ := hd h
  obtain ⟨core, us, rfl, hus, hends, hheld⟩ := ht hcore htidy.of_append_right
  refine ⟨ts, core, us, rfl, hts, hus, ⟨?_, hstarts.of_append, hends⟩, hheld⟩
  rintro rfl
  exact hnil hheld

theorem not_held_step {step} : ¬Held Reading.Step step [] := by
  rintro ⟨cs, h⟩
  generalize hls : [] = ls at h
  cases h
  simp at hls

theorem ne_nil_of_headed {block : Block} {head cs} (h : Reading.Headed block ls head cs) :
    ls ≠ [] := by
  cases h
  simp

theorem ne_nil_of_test {c cs} (h : Reading.Test ls c cs) : ls ≠ [] := by
  cases h with
  | scenario _ hh _ | outline _ hh _ _ => simp [ne_nil_of_headed hh]

theorem pares_step : Pares Reading.Step :=
  Pares.of_drops drops_step (fun h _ => trims_step h) not_held_step

theorem pares_examples : Pares Reading.Examples := by
  refine Pares.of_drops drops_examples trims_examples ?_
  rintro e ⟨cs, h⟩
  generalize hls : [] = ls at h
  cases h with
  | mk _ hh _ => simp [ne_nil_of_headed hh] at hls

theorem pares_background : Pares Reading.Background := by
  refine Pares.of_drops drops_background trims_background ?_
  rintro b ⟨cs, h⟩
  generalize hls : [] = ls at h
  cases h with
  | mk hh _ => simp [ne_nil_of_headed hh] at hls

theorem pares_test : Pares Reading.Test :=
  Pares.of_drops drops_test trims_test fun ⟨_, h⟩ => ne_nil_of_test h rfl

theorem pares_block : Pares Reading.Block := by
  intro ls c cs h htidy
  cases h with
  | background h =>
    obtain ⟨ts, core, us, hls, ht, hu, hcore, ds, hb⟩ := pares_background h htidy
    exact ⟨ts, core, us, hls, ht, hu, hcore, ds, .background hb⟩
  | test h =>
    obtain ⟨ts, core, us, hls, ht, hu, hcore, ds, hc⟩ := pares_test h htidy
    exact ⟨ts, core, us, hls, ht, hu, hcore, ds, .test hc⟩

/-! ### Sequences -/

/-- Lines that fall into cores with trivia in between. -/
inductive Segmented : List Line → List (List Line) → Prop
  | nil {ts : List Line} (ht : Trivia ts) : Segmented ts []
  | cons {ts core ls : List Line} {cores : List (List Line)} (ht : Trivia ts) (hc : IsCore core)
    (h : Segmented ls cores) : Segmented (ts ++ (core ++ ls)) (core :: cores)

theorem Segmented.lead (ht : Trivia ts) (h : Segmented ls cores) : Segmented (ts ++ ls) cores := by
  cases h with
  | nil hu => exact .nil (ht.append hu)
  | cons hu hc h =>
    rw [← List.append_assoc]
    exact .cons (ht.append hu) hc h

theorem Segmented.sublist (h : Segmented ls cores) : ∀ core ∈ cores, core.Sublist ls := by
  induction h with
  | nil => simp
  | @cons ts core ls cores _ _ _ ih =>
    refine List.forall_mem_cons.2 ⟨?_, fun x hx => ?_⟩
    · exact (List.sublist_append_left core ls).trans (List.sublist_append_right ts _)
    · exact (ih x hx).trans ((List.sublist_append_right core ls).trans (List.sublist_append_right ts _))

theorem Segmented.append {cores' : List (List Line)} (h : Segmented as cores)
    (h' : Segmented bs cores') : Segmented (as ++ bs) (cores ++ cores') := by
  induction h with
  | nil ht => exact h'.lead ht
  | cons ht hc _ ih =>
    rw [List.append_assoc, List.append_assoc]
    exact .cons ht hc ih

/-- The lines of a sequence fall into the cores of its items. -/
theorem exists_segmented (hR : Pares R) {items : List α} {cs} (h : Reading.Many R ls items cs)
    (htidy : Tidy ls) :
    ∃ cores, Segmented ls cores ∧ List.Forall₂ (HasCore R) items cores := by
  induction h with
  | nil ht => exact ⟨[], .nil ht, .nil⟩
  | @cons as a cs ls more ds ha _ ih =>
    obtain ⟨ts, core, us, rfl, ht, hu, hcore⟩ := hR ha htidy.of_append_left
    obtain ⟨cores, hcores, hitems⟩ := ih htidy.of_append_right
    refine ⟨core :: cores, ?_, .cons hcore hitems⟩
    rw [List.append_assoc, List.append_assoc]
    exact .cons ht hcore.1 (hcores.lead hu)

end Gherkin.Document
