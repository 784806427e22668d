import Mathlib.Data.List.TakeWhile
import Gherkin.Proofs.Document.Reading

/-! What a parser reads is there: the lines that it uses up hold the node that it returns, and the
comments that it passes are the comments among them. -/

open Gherkin.Document.Parser

namespace Gherkin.Document

variable {ls ts : List Line} {cs : List Comment}

/-! ### Trivia before an item -/

namespace Reading

theorem Tags.lead {found} (ht : Trivia ts) (h : Tags ls found cs) :
    Tags (ts ++ ls) found (commentsOf ts ++ cs) := by
  cases h with
  | nil h => simpa using Tags.nil (ht.append h)
  | cons h hl hf hm => simpa using Tags.cons (ht.append h) hl hf hm

theorem Rows.lead {width rows} (ht : Trivia ts) (h : Rows width ls rows cs) :
    Rows width (ts ++ ls) rows (commentsOf ts ++ cs) := by
  cases h with
  | nil h => simpa using Rows.nil (ht.append h)
  | cons h hl hw hm => simpa using Rows.cons (ht.append h) hl hw hm

theorem Argument.lead {arg} (ht : Trivia ts) (h : Argument ls arg cs) :
    Argument (ts ++ ls) arg (commentsOf ts ++ cs) := by
  cases h with
  | none h => simpa using Argument.none (ht.append h)
  | table h => exact .table (h.lead ht)
  | docString h ho hb hc => simpa using Argument.docString (ht.append h) ho hb hc

theorem Step.lead {step} (ht : Trivia ts) (h : Step ls step cs) :
    Step (ts ++ ls) step (commentsOf ts ++ cs) := by
  cases h with
  | mk h hl ha => simpa using Step.mk (ht.append h) hl ha

theorem Headed.lead {block head} (ht : Trivia ts) (h : Headed block ls head cs) :
    Headed block (ts ++ ls) head (commentsOf ts ++ cs) := by
  cases h with
  | mk h hl hb => simpa using Headed.mk (ht.append h) hl hb

theorem Background.lead {b} (ht : Trivia ts) (h : Background ls b cs) :
    Background (ts ++ ls) b (commentsOf ts ++ cs) := by
  cases h with
  | mk hh h => simpa using Background.mk (hh.lead ht) h

theorem Examples.lead {e} (ht : Trivia ts) (h : Examples ls e cs) :
    Examples (ts ++ ls) e (commentsOf ts ++ cs) := by
  cases h with
  | mk h hh hr => simpa using Examples.mk (h.lead ht) hh hr

theorem Test.lead {t} (ht : Trivia ts) (h : Test ls t cs) :
    Test (ts ++ ls) t (commentsOf ts ++ cs) := by
  cases h with
  | scenario h hh hs => simpa using Test.scenario (h.lead ht) hh hs
  | outline h hh hs he => simpa using Test.outline (h.lead ht) hh hs he

theorem Feature.lead {language f} (ht : Trivia ts) (h : Feature language ls f cs) :
    Feature language (ts ++ ls) f (commentsOf ts ++ cs) := by
  cases h with
  | mk h hh hc => simpa using Feature.mk (h.lead ht) hh hc

theorem Many.lead {α : Type} {R : List Line → α → List Comment → Prop} {items}
    (hR : ∀ {as a bs}, R as a bs → R (ts ++ as) a (commentsOf ts ++ bs)) (ht : Trivia ts)
    (h : Many R ls items cs) : Many R (ts ++ ls) items (commentsOf ts ++ cs) := by
  cases h with
  | nil h => simpa using Many.nil (ht.append h)
  | cons h hs => simpa using Many.cons (hR h) hs

theorem Children.lead {children} (ht : Trivia ts) (h : Children ls children cs) :
    Children (ts ++ ls) children (commentsOf ts ++ cs) := by
  cases h with
  | tests h => exact .tests (h.lead (fun h => h.lead ht) ht)
  | background hb h => simpa using Children.background (hb.lead ht) h

end Reading

/-! ### Runs of like lines -/

theorem commentsOf_of_comment {l : Line} (h : l.kind = .comment) : commentsOf [l] = [commentOf l] := by
  simp [commentsOf, h]

theorem commentsOf_of_ne {l : Line} (h : l.kind ≠ .comment) : commentsOf [l] = [] := by
  simp [commentsOf, h]

theorem Trivia.single {l : Line} (h : l.kind.isTrivia) : Trivia [l] := Trivia.nil.cons h

/-- What a parser has read: the lines before the rest hold the value. -/
def Read {α : Type} (R : List Line → α → List Comment → Prop) (ls : List Line) (p : Parsed α) :
    Prop :=
  ∃ as, ls = as ++ p.rest ∧ R as p.value p.comments

theorem read_tags {p} (h : tags ls = .ok p) : Read Reading.Tags ls p := by
  fun_induction tags ls generalizing p with
  | case1 =>
    cases h
    exact ⟨[], rfl, .nil .nil⟩
  | case2 l ls hl ih | case3 l ls code hl ih =>
    obtain ⟨as, hls, hr⟩ := ih h
    have ht : Trivia [l] := .single (by simp [hl, LineKind.isTrivia])
    have hr := hr.lead ht
    rw [commentsOf_of_ne (by simp [hl])] at hr
    exact ⟨l :: as, by rw [hls]; rfl, hr⟩
  | case4 l ls hl ih =>
    obtain ⟨q, hq, rfl⟩ := map_eq_ok_iff.1 h
    obtain ⟨as, hls, hr⟩ := ih hq
    have ht : Trivia [l] := .single (by simp [hl, LineKind.isTrivia])
    have hr := hr.lead ht
    rw [commentsOf_of_comment hl] at hr
    exact ⟨l :: as, by rw [hls]; rfl, hr⟩
  | case5 => cases h
  | case6 l ls hl found hf ih =>
    obtain ⟨q, hq, rfl⟩ := map_eq_ok_iff.1 h
    obtain ⟨as, hls, hr⟩ := ih hq
    exact ⟨l :: as, by rw [hls]; rfl, .cons .nil hl hf hr⟩
  | case7 =>
    cases h
    exact ⟨[], rfl, .nil .nil⟩

/-- All rows have as many cells as the width that is asked for, or else as the first row. -/
theorem read_rows {width : Option Nat} {p} (h : rows width ls = .ok p) :
    ∃ w, (∀ v ∈ width, v = w) ∧ Read (Reading.Rows w) ls p := by
  fun_induction rows width ls generalizing p with
  | case1 width =>
    cases h
    exact ⟨width.getD 0, by rintro v rfl; rfl, [], rfl, .nil .nil⟩
  | case2 width l ls hl ih | case3 width l ls code hl ih =>
    obtain ⟨w, hw, as, hls, hr⟩ := ih h
    have ht : Trivia [l] := .single (by simp [hl, LineKind.isTrivia])
    have hr := hr.lead ht
    rw [commentsOf_of_ne (by simp [hl])] at hr
    exact ⟨w, hw, l :: as, by rw [hls]; rfl, hr⟩
  | case4 width l ls hl ih =>
    obtain ⟨q, hq, rfl⟩ := map_eq_ok_iff.1 h
    obtain ⟨w, hw, as, hls, hr⟩ := ih hq
    have ht : Trivia [l] := .single (by simp [hl, LineKind.isTrivia])
    have hr := hr.lead ht
    rw [commentsOf_of_comment hl] at hr
    exact ⟨w, hw, l :: as, by rw [hls]; rfl, hr⟩
  | case5 width l ls hl cells hw =>
    rename_i ih
    obtain ⟨q, hq, rfl⟩ := map_eq_ok_iff.1 h
    obtain ⟨w, hw', as, hls, hr⟩ := ih hq
    obtain rfl := hw' _ rfl
    refine ⟨_, ?_, l :: as, by rw [hls]; rfl, .cons .nil hl rfl hr⟩
    rintro v rfl
    exact hw
  | case6 => cases h
  | case7 width =>
    cases h
    exact ⟨width.getD 0, by rintro v rfl; rfl, [], rfl, .nil .nil⟩

/-! ### Descriptions -/

section
variable {α : Type} {p q : α → Bool}

theorem dropWhile_dropWhile_of_imp (h : ∀ a, p a → q a) (xs : List α) :
    (xs.dropWhile p).dropWhile q = xs.dropWhile q := by
  induction xs with
  | nil => rfl
  | cons x xs ih =>
    by_cases hp : p x
    · simp [hp, h x hp, ih]
    · simp [hp]

theorem takeWhile_dropWhile_of_imp (h : ∀ a, p a → q a) (xs : List α) :
    (xs.dropWhile p).takeWhile q = (xs.takeWhile q).dropWhile p := by
  induction xs with
  | nil => rfl
  | cons x xs ih =>
    by_cases hp : p x
    · simp [hp, h x hp, ih]
    · by_cases hq : q x <;> simp [hp, hq]

end

theorem endsDescription_blank (block : Block) {l : Line} (h : l.kind = .blank) :
    endsDescription block l.kind = false := by
  rw [h]
  rfl

/-- The lines after a description start with the first line that ends it. -/
theorem description_rest (block : Block) (ls : List Line) :
    (description block ls).2 = ls.dropWhile fun l => !endsDescription block l.kind :=
  dropWhile_dropWhile_of_imp
    (fun l h => by simp [endsDescription_blank block (of_decide_eq_true h)]) ls

theorem description_text (block : Block) (ls : List Line) :
    (description block ls).1 = descriptionText
      ((ls.takeWhile fun l => !endsDescription block l.kind).dropWhile (·.kind = .blank)) := by
  rw [description, takeWhile_dropWhile_of_imp
    (fun l h => by simp [endsDescription_blank block (of_decide_eq_true h)])]

/-- A header line and the lines of its description hold a heading. -/
theorem read_heading {block : Block} {l : Line} {keyword name : Text}
    (hl : l.kind = .header block keyword name) (rest : List Line) :
    ∃ as, l :: rest = as ++ (description block rest).2 ∧
      Reading.Headed block as (heading l block keyword name rest) [] := by
  refine ⟨l :: rest.takeWhile fun l => !endsDescription block l.kind, ?_, ?_⟩
  · rw [description_rest, List.cons_append, List.takeWhile_append_dropWhile]
  · rw [heading, description_text]
    refine Reading.Headed.mk .nil hl fun x hx => ?_
    simpa using List.mem_takeWhile_imp hx

/-! ### Steps -/

theorem read_docString {indent : Nat} {fence : Fence} {p}
    (h : docString indent fence ls = some p) :
    ∃ body last, ls = body ++ last :: p.2 ∧ (∀ l ∈ body, isFence fence l.kind = false) ∧
      isFence fence last.kind ∧ p.1 = body.map (contentLine indent fence) := by
  fun_induction docString indent fence ls generalizing p with
  | case1 => cases h
  | case2 l ls hl =>
    cases h
    exact ⟨[], l, rfl, by simp, hl, rfl⟩
  | case3 l ls hl ih =>
    obtain ⟨q, hq, rfl⟩ := Option.map_eq_some_iff.1 h
    obtain ⟨body, last, rfl, hb, hc, hp⟩ := ih hq
    refine ⟨l :: body, last, rfl, ?_, hc, by simp [hp]⟩
    exact List.forall_mem_cons.2 ⟨by simpa using hl, hb⟩

theorem read_argument {p} (h : argument ls = .ok p) : Read Reading.Argument ls p := by
  unfold argument at h
  split at h
  · next passed hs =>
    cases h
    obtain ⟨ts, ht, rfl, rfl⟩ := trivia_of_skipTrivia hs
    exact ⟨ts, rfl, .none ht⟩
  · next passed l rest hs =>
    obtain ⟨ts, ht, rfl, rfl⟩ := trivia_of_skipTrivia hs
    split at h
    · next hl =>
      obtain ⟨q, hq, rfl⟩ := map_eq_ok_iff.1 h
      obtain ⟨w, -, as, has, hr⟩ := read_rows hq
      -- the table stands where its first row does
      have hfirst : ∃ more, q.value = ⟨l.location, Cell.split l.text l.location⟩ :: more := by
        simp only [rows, hl, Option.getD_none, if_true] at hq
        obtain ⟨q', -, rfl⟩ := map_eq_ok_iff.1 hq
        exact ⟨q'.value, rfl⟩
      obtain ⟨more, hv⟩ := hfirst
      refine ⟨ts ++ as, by rw [has, List.append_assoc], ?_⟩
      rw [hv] at hr ⊢
      exact .table (hr.lead ht)
    · next fence contentType hl =>
      split at h
      · cases h
      · next content rest' hd =>
        cases h
        obtain ⟨body, last, rfl, hb, hc, hcontent⟩ := read_docString hd
        simp only at hcontent
        refine ⟨ts ++ l :: body ++ [last], by simp, ?_⟩
        rw [hcontent]
        exact .docString ht hl hb hc
    · cases h
      exact ⟨ts, rfl, .none ht⟩

theorem read_steps {p} (h : steps ls = .ok p) : Read (Reading.Many Reading.Step) ls p := by
  fun_induction steps ls generalizing p with
  | case1 ls passed hs =>
    cases h
    obtain ⟨ts, ht, rfl, rfl⟩ := trivia_of_skipTrivia hs
    exact ⟨ts, rfl, .nil ht⟩
  | case2 => cases h
  | case3 ls passed l rest hs keyword text hl arg ha ih =>
    obtain ⟨q, hq, rfl⟩ := map_eq_ok_iff.1 h
    obtain ⟨ts, ht, rfl, rfl⟩ := trivia_of_skipTrivia hs
    obtain ⟨as, rfl, hra⟩ := read_argument ha
    obtain ⟨bs, hbs, hrb⟩ := ih hq
    refine ⟨(ts ++ l :: as) ++ bs, by simp [hbs], ?_⟩
    exact .cons (.mk ht hl hra) hrb
  | case4 ls passed l rest hs hl =>
    cases h
    obtain ⟨ts, ht, rfl, rfl⟩ := trivia_of_skipTrivia hs
    exact ⟨ts, rfl, .nil ht⟩

/-! ### Blocks -/

theorem read_background {l : Line} {keyword name : Text} {rest : List Line} {p}
    (hl : l.kind = .header .background keyword name)
    (h : background l keyword name rest = .ok p) :
    Read Reading.Background (l :: rest) p := by
  obtain ⟨q, hq, rfl⟩ := map_eq_ok_iff.1 h
  obtain ⟨hs, hrest, hh⟩ := read_heading hl rest
  obtain ⟨ss, hss, hr⟩ := read_steps hq
  refine ⟨hs ++ ss, by rw [hrest, hss, List.append_assoc], ?_⟩
  simpa using Reading.Background.mk hh hr

theorem read_examples {last : Nat} {p} (h : examples last ls = .ok p) :
    Read Reading.Examples ls p := by
  unfold examples at h
  split at h
  · cases h
  · cases h
  · next found passed l rest ht =>
    split at h
    · next keyword name hl =>
      split at h
      · cases h
      · next table hr =>
        split at h
        · cases h
        · cases h
          obtain ⟨ts, rfl, hrt⟩ := read_tags ht
          obtain ⟨hs, hrest, hh⟩ := read_heading hl rest
          obtain ⟨w, -, rs, hrs, hrr⟩ := read_rows hr
          refine ⟨ts ++ (hs ++ rs), by simp [hrest, hrs], ?_⟩
          simpa using Reading.Examples.mk hrt hh hrr
    · cases h

theorem read_examplesBlocks {last : Nat} {p} (h : examplesBlocks last ls = .ok p) :
    Read (Reading.Many Reading.Examples) ls p := by
  fun_induction examplesBlocks last ls generalizing p with
  | case1 => cases h
  | case2 ls hf block hb ih =>
    obtain ⟨q, hq, rfl⟩ := map_eq_ok_iff.1 h
    obtain ⟨ts, ht, hls, hcs⟩ := exists_trivia ls
    obtain ⟨as, has, hra⟩ := read_examples hb
    obtain ⟨bs, hbs, hrb⟩ := ih hq
    refine ⟨(ts ++ as) ++ bs, by rw [hls, has, hbs]; simp, ?_⟩
    rw [hcs]
    exact .cons (hra.lead ht) hrb
  | case3 ls hf =>
    cases h
    obtain ⟨ts, ht, hls, hcs⟩ := exists_trivia ls
    exact ⟨ts, hls, by rw [hcs]; exact .nil ht⟩

theorem read_test {last : Nat} {p} (h : test last ls = .ok p) : Read Reading.Test ls p := by
  unfold test at h
  split at h
  · cases h
  · cases h
  · next found passed l rest ht =>
    obtain ⟨ts, rfl, hrt⟩ := read_tags ht
    split at h
    · next keyword name hl =>
      obtain ⟨q, hq, rfl⟩ := map_eq_ok_iff.1 h
      obtain ⟨hs, hrest, hh⟩ := read_heading hl rest
      obtain ⟨ss, hss, hr⟩ := read_steps hq
      refine ⟨ts ++ (hs ++ ss), by simp [hrest, hss], ?_⟩
      simpa using Reading.Test.scenario hrt hh hr
    · next keyword name hl =>
      split at h
      · cases h
      · next s hsteps =>
        obtain ⟨q, hq, rfl⟩ := map_eq_ok_iff.1 h
        obtain ⟨hs, hrest, hh⟩ := read_heading hl rest
        obtain ⟨ss, hss, hr⟩ := read_steps hsteps
        obtain ⟨es, hes, hre⟩ := read_examplesBlocks hq
        refine ⟨ts ++ (hs ++ (ss ++ es)), by simp [hrest, hss, hes], ?_⟩
        simpa using Reading.Test.outline hrt hh hr hre
    · cases h
    · cases h

/-! ### The document -/

/-- Once there is a block before them, the blocks of a feature are tests. -/
theorem read_tests {last : Nat} {before : Child} {p}
    (h : children last (some before) ls = .ok p) : Reading.Many Reading.Test ls p.1 p.2 := by
  generalize hb : some before = b at h
  fun_induction children last b ls generalizing before p with
  | case1 b ls passed hs =>
    cases h
    obtain ⟨ts, ht, rfl, rfl⟩ := trivia_of_skipTrivia hs
    simpa using Reading.Many.nil ht
  | case2 => cases h
  | case3 b ls passed l rest hs hl t ht ih =>
    obtain ⟨q, hq, rfl⟩ := Parser.map_eq_ok_iff.1 h
    obtain ⟨ts, htr, rfl, rfl⟩ := trivia_of_skipTrivia hs
    obtain ⟨as, has, hr⟩ := read_test ht
    rw [has, ← List.append_assoc]
    exact .cons (hr.lead htr) (ih rfl hq)
  | case4 => cases h
  | case5 => cases hb
  | case6 => cases h
  | case7 => cases h

theorem read_children {last : Nat} {p} (h : children last none ls = .ok p) :
    Reading.Children ls p.1 p.2 := by
  rw [children] at h
  split at h
  · next passed hs =>
    cases h
    obtain ⟨ts, ht, rfl, rfl⟩ := trivia_of_skipTrivia hs
    simpa using Reading.Children.tests (.nil ht)
  · next passed l rest hs =>
    obtain ⟨ts, htr, rfl, rfl⟩ := trivia_of_skipTrivia hs
    split at h
    · split at h
      · cases h
      · next t ht =>
        obtain ⟨q, hq, rfl⟩ := map_eq_ok_iff.1 h
        obtain ⟨as, has, hr⟩ := read_test ht
        rw [has, ← List.append_assoc]
        exact .tests (.cons (hr.lead htr) (read_tests hq))
    · split at h
      · next keyword name hl _ =>
        split at h
        · cases h
        · next b hb =>
          obtain ⟨q, hq, rfl⟩ := map_eq_ok_iff.1 h
          obtain ⟨as, has, hr⟩ := read_background hl hb
          rw [has, ← List.append_assoc]
          exact .background (hr.lead htr) (read_tests hq)
      · cases h
      · cases h

theorem read_feature {last : Nat} {language : Text} {p}
    (h : Parser.feature last language ls = .ok p) : Reading.Feature language ls p.1 p.2 := by
  unfold Parser.feature at h
  split at h
  · cases h
  · cases h
  · next found passed l rest ht =>
    split at h
    · next keyword name hl =>
      obtain ⟨q, hq, rfl⟩ := map_eq_ok_iff.1 h
      obtain ⟨ts, rfl, hrt⟩ := read_tags ht
      obtain ⟨hs, hrest, hh⟩ := read_heading hl rest
      simp only [hrest]
      have hread : Reading.Feature language _ _ _ := .mk hrt hh (read_children hq)
      simpa using hread
    · cases h

/-- What the parser makes of lines is what they hold. -/
theorem reading_of_document {language : Text} {d : Document}
    (h : document language ls = .ok d) : Reading language ls d := by
  unfold document at h
  split at h
  · next passed hs =>
    cases h
    obtain ⟨ts, ht, rfl, rfl⟩ := trivia_of_skipTrivia hs
    have hread : Reading language _ _ := .empty ht
    simpa using hread
  · next passed l rest hs =>
    obtain ⟨q, hq, rfl⟩ := map_eq_ok_iff.1 h
    obtain ⟨ts, ht, rfl, rfl⟩ := trivia_of_skipTrivia hs
    exact .feature ((read_feature hq).lead ht)

end Gherkin.Document
