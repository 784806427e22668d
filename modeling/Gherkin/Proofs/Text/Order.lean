import Mathlib.Data.List.Perm.Basic
import Gherkin.Text.Order

/-! Sorting by insertion keeps what there is and puts it in order. Texts are ordered by code point,
which is the order of their bytes in UTF-8. -/

namespace Gherkin

/-! ### Sorting -/

section Sorting

variable {α : Type} {le : α → α → Bool}

theorem perm_insertBy (le : α → α → Bool) (x : α) (xs : List α) :
    (insertBy le x xs).Perm (x :: xs) := by
  induction xs with
  | nil => exact List.Perm.refl _
  | cons y ys ih =>
    rw [insertBy]
    split
    · exact List.Perm.refl _
    · exact (ih.cons y).trans (List.Perm.swap x y ys)

theorem perm_sortBy (le : α → α → Bool) (xs : List α) : (sortBy le xs).Perm xs := by
  induction xs with
  | nil => exact List.Perm.refl _
  | cons x xs ih => exact (perm_insertBy le x _).trans (ih.cons x)

variable (total : ∀ a b, le a b ∨ le b a) (trans : ∀ a b c, le a b → le b c → le a c)

include total trans

theorem pairwise_insertBy (x : α) {xs : List α} (h : xs.Pairwise fun a b => le a b) :
    (insertBy le x xs).Pairwise fun a b => le a b := by
  induction xs with
  | nil => exact List.pairwise_singleton _ x
  | cons y ys ih =>
    obtain ⟨hy, hys⟩ := List.pairwise_cons.1 h
    rw [insertBy]
    split
    · next hxy =>
      refine List.pairwise_cons.2 ⟨fun z hz => ?_, h⟩
      rcases List.mem_cons.1 hz with rfl | hz
      · exact hxy
      · exact trans x y z hxy (hy z hz)
    · next hxy =>
      refine List.pairwise_cons.2 ⟨fun z hz => ?_, ih hys⟩
      rcases mem_insertBy.1 hz with rfl | hz
      · exact (total z y).resolve_left hxy
      · exact hy z hz

theorem pairwise_sortBy (xs : List α) : (sortBy le xs).Pairwise fun a b => le a b := by
  induction xs with
  | nil => exact List.Pairwise.nil
  | cons x xs ih => exact pairwise_insertBy total trans x ih

end Sorting

theorem dropRepeats_sublist {α : Type} [DecidableEq α] (xs : List α) :
    (dropRepeats xs).Sublist xs := by
  fun_induction dropRepeats xs with
  | case1 x xs ih => exact ih.cons x
  | case2 x y xs _ ih => exact ih.cons_cons x
  | case3 xs => exact List.Sublist.refl xs

namespace Text

/-! ### The order by code point -/

theorem leq_total (s t : Text) : leq s t ∨ leq t s := by
  induction s generalizing t with
  | nil => exact .inl rfl
  | cons a s ih =>
    cases t with
    | nil => exact .inr rfl
    | cons b t =>
      simp only [leq, Bool.or_eq_true, Bool.and_eq_true, decide_eq_true_eq, beq_iff_eq]
      rcases Nat.lt_trichotomy a.toNat b.toNat with h | h | h
      · exact .inl (.inl h)
      · obtain rfl := Char.toNat_inj.1 h
        exact (ih t).imp (fun h => .inr ⟨rfl, h⟩) fun h => .inr ⟨rfl, h⟩
      · exact .inr (.inl h)

theorem leq_trans (s t u : Text) (h : leq s t) (h' : leq t u) : leq s u := by
  induction s generalizing t u with
  | nil => rfl
  | cons a s ih =>
    cases t with
    | nil => cases h
    | cons b t =>
      cases u with
      | nil => cases h'
      | cons c u =>
        simp only [leq, Bool.or_eq_true, Bool.and_eq_true, decide_eq_true_eq, beq_iff_eq] at h h' ⊢
        rcases h with h | ⟨rfl, h⟩
        · rcases h' with h' | ⟨rfl, -⟩
          · exact .inl (Nat.lt_trans h h')
          · exact .inl h
        · rcases h' with h' | ⟨rfl, h'⟩
          · exact .inl h'
          · exact .inr ⟨rfl, ih t u h h'⟩

/-! ### The order by length -/

theorem longerThenLeq_total (s t : Text) : longerThenLeq s t ∨ longerThenLeq t s := by
  simp only [longerThenLeq, Bool.or_eq_true, Bool.and_eq_true, decide_eq_true_eq, beq_iff_eq]
  rcases Nat.lt_trichotomy s.length t.length with h | h | h
  · exact .inr (.inl h)
  · exact (leq_total s t).imp (fun hle => .inr ⟨h.symm, hle⟩) fun hle => .inr ⟨h, hle⟩
  · exact .inl (.inl h)

theorem longerThenLeq_trans (s t u : Text) (h : longerThenLeq s t) (h' : longerThenLeq t u) :
    longerThenLeq s u := by
  simp only [longerThenLeq, Bool.or_eq_true, Bool.and_eq_true, decide_eq_true_eq,
    beq_iff_eq] at h h' ⊢
  rcases h with h | ⟨heq, hle⟩
  · exact .inl (by omega)
  · exact h'.imp (fun h' => by omega) fun h' => ⟨by omega, leq_trans s t u hle h'.2⟩

theorem length_le_of_longerThenLeq {s t : Text} (h : longerThenLeq s t) : t.length ≤ s.length := by
  simp only [longerThenLeq, Bool.or_eq_true, Bool.and_eq_true, decide_eq_true_eq, beq_iff_eq] at h
  omega

/-! ### Bytes -/

/-- The bytes of a text in UTF-8. -/
def bytes (t : Text) : List UInt8 := t.flatMap String.utf8EncodeChar

theorem bytes_cons (c : Char) (t : Text) : bytes (c :: t) = String.utf8EncodeChar c ++ bytes t := rfl

theorem append_lt_append_iff (u s t : List UInt8) : u ++ s < u ++ t ↔ s < t := by
  induction u with
  | nil => exact Iff.rfl
  | cons x u ih => simp [ih]

/-- A smaller character has the smaller bytes, whatever follows: the first byte grows with the number
of bytes, and among characters of one length the bytes are digits. -/
theorem utf8EncodeChar_lt {a b : Char} (h : a.toNat < b.toNat) (s t : List UInt8) :
    String.utf8EncodeChar a ++ s < String.utf8EncodeChar b ++ t := by
  have hb : b.val.toNat < 1114112 := by
    rcases b.valid with hb | hb
    · exact Nat.lt_trans hb (by decide)
    · exact hb.2
  have h : a.val.toNat < b.val.toNat := h
  unfold String.utf8EncodeChar
  generalize a.val.toNat = m at h
  generalize b.val.toNat = n at h hb
  -- a character is made of digits to the base 64, and all bytes but the first hold one each
  have digits : ∀ k : ℕ, k / 64 = k / 4096 * 64 + k / 64 % 64 ∧
      k / 4096 = k / 262144 * 64 + k / 4096 % 64 := fun k => by omega
  have hm := digits m
  have hn := digits n
  simp only
  split_ifs <;>
    simp only [List.cons_append, List.nil_append, List.cons_lt_cons_iff, UInt8.lt_iff_toNat_lt,
      ← UInt8.toNat_inj, UInt8.toNat_ofNat'] <;>
    simp (disch := omega) only [Nat.mod_eq_of_lt] <;>
    omega

/-- The order by code point is the order of the bytes. -/
theorem bytes_lt_of_leq {s t : Text} (h : leq s t) (hne : s ≠ t) : bytes s < bytes t := by
  induction s generalizing t with
  | nil =>
    cases t with
    | nil => exact absurd rfl hne
    | cons b t =>
      rw [bytes_cons]
      unfold String.utf8EncodeChar
      simp only
      split_ifs <;> exact List.nil_lt_cons _ _
  | cons a s ih =>
    cases t with
    | nil => cases h
    | cons b t =>
      simp only [leq, Bool.or_eq_true, Bool.and_eq_true, decide_eq_true_eq, beq_iff_eq] at h
      rw [bytes_cons, bytes_cons]
      rcases h with h | ⟨rfl, h⟩
      · exact utf8EncodeChar_lt h _ _
      · rw [append_lt_append_iff]
        exact ih h fun e => hne (by rw [e])

end Text

end Gherkin
