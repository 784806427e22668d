import Mathlib.Algebra.Order.Field.Power
import Mathlib.Data.Rat.Cast.Order
import Mathlib.Tactic.FieldSimp
import Mathlib.Tactic.Linarith
import Mathlib.Tactic.Positivity
import Mathlib.Tactic.Ring
import Gherkin.Settings.Scalar.Fraction

/-! The decimals of fractions. A decimal reads back to a fraction when it lies between the midpoints
to the neighbours of the fraction. What is written for a fraction reads back, nothing with fewer
places does, and nothing else with as many places that reads back is nearer. -/

namespace Gherkin.Settings.Fraction

/-! ### Midpoints -/

/-- The midpoint to the neighbour below. -/
def low (mantissa : ℕ) (exponent : ℤ) : ℚ :=
  ((mantissa : ℚ) - if mantissa = 2 ^ 52 then 1 / 4 else 1 / 2) * 2 ^ exponent

/-- The midpoint to the neighbour above. -/
def high (mantissa : ℕ) (exponent : ℤ) : ℚ := (mantissa + 1 / 2) * 2 ^ exponent

/-- The number that a mantissa and an exponent stand for. -/
def number (mantissa : ℕ) (exponent : ℤ) : ℚ := mantissa * 2 ^ exponent

/-- A number lies between the midpoints, or on one of them when the mantissa is even. -/
def Inside (mantissa : ℕ) (exponent : ℤ) (x : ℚ) : Prop :=
  (low mantissa exponent < x ∧ x < high mantissa exponent) ∨
    (Even mantissa ∧ (x = low mantissa exponent ∨ x = high mantissa exponent))

/-- A power with a whole exponent, as a quotient of powers. -/
theorem zpow_mul_toNat (b : ℚ) (hb : b ≠ 0) (n : ℤ) : b ^ n * b ^ (-n).toNat = b ^ n.toNat := by
  rw [← zpow_natCast b (-n).toNat, ← zpow_natCast b n.toNat, ← zpow_add₀ hb]
  congr 1
  omega

section Midpoints

variable {mantissa digits other : ℕ} {exponent place : ℤ}

/-- What the comparisons are scaled by so that no fraction is left. -/
def scale (exponent place : ℤ) : ℚ := 10 ^ (-place).toNat * 2 ^ (-exponent).toNat

theorem scale_pos (exponent place : ℤ) : 0 < scale exponent place := by
  unfold scale
  positivity

theorem ten_zpow_mul_scale (exponent place : ℤ) :
    10 ^ place * scale exponent place =
      ((10 ^ place.toNat * 2 ^ (-exponent).toNat : ℕ) : ℚ) := by
  have hten := zpow_mul_toNat 10 (by norm_num) place
  rw [scale, ← mul_assoc, hten]
  push_cast
  rfl

theorem two_zpow_mul_scale (exponent place : ℤ) :
    2 ^ exponent * scale exponent place =
      ((2 ^ exponent.toNat * 10 ^ (-place).toNat : ℕ) : ℚ) := by
  have htwo := zpow_mul_toNat 2 (by norm_num) exponent
  rw [scale, mul_comm (10 ^ (-place).toNat : ℚ), ← mul_assoc, htwo]
  push_cast
  rfl

theorem scaled_decimal (digits : ℕ) (exponent place : ℤ) :
    ((4 * digits * 10 ^ place.toNat * 2 ^ (-exponent).toNat : ℕ) : ℚ) =
      4 * (digits * 10 ^ place) * scale exponent place := by
  rw [mul_assoc, Nat.cast_mul, ← ten_zpow_mul_scale]
  push_cast
  ring

theorem scaled_low (hpos : 0 < mantissa) (exponent place : ℤ) :
    (((if mantissa = 2 ^ 52 then 4 * mantissa - 1 else 4 * mantissa - 2) *
        (2 ^ exponent.toNat * 10 ^ (-place).toNat) : ℕ) : ℚ) =
      4 * low mantissa exponent * scale exponent place := by
  rw [Nat.cast_mul, ← two_zpow_mul_scale, low]
  split
  · rw [Nat.cast_sub (by omega)]
    push_cast
    ring
  · rw [Nat.cast_sub (by omega)]
    push_cast
    ring

theorem scaled_high (mantissa : ℕ) (exponent place : ℤ) :
    (((4 * mantissa + 2) * (2 ^ exponent.toNat * 10 ^ (-place).toNat) : ℕ) : ℚ) =
      4 * high mantissa exponent * scale exponent place := by
  rw [Nat.cast_mul, ← two_zpow_mul_scale, high]
  push_cast
  ring

/-- The comparisons of whole numbers are those of the decimal with the midpoints. -/
theorem readsBack_iff (hpos : 0 < mantissa) :
    readsBack mantissa exponent digits place ↔
      Inside mantissa exponent (digits * 10 ^ place) := by
  have hscale : 0 < 4 * scale exponent place := by linarith [scale_pos exponent place]
  have hlt {a b : ℕ} {x y : ℚ} (ha : (a : ℚ) = 4 * x * scale exponent place)
      (hb : (b : ℚ) = 4 * y * scale exponent place) : a < b ↔ x < y := by
    rw [← Nat.cast_lt (α := ℚ), ha, hb, mul_right_comm, mul_right_comm 4 y,
      mul_lt_mul_iff_right₀ hscale]
  have heq {a b : ℕ} {x y : ℚ} (ha : (a : ℚ) = 4 * x * scale exponent place)
      (hb : (b : ℚ) = 4 * y * scale exponent place) : a = b ↔ x = y := by
    rw [← Nat.cast_inj (R := ℚ), ha, hb, mul_right_comm, mul_right_comm 4 y,
      mul_right_inj' hscale.ne']
  have hdecimal := scaled_decimal digits exponent place
  have hlow := scaled_low hpos exponent place
  have hhigh := scaled_high mantissa exponent place
  simp only [readsBack, Nat.pow_eq, Bool.or_eq_true, Bool.and_eq_true, decide_eq_true_eq,
    beq_iff_eq, hlt hlow hdecimal, hlt hdecimal hhigh, heq hdecimal hlow, heq hdecimal hhigh,
    Inside, Nat.even_iff]

theorem low_lt_number (mantissa : ℕ) (exponent : ℤ) :
    low mantissa exponent < number mantissa exponent := by
  have hunit : (0 : ℚ) < 2 ^ exponent := by positivity
  refine mul_lt_mul_of_pos_right ?_ hunit
  split <;> linarith

theorem number_lt_high (mantissa : ℕ) (exponent : ℤ) :
    number mantissa exponent < high mantissa exponent := by
  have hunit : (0 : ℚ) < 2 ^ exponent := by positivity
  exact mul_lt_mul_of_pos_right (by linarith) hunit

/-- The second number lies on the way from the first to the third. -/
def OnWay (x y z : ℚ) : Prop := (x ≤ y ∧ y ≤ z) ∨ (z ≤ y ∧ y ≤ x)

/-- Whatever lies on the way from a number inside to the middle lies inside. -/
theorem Inside.of_onWay {x y : ℚ} (h : Inside mantissa exponent x)
    (hway : OnWay x y (number mantissa exponent)) : Inside mantissa exponent y := by
  have hlow := low_lt_number mantissa exponent
  have hhigh := number_lt_high mantissa exponent
  rcases hway with ⟨hxy, hy⟩ | ⟨hy, hyx⟩
  · rcases h with ⟨hx, -⟩ | ⟨heven, rfl | rfl⟩
    · exact .inl ⟨by linarith, by linarith⟩
    · rcases hxy.lt_or_eq with hlt | heq
      · exact .inl ⟨hlt, by linarith⟩
      · exact .inr ⟨heven, .inl heq.symm⟩
    · linarith
  · rcases h with ⟨-, hx⟩ | ⟨heven, rfl | rfl⟩
    · exact .inl ⟨by linarith, by linarith⟩
    · linarith
    · rcases hyx.lt_or_eq with hlt | heq
      · exact .inl ⟨by linarith, hlt⟩
      · exact .inr ⟨heven, .inr heq⟩

theorem OnWay.abs_le {x y z : ℚ} (h : OnWay x y z) : |y - z| ≤ |x - z| := by
  rcases h with ⟨hxy, hyz⟩ | ⟨hzy, hyx⟩
  · rw [abs_of_nonpos (by linarith), abs_of_nonpos (by linarith)]
    linarith
  · rw [abs_of_nonneg (by linarith), abs_of_nonneg (by linarith)]
    linarith

/-! ### Candidates -/

theorem decimal_mul_scale (digits : ℕ) (exponent place : ℤ) :
    (digits : ℚ) * 10 ^ place * scale exponent place =
      ((digits * (10 ^ place.toNat * 2 ^ (-exponent).toNat) : ℕ) : ℚ) := by
  rw [Nat.cast_mul, ← ten_zpow_mul_scale, mul_assoc]

theorem number_mul_scale (mantissa : ℕ) (exponent place : ℤ) :
    number mantissa exponent * scale exponent place =
      ((mantissa * (2 ^ exponent.toNat * 10 ^ (-place).toNat) : ℕ) : ℚ) := by
  rw [Nat.cast_mul, ← two_zpow_mul_scale, number, mul_assoc]

/-- The decimals of a place around a number, and what is tried at the place: the nearer one first. -/
theorem exists_below (mantissa : ℕ) (exponent place : ℤ) :
    ∃ below : ℕ, (below : ℚ) * 10 ^ place ≤ number mantissa exponent ∧
      number mantissa exponent < ((below + 1 : ℕ) : ℚ) * 10 ^ place ∧
      digitsAt? mantissa exponent place =
        (if 2 * number mantissa exponent <
            (below : ℚ) * 10 ^ place + ((below + 1 : ℕ) : ℚ) * 10 ^ place
          then [below, below + 1] else [below + 1, below]).find?
        fun d => readsBack mantissa exponent d place := by
  let step := 10 ^ place.toNat * 2 ^ (-exponent).toNat
  let value := mantissa * (2 ^ exponent.toNat * 10 ^ (-place).toNat)
  have hstep : 0 < step := by positivity
  have hscale := scale_pos exponent place
  have hnumber : number mantissa exponent * scale exponent place = (value : ℚ) :=
    number_mul_scale mantissa exponent place
  have hdecimal (d : ℕ) : (d : ℚ) * 10 ^ place * scale exponent place = ((d * step : ℕ) : ℚ) :=
    decimal_mul_scale d exponent place
  refine ⟨value / step, ?_, ?_, ?_⟩
  · refine le_of_mul_le_mul_right ?_ hscale
    rw [hdecimal, hnumber]
    exact_mod_cast Nat.div_mul_le_self value step
  · refine lt_of_mul_lt_mul_right ?_ hscale.le
    rw [hdecimal, hnumber]
    exact_mod_cast Nat.lt_mul_of_div_lt (Nat.lt_succ_self (value / step)) hstep
  · have hsum : (((value / step : ℕ) : ℚ) * 10 ^ place + ((value / step + 1 : ℕ) : ℚ) * 10 ^ place) *
        scale exponent place = (((2 * (value / step) + 1) * step : ℕ) : ℚ) := by
      rw [add_mul, hdecimal, hdecimal]
      push_cast
      ring
    have hnear : 2 * value < (2 * (value / step) + 1) * step ↔ 2 * number mantissa exponent <
        ((value / step : ℕ) : ℚ) * 10 ^ place + ((value / step + 1 : ℕ) : ℚ) * 10 ^ place := by
      rw [← mul_lt_mul_iff_left₀ hscale, hsum, mul_assoc, hnumber]
      norm_cast
    show (if 2 * value < (2 * (value / step) + 1) * step then [value / step, value / step + 1]
      else [value / step, value / step + 1].reverse).find? _ = _
    simp only [hnear]
    rfl

/-- A decimal of the place of two neighbours lies beyond one of them, seen from between them. -/
theorem exists_onWay {below : ℕ} {place : ℤ} {x : ℚ} (hle : (below : ℚ) * 10 ^ place ≤ x)
    (hlt : x < ((below + 1 : ℕ) : ℚ) * 10 ^ place) (other : ℕ) :
    ∃ c ∈ [below, below + 1], OnWay (other * 10 ^ place) (c * 10 ^ place) x := by
  have hpower : (0 : ℚ) < 10 ^ place := by positivity
  rcases Nat.lt_or_ge below other with hother | hother
  · have hcast : ((below + 1 : ℕ) : ℚ) ≤ other := by exact_mod_cast hother
    exact ⟨below + 1, by simp, .inr ⟨hlt.le, mul_le_mul_of_nonneg_right hcast hpower.le⟩⟩
  · have hcast : (other : ℚ) ≤ below := by exact_mod_cast hother
    exact ⟨below, by simp, .inl ⟨mul_le_mul_of_nonneg_right hcast hpower.le, hle⟩⟩

/-- What is tried at a place are the two decimals around the number, the nearer one first. Every
decimal of the place is as far from the number as one of them, or farther on the same side. -/
theorem exists_candidates (mantissa : ℕ) (exponent place : ℤ) :
    ∃ first second : ℕ,
      digitsAt? mantissa exponent place =
        [first, second].find? (fun d => readsBack mantissa exponent d place) ∧
      |first * 10 ^ place - number mantissa exponent| ≤
        |second * 10 ^ place - number mantissa exponent| ∧
      ∀ other : ℕ, ∃ c ∈ [first, second],
        OnWay (other * 10 ^ place) (c * 10 ^ place) (number mantissa exponent) := by
  obtain ⟨below, hle, hlt, hdigits⟩ := exists_below mantissa exponent place
  have hbelow : |(below : ℚ) * 10 ^ place - number mantissa exponent| =
      number mantissa exponent - below * 10 ^ place := by
    rw [abs_of_nonpos (by linarith), neg_sub]
  have habove : |((below + 1 : ℕ) : ℚ) * 10 ^ place - number mantissa exponent| =
      ((below + 1 : ℕ) : ℚ) * 10 ^ place - number mantissa exponent := abs_of_pos (by linarith)
  have hway := exists_onWay hle hlt
  split at hdigits
  · next hnear =>
    refine ⟨below, below + 1, hdigits, ?_, hway⟩
    rw [hbelow, habove]
    linarith
  · next hfar =>
    refine ⟨below + 1, below, hdigits, ?_, fun other => ?_⟩
    · rw [hbelow, habove]
      linarith
    · obtain ⟨c, hc, hon⟩ := hway other
      exact ⟨c, by simpa [or_comm] using hc, hon⟩

/-- Nothing is found at a place only where no decimal reads back. -/
theorem not_readsBack_of_digitsAt? (hpos : 0 < mantissa)
    (h : digitsAt? mantissa exponent place = none) :
    ¬readsBack mantissa exponent other place := by
  obtain ⟨first, second, hdigits, -, hway⟩ := exists_candidates mantissa exponent place
  rw [hdigits, List.find?_eq_none] at h
  intro hother
  obtain ⟨c, hc, hon⟩ := hway other
  exact h c hc ((readsBack_iff hpos).2 (((readsBack_iff hpos).1 hother).of_onWay hon))

/-- What is found at a place is as near as anything there that reads back. -/
theorem abs_le_of_digitsAt? (hpos : 0 < mantissa)
    (h : digitsAt? mantissa exponent place = some digits)
    (hother : readsBack mantissa exponent other place) :
    |digits * 10 ^ place - number mantissa exponent| ≤
      |other * 10 ^ place - number mantissa exponent| := by
  obtain ⟨first, second, hdigits, hnear, hway⟩ := exists_candidates mantissa exponent place
  obtain ⟨c, hc, hon⟩ := hway other
  have hback : readsBack mantissa exponent c place :=
    (readsBack_iff hpos).2 (((readsBack_iff hpos).1 hother).of_onWay hon)
  refine le_trans ?_ hon.abs_le
  rw [hdigits, List.find?_cons] at h
  split at h
  · obtain rfl := Option.some.inj h
    rcases List.mem_pair.1 hc with rfl | rfl
    · exact le_rfl
    · exact hnear
  · next hfirst =>
    rcases List.mem_pair.1 hc with rfl | rfl
    · rw [hback] at hfirst
      cases hfirst
    · rw [List.find?_cons, hback] at h
      obtain rfl := Option.some.inj h
      exact le_rfl

/-! ### All places -/

/-- Something reads back wherever four decimals of a place fit into the unit. -/
theorem digitsAt?_ne_none (hpos : 0 < mantissa) (h : 4 * (10 : ℚ) ^ place < 2 ^ exponent) :
    digitsAt? mantissa exponent place ≠ none := by
  intro hnone
  obtain ⟨below, hle, hlt, -⟩ := exists_below mantissa exponent place
  have hlow : low mantissa exponent ≤ number mantissa exponent - 1 / 4 * 2 ^ exponent := by
    have hunit : (0 : ℚ) < 2 ^ exponent := by positivity
    rw [low, number, ← sub_mul]
    refine mul_le_mul_of_nonneg_right ?_ hunit.le
    split <;> linarith
  have hinside : Inside mantissa exponent (below * 10 ^ place) := by
    refine .inl ⟨?_, lt_of_le_of_lt hle (number_lt_high mantissa exponent)⟩
    push_cast at hlt
    linarith
  exact not_readsBack_of_digitsAt? hpos hnone ((readsBack_iff hpos).2 hinside)

theorem Inside.le {x : ℚ} (h : Inside mantissa exponent x) :
    low mantissa exponent ≤ x ∧ x ≤ high mantissa exponent := by
  have hlow := low_lt_number mantissa exponent
  have hhigh := number_lt_high mantissa exponent
  rcases h with ⟨hx, hx'⟩ | ⟨-, rfl | rfl⟩
  · exact ⟨hx.le, hx'.le⟩
  · exact ⟨le_rfl, by linarith⟩
  · exact ⟨by linarith, le_rfl⟩

/-- Nothing reads back at places beyond all fractions. -/
theorem not_readsBack_of_lt (hpos : 0 < mantissa) (hmantissa : mantissa < 2 ^ 53)
    (hexponent : exponent ≤ 971) (hplace : 310 < place) :
    ¬readsBack mantissa exponent digits place := by
  intro hback
  obtain ⟨hlow, hhigh⟩ := ((readsBack_iff hpos).1 hback).le
  have hone : (1 : ℚ) ≤ mantissa := by exact_mod_cast hpos
  have hunit : (0 : ℚ) < 2 ^ exponent := by positivity
  have hlowpos : 0 < low mantissa exponent := by
    refine mul_pos ?_ hunit
    split <;> linarith
  have hdigits : (1 : ℚ) ≤ digits := by
    rcases Nat.eq_zero_or_pos digits with rfl | hdigits
    · simp at hlow
      linarith
    · exact_mod_cast hdigits
  have hlarge : (10 : ℚ) ^ (311 : ℤ) ≤ digits * 10 ^ place :=
    calc (10 : ℚ) ^ (311 : ℤ) ≤ 10 ^ place := zpow_le_zpow_right₀ (by norm_num) hplace
      _ = 1 * 10 ^ place := (one_mul _).symm
      _ ≤ digits * 10 ^ place := mul_le_mul_of_nonneg_right hdigits (by positivity)
  have hsmall : high mantissa exponent ≤ 2 ^ (54 : ℤ) * 2 ^ (971 : ℤ) := by
    have hcast : (mantissa : ℚ) < 2 ^ 53 := by exact_mod_cast hmantissa
    have hpower : (2 : ℚ) ^ exponent ≤ 2 ^ (971 : ℤ) := zpow_le_zpow_right₀ (by norm_num) hexponent
    refine mul_le_mul ?_ hpower hunit.le (by positivity)
    norm_num
    linarith
  have hbound : (2 : ℚ) ^ (54 : ℤ) * 2 ^ (971 : ℤ) < 10 ^ (311 : ℤ) := by
    exact_mod_cast (by decide +kernel : 2 ^ 54 * 2 ^ 971 < 10 ^ 311)
  exact absurd hbound (not_lt.2 (hlarge.trans (hhigh.trans hsmall)))

/-- Four decimals of the finest place that is searched fit into the finest unit. -/
theorem four_mul_finest_lt : 4 * (10 : ℚ) ^ (310 - ((639 : ℕ) : ℤ)) < 2 ^ (-1074 : ℤ) := by
  have hbound : (4 : ℚ) * 2 ^ (1074 : ℕ) < 10 ^ (329 : ℕ) := by
    exact_mod_cast (by decide +kernel : 4 * 2 ^ 1074 < 10 ^ 329)
  have hplace : 310 - ((639 : ℕ) : ℤ) = -((329 : ℕ) : ℤ) := by norm_num
  have hunit : (-1074 : ℤ) = -((1074 : ℕ) : ℤ) := rfl
  rw [hplace, hunit, zpow_neg, zpow_neg, zpow_natCast, zpow_natCast, ← div_eq_mul_inv,
    div_lt_iff₀ (pow_pos (by norm_num) _), ← div_eq_inv_mul, lt_div_iff₀ (pow_pos (by norm_num) _)]
  exact hbound

theorem exists_first_of_findSome? {α : Type} {f : ℕ → Option α} {n : ℕ} {a : α}
    (h : (List.range n).findSome? f = some a) : ∃ i < n, f i = some a ∧ ∀ j < i, f j = none := by
  obtain ⟨before, i, after, hrange, hi, hbefore⟩ := List.findSome?_eq_some_iff.1 h
  have hmem : i ∈ List.range n := hrange ▸ by simp
  have hsorted : (before ++ i :: after).Pairwise (· < ·) := hrange ▸ List.pairwise_lt_range
  refine ⟨i, List.mem_range.1 hmem, hi, fun j hj => hbefore j ?_⟩
  have hjmem : j ∈ before ++ i :: after := hrange ▸ List.mem_range.2 (hj.trans (List.mem_range.1 hmem))
  rcases List.mem_append.1 hjmem with hjmem | hjmem
  · exact hjmem
  · rcases List.mem_cons.1 hjmem with rfl | hjmem
    · omega
    · have hlt := (List.pairwise_cons.1 (List.pairwise_append.1 hsorted).2.1).1 j hjmem
      omega

/-- The decimal that is written for a fraction reads back; no decimal with a coarser last place
does, and of those with the same last place none is nearer. -/
theorem shortest_spec (hpos : 0 < mantissa) (hmantissa : mantissa < 2 ^ 53)
    (hlow : -1074 ≤ exponent) (hhigh : exponent ≤ 971)
    (h : shortest mantissa exponent = (digits, place)) :
    readsBack mantissa exponent digits place ∧
      (∀ coarser, place < coarser → ∀ other, ¬readsBack mantissa exponent other coarser) ∧
      ∀ other, readsBack mantissa exponent other place →
        |digits * 10 ^ place - number mantissa exponent| ≤
          |other * 10 ^ place - number mantissa exponent| := by
  cases hfound : (List.range 640).findSome? fun (i : ℕ) =>
      (digitsAt? mantissa exponent (310 - i)).map fun digits => (digits, 310 - (i : ℤ)) with
  | none =>
    -- the finest place that is searched is fine enough for every fraction
    have hnone := List.findSome?_eq_none_iff.1 hfound 639 (List.mem_range.2 (by norm_num))
    have hpower : (2 : ℚ) ^ (-1074 : ℤ) ≤ 2 ^ exponent := zpow_le_zpow_right₀ (by norm_num) hlow
    have hsome := digitsAt?_ne_none hpos (four_mul_finest_lt.trans_le hpower)
    exact absurd (Option.map_eq_none_iff.1 hnone) hsome
  | some found =>
    rw [shortest, hfound, Option.getD_some] at h
    subst h
    obtain ⟨i, -, hi, hcoarser⟩ := exists_first_of_findSome? hfound
    obtain ⟨d, hd, heq⟩ := Option.map_eq_some_iff.1 hi
    obtain ⟨rfl, rfl⟩ := Prod.mk.inj heq
    refine ⟨readsBack_of_digitsAt? hd, fun coarser hlt other => ?_,
      fun other => abs_le_of_digitsAt? hpos hd⟩
    rcases lt_or_ge 310 coarser with hbeyond | hwithin
    · exact not_readsBack_of_lt hpos hmantissa hhigh hbeyond
    · have hnone := Option.map_eq_none_iff.1 (hcoarser (310 - coarser).toNat (by omega))
      rw [show 310 - (((310 - coarser).toNat : ℕ) : ℤ) = coarser by omega] at hnone
      exact not_readsBack_of_digitsAt? hpos hnone

end Midpoints

/-! ### Stored fractions -/

/-- What is stored as 64 bits has a mantissa and an exponent in the bounds. -/
theorem bounds_of_ofBits {bits : UInt64} {negative : Bool} {mantissa : ℕ} {exponent : ℤ}
    (h : ofBits bits = finite negative mantissa exponent) :
    mantissa < 2 ^ 53 ∧ -1074 ≤ exponent ∧ exponent ≤ 971 := by
  have hexponent : bits.toNat / 2 ^ 52 % 2 ^ 11 < 2 ^ 11 := Nat.mod_lt _ (by norm_num)
  have hmantissa : bits.toNat % 2 ^ 52 < 2 ^ 52 := Nat.mod_lt _ (by norm_num)
  simp only [ofBits, Nat.pow_eq] at h
  split at h
  · split at h <;> cases h
  · split at h
    · obtain ⟨-, rfl, rfl⟩ := finite.inj h
      omega
    · obtain ⟨-, rfl, rfl⟩ := finite.inj h
      omega

end Gherkin.Settings.Fraction
