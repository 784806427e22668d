import Mathlib.Algebra.Ring.Nat
import Mathlib.Data.List.TakeWhile
import Gherkin.Proofs.Settings.Key
import Gherkin.Settings.Toml.Scalar

/-! Moments are read back from their texts. Dates, times of day, and both together with any distance
to universal time count as texts that stand for the same moment again, before anything that could
not go on with them. -/

namespace Gherkin.Settings

namespace Toml

/-! ### Numbers with a width -/

theorem hexValue?_of_isDigit {c : Char} (h : c.isDigit) :
    hexValue? c = some (c.toNat - '0'.toNat) := by
  rw [hexValue?, if_pos h]

theorem foldl_value {t : Text} (h : ∀ c ∈ t, c.isDigit) (n : ℕ) :
    t.foldl (fun n c => 10 * n + (hexValue? c).getD 0) n =
      t.foldl (fun n c => 10 * n + (c.toNat - '0'.toNat)) n := by
  induction t generalizing n with
  | nil => rfl
  | cons c t ih =>
    obtain ⟨hc, ht⟩ := List.forall_mem_cons.1 h
    rw [List.foldl_cons, List.foldl_cons, hexValue?_of_isDigit hc, Option.getD_some, ih ht]

theorem value_ofNat (n : ℕ) : value 10 (Text.ofNat n) = n := by
  rw [value, foldl_value (all_isDigit_ofNat n), foldl_ofNat]

theorem value_zeros (k : ℕ) (t : Text) : value 10 (List.replicate k '0' ++ t) = value 10 t := by
  induction k with
  | zero => rfl
  | succ k ih =>
    rw [List.replicate_succ, List.cons_append, ← ih]
    rfl

theorem toNat_le_of_isDigit {c : Char} (h : c.isDigit) : c.toNat - '0'.toNat ≤ 9 := by
  simp only [Char.isDigit, Bool.and_eq_true, decide_eq_true_eq, UInt32.le_iff_toNat_le] at h
  have hle : c.toNat ≤ 57 := h.2
  exact Nat.sub_le_of_le_add hle

theorem foldl_lt {t : Text} (h : ∀ c ∈ t, c.isDigit) (n : ℕ) :
    t.foldl (fun n c => 10 * n + (c.toNat - '0'.toNat)) n < (n + 1) * 10 ^ t.length := by
  induction t generalizing n with
  | nil => simp
  | cons c t ih =>
    obtain ⟨hc, ht⟩ := List.forall_mem_cons.1 h
    have hdigit := toNat_le_of_isDigit hc
    calc t.foldl _ (10 * n + (c.toNat - '0'.toNat))
        < (10 * n + (c.toNat - '0'.toNat) + 1) * 10 ^ t.length := ih ht _
      _ ≤ (10 * (n + 1)) * 10 ^ t.length := Nat.mul_le_mul_right _ (by omega)
      _ = (n + 1) * 10 ^ (c :: t).length := by rw [List.length_cons, Nat.pow_succ]; ac_rfl

theorem value_lt {t : Text} (h : ∀ c ∈ t, c.isDigit) : value 10 t < 10 ^ t.length := by
  rw [value, foldl_value h]
  exact (foldl_lt h 0).trans_eq (by simp)

section Fixed

variable {width n : ℕ} {rest : Text}

theorem all_isDigit_padded (width n : ℕ) : ∀ c ∈ padded width n, c.isDigit := by
  intro c hc
  rcases List.mem_append.1 hc with hc | hc
  · rw [List.eq_of_mem_replicate hc]
    decide
  · exact all_isDigit_ofNat n c hc

theorem length_padded (hpos : 0 < width) (h : n < 10 ^ width) : (padded width n).length = width := by
  have hlength := (Nat.length_toDigits_le_iff (b := 10) (by decide) hpos).2 h
  rw [padded, List.length_leftpad]
  exact Nat.max_eq_left hlength

/-- A number with its zeros in front is read back. -/
theorem fixed?_padded (hpos : 0 < width) (h : n < 10 ^ width) (rest : Text) :
    fixed? width (padded width n ++ rest) = some (n, rest) := by
  have hlength := length_padded hpos h
  have hdigits : (padded width n).takeWhile Char.isDigit = padded width n :=
    List.takeWhile_eq_self_iff.2 (all_isDigit_padded width n)
  have hvalue : value 10 (padded width n) = n := by
    rw [padded, List.leftpad, value_zeros, value_ofNat]
  rw [fixed?, List.take_left' hlength, hdigits, if_pos hlength, hvalue, List.drop_left' hlength]

end Fixed

end Toml

/-! ### What moments are read -/

/-- A date on the calendar with a year of four digits. -/
structure Date.Valid (d : Date) : Prop where
  year : d.year < 10000
  calendar : Date.of? d.year d.month d.day = some d

/-- A time of day with at most nine decimals, the last of them no zero. -/
structure Clock.Valid (c : Clock) : Prop where
  day : Clock.of? c.hour c.minute c.second c.decimals = some c
  digits : ∀ x ∈ c.decimals, x.isDigit
  length : c.decimals.length ≤ 9
  last : c.decimals.getLast? ≠ some '0'

/-- A distance of less than a day. -/
def Offset.Valid : Offset → Prop
  | universal => True
  | minutes n => n.natAbs < 24 * 60

def Moment.Valid : Moment → Prop
  | date d => d.Valid
  | clock c => c.Valid
  | full d c offset => d.Valid ∧ c.Valid ∧ ∀ o ∈ offset, o.Valid

theorem Date.Valid.bounds {d : Date} (h : d.Valid) : d.month < 100 ∧ d.day < 100 := by
  have hcalendar := h.calendar
  unfold Date.of? at hcalendar
  split at hcalendar
  · next hbounds =>
    have hdays : Date.daysIn d.year d.month ≤ 31 := by
      unfold Date.daysIn
      split_ifs <;> decide
    omega
  · cases hcalendar

theorem Clock.Valid.bounds {c : Clock} (h : c.Valid) :
    c.hour < 100 ∧ c.minute < 100 ∧ c.second < 100 := by
  have hday := h.day
  unfold Clock.of? at hday
  split at hday
  · omega
  · cases hday

namespace Toml

section Moments

variable {d : Date} {c : Clock} {o : Offset} {m : Moment} {t rest : Text}

/-- Nothing follows that a second could go on with. -/
def Stops (rest : Text) : Prop := ∀ x ∈ rest.head?, x.isDigit = false ∧ x ≠ '.'

/-- Nothing follows that a moment could go on with. -/
def Ends (rest : Text) : Prop :=
  Stops rest ∧ ∀ x ∈ rest.head?, x ∉ ['T', 't', ' ', 'Z', 'z', '+', '-']

theorem fixed?_four {n : ℕ} (h : n < 10000) (rest : Text) :
    fixed? 4 (padded 4 n ++ rest) = some (n, rest) :=
  fixed?_padded (by decide) h rest

theorem fixed?_two {n : ℕ} (h : n < 100) (rest : Text) :
    fixed? 2 (padded 2 n ++ rest) = some (n, rest) :=
  fixed?_padded (by decide) h rest

theorem date?_toText (hd : d.Valid) (rest : Text) : date? (d.toText ++ rest) = some (d, rest) := by
  obtain ⟨hmonth, hday⟩ := hd.bounds
  have htext : d.toText ++ rest =
      padded 4 d.year ++ '-' :: (padded 2 d.month ++ '-' :: (padded 2 d.day ++ rest)) := by
    simp [Date.toText]
  rw [htext]
  simp [date?, fixed?_four hd.year, fixed?_two hmonth, fixed?_two hday, Text.after?, hd.calendar]

theorem decimals_nil (hrest : Stops rest) : decimals rest = ([], rest) := by
  cases rest with
  | nil => rfl
  | cons x rest =>
    have hdot := (hrest x rfl).2
    unfold decimals
    split
    · exact absurd (List.cons.inj ‹_›).1 hdot
    · rfl

theorem decimals_cons {ds : Text} (hne : ds ≠ []) (hdigits : ∀ x ∈ ds, x.isDigit)
    (hlength : ds.length ≤ 9) (hlast : ds.getLast? ≠ some '0') (hrest : Stops rest) :
    decimals ('.' :: ds ++ rest) = (ds, rest) := by
  have htake : (ds ++ rest).takeWhile Char.isDigit = ds := by
    rw [List.takeWhile_append_of_pos hdigits]
    cases rest with
    | nil => simp
    | cons x rest => simp [(hrest x rfl).1]
  have hzeros : ds.reverse.dropWhile (fun x => decide (x = '0')) = ds.reverse := by
    cases hds : ds.reverse with
    | nil => rfl
    | cons x more =>
      have hx : x ≠ '0' := by
        rintro rfl
        rw [List.getLast?_eq_head?_reverse, hds] at hlast
        exact hlast rfl
      simp [hx]
  simp [decimals, htake, hne, List.take_of_length_le hlength, hzeros]

theorem clock?_toText (hc : c.Valid) (hrest : Stops rest) :
    clock? (c.toText ++ rest) = some (c, rest) := by
  obtain ⟨hhour, hminute, hsecond⟩ := hc.bounds
  let parts := if c.decimals = [] then [] else '.' :: c.decimals
  have htext : c.toText ++ rest = padded 2 c.hour ++ ':' :: (padded 2 c.minute ++ ':' ::
      (padded 2 c.second ++ (parts ++ rest))) := by
    simp [Clock.toText, parts]
  have hdecimals : decimals (parts ++ rest) = (c.decimals, rest) := by
    by_cases hnil : c.decimals = []
    · rw [show parts = [] from if_pos hnil, hnil]
      exact decimals_nil hrest
    · rw [show parts = '.' :: c.decimals from if_neg hnil]
      exact decimals_cons hnil hc.digits hc.length hc.last hrest
  rw [htext]
  simp [clock?, fixed?_two hhour, fixed?_two hminute, fixed?_two hsecond, Text.after?, hdecimals,
    hc.day]

theorem offset?_toText (ho : o.Valid) (rest : Text) : offset? (o.toText ++ rest) = some (o, rest) := by
  cases o with
  | universal => rfl
  | minutes n =>
    have hbound : n.natAbs < 24 * 60 := ho
    have htext : (Offset.minutes n).toText ++ rest = (if n < 0 then '-' else '+') ::
        (padded 2 (n.natAbs / 60) ++ ':' :: (padded 2 (n.natAbs % 60) ++ rest)) := by
      simp [Offset.toText]
    have hvalue : 60 * (n.natAbs / 60) + n.natAbs % 60 = n.natAbs := Nat.div_add_mod n.natAbs 60
    have hminute : n.natAbs % 60 < 60 := Nat.mod_lt _ (by decide)
    rw [htext]
    generalize n.natAbs / 60 = hour at hvalue ⊢
    generalize n.natAbs % 60 = minute at hvalue hminute ⊢
    have hhour : hour < 24 := by omega
    have hread := fixed?_two (show hour < 100 by omega)
    have hread' := fixed?_two (show minute < 100 by omega)
    split
    · simp [offset?, hread, hread', Text.after?, hhour, hminute]
      omega
    · simp [offset?, hread, hread', Text.after?, hhour, hminute]
      omega

/-- A time of day does not begin as a date does. -/
theorem date?_clock (c : Clock) (hc : c.Valid) (rest : Text) : date? (c.toText ++ rest) = none := by
  have hlength : (padded 2 c.hour).length = 2 := length_padded (by decide) hc.bounds.1
  obtain ⟨t, htext⟩ : ∃ t, c.toText ++ rest = padded 2 c.hour ++ ':' :: t := by
    simp [Clock.toText]
  have htake : (padded 2 c.hour ++ ':' :: t).take 4 = padded 2 c.hour ++ ':' :: t.take 1 := by
    rw [List.take_append, List.take_of_length_le (by omega), hlength]
    rfl
  have hdigits : (padded 2 c.hour ++ ':' :: t.take 1).takeWhile Char.isDigit = padded 2 c.hour := by
    rw [List.takeWhile_append_of_pos (all_isDigit_padded 2 c.hour)]
    exact List.append_nil _
  have hyear : fixed? 4 (padded 2 c.hour ++ ':' :: t) = none := by
    rw [fixed?, htake, hdigits, if_neg (by omega)]
  rw [htext, date?, hyear]
  rfl

theorem offset?_eq_none (hrest : Ends rest) : offset? rest = none := by
  cases rest with
  | nil => rfl
  | cons x rest =>
    have hx := hrest.2 x rfl
    simp only [List.mem_cons, not_or] at hx
    simp [offset?, hx]

theorem stops_offset (o : Offset) (rest : Text) : Stops (o.toText ++ rest) := by
  cases o with
  | universal =>
    rintro x ⟨⟩
    decide
  | minutes n =>
    rintro x ⟨⟩
    split <;> decide

/-- A moment is read back from its text. -/
theorem moment?_toText (hm : m.Valid) (hrest : Ends rest) :
    moment? (m.toText ++ rest) = some (m, rest) := by
  cases m with
  | date d =>
    have hdate : date? ((Moment.date d).toText ++ rest) = some (d, rest) := date?_toText hm rest
    rw [moment?, hdate]
    cases rest with
    | nil => rfl
    | cons x rest =>
      have hx := hrest.2 x rfl
      simp only [List.mem_cons, not_or] at hx
      simp [hx]
  | clock c =>
    have hdate : date? ((Moment.clock c).toText ++ rest) = none := date?_clock c hm rest
    have hclock : clock? ((Moment.clock c).toText ++ rest) = some (c, rest) :=
      clock?_toText hm hrest.1
    rw [moment?, hdate, hclock]
    rfl
  | full d c offset =>
    obtain ⟨hd, hc, ho⟩ := hm
    cases offset with
    | none =>
      have hdate : date? ((Moment.full d c none).toText ++ rest) =
          some (d, 'T' :: (c.toText ++ rest)) := by
        rw [← date?_toText hd]
        simp [Moment.toText]
      simp [moment?, hdate, clock?_toText hc hrest.1, offset?_eq_none hrest]
    | some o =>
      have hdate : date? ((Moment.full d c (some o)).toText ++ rest) =
          some (d, 'T' :: (c.toText ++ (o.toText ++ rest))) := by
        rw [← date?_toText hd]
        simp [Moment.toText]
      have hclock := clock?_toText hc (stops_offset o rest)
      simp [moment?, hdate, hclock, offset?_toText (ho o rfl)]

/-! ### What is read can be read back -/

theorem fixed?_lt {width n : ℕ} (h : fixed? width t = some (n, rest)) : n < 10 ^ width := by
  simp only [fixed?] at h
  split at h
  · next hlength =>
    obtain ⟨rfl, -⟩ := Prod.mk.inj (Option.some.inj h)
    have hlt := value_lt (t := (t.take width).takeWhile Char.isDigit) fun c hc =>
      (List.mem_takeWhile_imp hc)
    rwa [hlength] at hlt
  · cases h

theorem valid_of_date? (h : date? t = some (d, rest)) : d.Valid := by
  simp only [date?, Option.bind_eq_bind, Option.bind_eq_some_iff] at h
  obtain ⟨⟨year, t₁⟩, hyear, t₂, -, ⟨month, t₃⟩, -, t₄, -, ⟨day, t₅⟩, -, date, hdate, hd⟩ := h
  obtain ⟨rfl, -⟩ := Prod.mk.inj (Option.some.inj hd)
  have hlt := fixed?_lt hyear
  have hparts : date = ⟨year, month, day⟩ := by
    unfold Date.of? at hdate
    split at hdate
    · exact (Option.some.inj hdate).symm
    · cases hdate
  subst hparts
  exact ⟨hlt, hdate⟩

theorem decimals_valid (t : Text) : (∀ x ∈ (decimals t).1, x.isDigit) ∧
    (decimals t).1.length ≤ 9 ∧ (decimals t).1.getLast? ≠ some '0' := by
  unfold decimals
  split
  · next rest =>
    simp only
    split
    · simp
    · let digits := (rest.takeWhile Char.isDigit).take 9
      have hsuffix := List.dropWhile_suffix (fun x => decide (x = '0')) (l := digits.reverse)
      refine ⟨fun x hx => ?_, ?_, fun hlast => ?_⟩
      · have hmem : x ∈ digits := List.mem_reverse.1 (hsuffix.mem (List.mem_reverse.1 hx))
        exact List.mem_takeWhile_imp (List.mem_of_mem_take hmem)
      · have hlength := hsuffix.length_le
        rw [List.length_reverse] at hlength ⊢
        exact hlength.trans (List.length_take_le 9 _)
      · rw [List.getLast?_reverse] at hlast
        have hhead := List.head?_dropWhile_not (fun x => decide (x = '0')) digits.reverse
        rw [hlast] at hhead
        simp at hhead
  · simp

theorem valid_of_clock? (h : clock? t = some (c, rest)) : c.Valid := by
  simp only [clock?, Option.bind_eq_bind, Option.bind_eq_some_iff] at h
  obtain ⟨⟨hour, t₁⟩, -, t₂, -, ⟨minute, t₃⟩, -, t₄, -, ⟨second, t₅⟩, -, clock, hclock, hc⟩ := h
  obtain ⟨rfl, -⟩ := Prod.mk.inj (Option.some.inj hc)
  have hparts : clock = ⟨hour, minute, second, (decimals t₅).1⟩ := by
    unfold Clock.of? at hclock
    split at hclock
    · exact (Option.some.inj hclock).symm
    · cases hclock
  subst hparts
  obtain ⟨hdigits, hlength, hlast⟩ := decimals_valid t₅
  exact ⟨hclock, hdigits, hlength, hlast⟩

theorem valid_of_offset? (h : offset? t = some (o, rest)) : o.Valid := by
  unfold offset? at h
  split at h
  · split at h
    · obtain ⟨rfl, -⟩ := Prod.mk.inj (Option.some.inj h)
      trivial
    · split at h
      · simp only [Option.bind_eq_bind, Option.bind_eq_some_iff] at h
        obtain ⟨⟨hour, t₁⟩, -, t₂, -, ⟨minute, t₃⟩, -, ho⟩ := h
        split at ho
        · obtain ⟨rfl, -⟩ := Prod.mk.inj (Option.some.inj ho)
          show (if _ then -_ else (_ : ℤ)).natAbs < 24 * 60
          split <;> omega
        · cases ho
      · cases h
  · cases h

/-- A moment that is read is on the calendar and within its day. -/
theorem valid_of_moment? (h : moment? t = some (m, rest)) : m.Valid := by
  unfold moment? at h
  split at h
  · obtain ⟨⟨c, after⟩, hc, hm⟩ := Option.map_eq_some_iff.1 h
    obtain ⟨rfl, -⟩ := Prod.mk.inj hm
    exact valid_of_clock? hc
  · next d after hdate =>
    have hd := valid_of_date? hdate
    simp only at h
    split at h
    · obtain ⟨rfl, -⟩ := Prod.mk.inj (Option.some.inj h)
      exact hd
    · next c behind hclock =>
      have hc : c.Valid := by
        split at hclock
        · exact valid_of_clock? hclock
        · exact valid_of_clock? hclock
        · exact valid_of_clock? hclock
        · cases hclock
      split at h
      · next o last hoffset =>
        obtain ⟨rfl, -⟩ := Prod.mk.inj (Option.some.inj h)
        exact ⟨hd, hc, by rintro o ⟨⟩; exact valid_of_offset? hoffset⟩
      · obtain ⟨rfl, -⟩ := Prod.mk.inj (Option.some.inj h)
        exact ⟨hd, hc, by simp⟩

/-- Whatever moment is read, the text that it counts as is read as the same moment. -/
theorem moment?_toText_of_moment? (h : moment? t = some (m, rest)) :
    moment? m.toText = some (m, []) := by
  have hends : Ends [] := ⟨nofun, nofun⟩
  have hread := moment?_toText (valid_of_moment? h) hends
  rwa [List.append_nil] at hread

end Moments

end Toml

end Gherkin.Settings
