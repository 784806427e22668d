import Mathlib.Data.List.Basic
import Gherkin.Settings.Toml.Document

/-! Every reader of settings files takes at least one character. The loops over items, pairs and
entries count their rounds down from the length of the text, so the count never runs out: any
larger one gives the same result, and the loop over entries satisfies an equation without a
count. -/

namespace Gherkin.Settings.Toml

/-- What follows a value that is read has less than `n` characters. -/
def Below {α : Type} (n : Nat) (found : Option (α × Text)) : Prop :=
  ∀ v rest, found = some (v, rest) → rest.length < n

section Rules

variable {α β : Type} {m n : Nat} {found : Option (α × Text)} {rest : Text}

theorem below_none : Below n (none : Option (α × Text)) := nofun

theorem below_some {v : α} (h : rest.length < n) : Below n (some (v, rest)) := by
  intro w after heq
  obtain ⟨-, rfl⟩ := Prod.mk.inj (Option.some.inj heq)
  exact h

theorem Below.mono (h : Below m found) (hle : m ≤ n) : Below n found :=
  fun v rest heq => Nat.lt_of_lt_of_le (h v rest heq) hle

theorem Below.ite {c : Prop} [Decidable c] {other : Option (α × Text)} (h : Below n found)
    (hother : Below n other) : Below n (if c then found else other) := by
  split
  · exact h
  · exact hother

theorem below_bind {read : Option β} {f : β → Option (α × Text)}
    (h : ∀ v, read = some v → Below n (f v)) : Below n (read.bind f) := by
  intro w rest heq
  obtain ⟨v, hread, hf⟩ := Option.bind_eq_some_iff.1 heq
  exact h v hread w rest hf

theorem Below.bind {f : α × Text → Option (β × Text)} (h : Below m found)
    (hf : ∀ v rest, rest.length < m → Below n (f (v, rest))) : Below n (found.bind f) :=
  below_bind fun p hp => hf p.1 p.2 (h p.1 p.2 hp)

/-- What becomes of the value does not matter. -/
theorem Below.map {f : α × Text → β} (h : Below n found) :
    Below n (found.map fun p => (f p, p.2)) := by
  rw [Option.map_eq_bind]
  exact h.bind fun _ _ hlt => below_some hlt

/-- A reader that takes something finds nothing in the empty text. -/
theorem Below.eq_none (h : Below 0 found) : found = none := by
  cases found with
  | none => rfl
  | some p => exact absurd (h p.1 p.2 rfl) (Nat.not_lt_zero _)

end Rules

/-! ### Blanks -/

theorem length_skipSpace (t : Text) : (skipSpace t).length ≤ t.length :=
  (List.dropWhile_suffix isSpace).length_le

theorem length_skipComment (t : Text) : (skipComment t).length ≤ t.length := by
  unfold skipComment
  split
  · exact Nat.le_succ_of_le (List.dropWhile_suffix isPlain).length_le
  · exact Nat.le_refl _

theorem length_skipBlank (comment : Bool) (t : Text) : (skipBlank comment t).length ≤ t.length := by
  fun_induction skipBlank comment t <;> simp only [List.length_cons, List.length_nil] at * <;> omega

theorem length_newline? {t rest : Text} (h : newline? t = some rest) : rest.length < t.length := by
  unfold newline? at h
  split at h
  · obtain rfl := Option.some.inj h
    exact Nat.lt_succ_self _
  · obtain rfl := Option.some.inj h
    exact Nat.lt_succ_of_lt (Nat.lt_succ_self _)
  · cases h

theorem length_getD_newline? (t : Text) : ((newline? t).getD t).length ≤ t.length := by
  cases h : newline? t with
  | none => exact Nat.le_refl _
  | some rest => exact Nat.le_of_lt (length_newline? h)

/-- Only the empty text ends its line with nothing at all. -/
theorem length_lineEnd?_of_ne_nil {t rest : Text} (hne : t ≠ []) (h : lineEnd? t = some rest) :
    rest.length < t.length := by
  have hspace := length_skipSpace t
  have hcomment := length_skipComment (skipSpace t)
  unfold lineEnd? at h
  split at h
  · obtain rfl := Option.some.inj h
    exact List.length_pos_of_ne_nil hne
  · have hnewline := length_newline? h
    omega

theorem length_lineEnd? {t rest : Text} (h : lineEnd? t = some rest) : rest.length ≤ t.length := by
  by_cases hne : t = []
  · subst hne
    obtain rfl := Option.some.inj h
    exact Nat.le_refl _
  · exact Nat.le_of_lt (length_lineEnd?_of_ne_nil hne h)

theorem length_after? {start t rest : Text} (h : Text.after? start t = some rest) :
    rest.length ≤ t.length := by
  rw [Text.after?_eq_some_iff.1 h, List.length_append]
  omega

/-! ### Quoted texts -/

theorem below_closing? (quote : Char) (lines : Bool) {t : Text} (hne : t ≠ []) :
    Below t.length (closing? quote lines t) := by
  have hpos := List.length_pos_of_ne_nil hne
  unfold closing?
  refine .ite (.ite (below_some ?_) below_none) (.ite (below_some ?_) below_none)
  · rw [List.length_drop]
    omega
  · rw [List.length_tail]
    omega

theorem below_body? (quote : Char) (escapes lines taken : Bool) (t : Text) :
    Below t.length (body? quote escapes lines taken t) := by
  fun_induction body? quote escapes lines taken t with
  | case1 => exact below_none
  | case2 _ inner _ ih => exact ih.map.mono (Nat.le_add_right _ 2)
  | case3 => exact below_none
  | case4 taken c inner _ found hfound =>
    cases taken with
    | true => cases hfound
    | false => exact hfound ▸ below_closing? quote lines (List.cons_ne_nil c inner)
  | case5 _ c inner _ _ _ _ ih => exact ih.map.mono (Nat.le_succ _)
  | case6 => exact below_none

/-- The body of a text with escapes, after the quotes that open it. -/
theorem below_unescape? (lines : Bool) {t : Text} {n : Nat} (hle : t.length ≤ n) :
    Below n ((body? '"' true lines false t).bind fun p =>
      (unescape? false p.1).bind fun u => some (u, p.2)) :=
  (below_body? '"' true lines false t).bind fun _ _ hlt =>
    below_bind fun _ _ => below_some (Nat.lt_of_lt_of_le hlt hle)

theorem below_quoted? (t : Text) : Below t.length (quoted? t) := by
  unfold quoted?
  split
  · exact below_unescape? false (Nat.le_succ _)
  · exact (below_body? _ _ _ _ _).mono (Nat.le_succ _)
  · exact below_none

theorem below_string? (t : Text) : Below t.length (string? t) := by
  unfold string?
  split
  · next inner =>
    exact below_unescape? true (Nat.le_trans (length_getD_newline? inner) (Nat.le_add_right _ 3))
  · next inner =>
    exact (below_body? _ _ _ _ _).mono
      (Nat.le_trans (length_getD_newline? inner) (Nat.le_add_right _ 3))
  · exact below_quoted? t

/-! ### Numbers -/

theorem below_moreDigits? (isDigit : Char → Bool) (t : Text) :
    Below (t.length + 1) (moreDigits? isDigit t) := by
  fun_induction moreDigits? isDigit t with
  | case1 => exact below_some (Nat.lt_succ_self _)
  | case2 c inner _ ih => exact ih.map.mono (Nat.le_add_right _ 2)
  | case3 => exact below_none
  | case4 => exact below_none
  | case5 c inner _ _ _ ih => exact ih.map.mono (Nat.le_succ _)
  | case6 => exact below_some (Nat.lt_succ_self _)

theorem below_digits? (isDigit : Char → Bool) (t : Text) : Below t.length (digits? isDigit t) := by
  unfold digits?
  split
  · exact .ite (below_moreDigits? isDigit _).map below_none
  · exact below_none

theorem below_whole? (t : Text) : Below t.length (whole? t) := by
  unfold whole?
  split
  · exact below_some (Nat.lt_succ_self _)
  · exact below_digits? _ t

theorem length_sign (t : Text) : (sign t).2.length ≤ t.length := by
  unfold sign
  split
  · exact Nat.le_succ _
  · exact Nat.le_succ _
  · exact Nat.le_refl _

/-- A number that counts when it fits into a word. -/
theorem below_based? (base : Nat) (isDigit : Char → Bool) (t : Text) :
    Below t.length (((digits? isDigit t).bind fun p => some ((value base p.1 : Int), p.2)).bind
      fun p => if isWord p.1 then some p else none) := by
  have hvalue : Below t.length ((digits? isDigit t).bind fun p =>
      some ((value base p.1 : Int), p.2)) :=
    (below_digits? isDigit t).bind fun _ _ hlt => below_some hlt
  exact hvalue.bind fun _ _ hlt => .ite (below_some hlt) below_none

theorem below_integer? (t : Text) : Below t.length (integer? t) := by
  unfold integer?
  split
  · exact (below_based? 16 _ _).mono (Nat.le_add_right _ 2)
  · exact (below_based? 8 _ _).mono (Nat.le_add_right _ 2)
  · exact (below_based? 2 _ _).mono (Nat.le_add_right _ 2)
  · refine ((below_whole? _).mono (length_sign t)).bind fun digits rest hlt => ?_
    exact .ite (below_some hlt) below_none

theorem below_exponent? (t : Text) : Below t.length (exponent? t) := by
  unfold exponent?
  split
  · next c inner =>
    refine .ite (((below_digits? _ _).mono (length_sign inner)).bind fun _ _ hlt => ?_) below_none
    exact below_some (Nat.lt_succ_of_lt hlt)
  · exact below_none

theorem below_decimal? (t : Text) : Below t.length (decimal? t) := by
  have hlast : ∀ (x : Fraction) (rest : Text), rest.length < t.length →
      Below t.length (if x = .infinite false then none else some (x, rest)) :=
    fun x rest hlt => .ite below_none (below_some hlt)
  unfold decimal?
  refine ((below_whole? _).mono (length_sign t)).bind fun digits rest hlt => ?_
  dsimp only
  split
  · next inner =>
    refine (below_digits? _ inner).bind fun decimals after hafter => ?_
    have hlt' : after.length < t.length := Nat.lt_trans (Nat.lt_succ_of_lt hafter) hlt
    dsimp only
    split
    · next e last hfound =>
      exact hlast _ _ (Nat.lt_trans (below_exponent? after e last hfound) hlt')
    · exact hlast _ _ hlt'
  · have hexponent := (below_exponent? rest).mono (Nat.le_of_lt hlt)
    exact below_bind fun p hp => by
      obtain ⟨q, hq, rfl⟩ := Option.map_eq_some_iff.1 hp
      exact hlast _ _ (hexponent q.1 q.2 hq)

theorem below_fraction? (t : Text) : Below t.length (fraction? t) := by
  have hsign := length_sign t
  unfold fraction?
  split
  · next hfound => exact hfound ▸ below_decimal? t
  · split
    · next hfound =>
      simp only [hfound, List.length_cons] at hsign
      exact below_some (by omega)
    · next hfound =>
      simp only [hfound, List.length_cons] at hsign
      exact below_some (by omega)
    · exact below_none

/-! ### Moments -/

theorem below_fixed? {width : Nat} (hwidth : 0 < width) (t : Text) :
    Below t.length (fixed? width t) := by
  unfold fixed?
  dsimp only
  split
  · next hlength =>
    have htake := ((t.take width).takeWhile_sublist Char.isDigit).length_le
    rw [List.length_take] at htake
    apply below_some
    rw [List.length_drop]
    omega
  · exact below_none

/-- A number of two digits after a mark. -/
theorem below_after? {α : Type} {n : Nat} {f : Nat × Text → Option (α × Text)} (mark : Char)
    {t : Text} (hf : ∀ v rest, rest.length < t.length → Below n (f (v, rest))) :
    Below n ((Text.after? [mark] t).bind fun t => (fixed? 2 t).bind f) :=
  below_bind fun _ hmark => (below_fixed? Nat.two_pos _).bind fun v rest hlt =>
    hf v rest (Nat.lt_of_lt_of_le hlt (length_after? hmark))

theorem below_date? (t : Text) : Below t.length (date? t) := by
  unfold date?
  refine (below_fixed? (by omega) t).bind fun year rest hyear => ?_
  refine below_after? '-' fun month rest hmonth => ?_
  refine below_after? '-' fun day rest hday => ?_
  exact below_bind fun d _ => below_some (by omega)

theorem length_decimals (t : Text) : (decimals t).2.length ≤ t.length := by
  unfold decimals
  split
  · dsimp only
    split
    · exact Nat.le_refl _
    · rw [List.length_drop, List.length_cons]
      omega
  · exact Nat.le_refl _

theorem below_clock? (t : Text) : Below t.length (clock? t) := by
  unfold clock?
  refine (below_fixed? (by omega) t).bind fun hour rest hhour => ?_
  refine below_after? ':' fun minute rest hminute => ?_
  refine below_after? ':' fun second rest hsecond => ?_
  exact below_bind fun c _ =>
    below_some (Nat.lt_of_le_of_lt (length_decimals rest) (by omega))

theorem below_offset? (t : Text) : Below t.length (offset? t) := by
  unfold offset?
  split
  · next c inner =>
    refine .ite (below_some (Nat.lt_succ_self _)) (.ite ?_ below_none)
    refine (below_fixed? Nat.two_pos inner).bind fun hour rest hhour => ?_
    refine below_after? ':' fun minute rest hminute => ?_
    refine .ite (below_some ?_) below_none
    rw [List.length_cons]
    omega
  · exact below_none

theorem below_moment? (t : Text) : Below t.length (moment? t) := by
  unfold moment?
  split
  · exact (below_clock? t).map
  · next d rest hdate =>
    have hrest := below_date? t d rest hdate
    dsimp only
    split
    · exact below_some hrest
    · next c after hclock =>
      have hafter : after.length < rest.length := by
        split at hclock
        · exact Nat.lt_succ_of_lt (below_clock? _ c after hclock)
        · exact Nat.lt_succ_of_lt (below_clock? _ c after hclock)
        · exact Nat.lt_succ_of_lt (below_clock? _ c after hclock)
        · cases hclock
      split
      · next o last hoffset =>
        have hlast := below_offset? after o last hoffset
        exact below_some (by omega)
      · exact below_some (by omega)

/-! ### Values -/

theorem below_scalar? (t : Text) : Below t.length (scalar? t) := by
  unfold scalar?
  split
  · exact (below_string? _).map
  · exact (below_string? _).map
  · exact below_some (by simp only [List.length_cons]; omega)
  · exact below_some (by simp only [List.length_cons]; omega)
  · split
    · next hfound => exact below_some (below_moment? _ _ _ hfound)
    · split
      · next hfound => exact below_some (below_fraction? _ _ _ hfound)
      · exact (below_integer? _).map

theorem below_name? (t : Text) : Below t.length (name? t) := by
  unfold name?
  split
  · exact below_quoted? _
  · exact below_quoted? _
  · dsimp only
    split
    · exact below_none
    · next hname =>
      have hpos := List.length_pos_of_ne_nil hname
      have hlength := congrArg List.length (t.takeWhile_append_dropWhile (p := isNameChar))
      rw [List.length_append] at hlength
      exact below_some (by omega)

theorem below_key? (n : Nat) (t : Text) : Below t.length (key? n t) := by
  induction n generalizing t with
  | zero => exact below_none
  | succ n ih =>
    unfold key?
    have hspace := length_skipSpace t
    split
    · exact below_none
    · next name rest hname =>
      have hrest := below_name? _ _ _ hname
      have hafter := length_skipSpace rest
      split
      · next inner heq =>
        rw [heq, List.length_cons] at hafter
        exact (ih inner).map.mono (by omega)
      · exact below_some (by omega)

section Loops

variable {α : Type} {read : Text → Option (α × Text)}

theorem below_pair? (hread : ∀ t, Below t.length (read t)) (t : Text) :
    Below t.length (pair? read t) := by
  unfold pair?
  refine (below_key? maxDepth t).bind fun key rest hkey => ?_
  refine below_bind fun inner hequals => ?_
  have hinner := length_after? hequals
  have hspace := length_skipSpace inner
  exact (hread (skipSpace inner)).bind fun v rest hv => below_some (by omega)

theorem below_items? (hread : ∀ t, Below t.length (read t)) (n : Nat) (t : Text) :
    Below t.length (items? read n t) := by
  induction n generalizing t with
  | zero => exact below_none
  | succ n ih =>
    have hblank := length_skipBlank false t
    unfold items?
    split
    · next rest heq =>
      rw [heq, List.length_cons] at hblank
      exact below_some (by omega)
    · refine (hread _).bind fun v rest hv => ?_
      have hrest := length_skipBlank false rest
      dsimp only
      split
      · next inner heq =>
        rw [heq, List.length_cons] at hrest
        exact (ih inner).map.mono (by omega)
      · next inner heq =>
        rw [heq, List.length_cons] at hrest
        exact below_some (by omega)
      · exact below_none

theorem below_pairs? (hread : ∀ t, Below t.length (read t)) (n : Nat) (t : Text) :
    Below t.length (pairs? read n t) := by
  induction n generalizing t with
  | zero => exact below_none
  | succ n ih =>
    unfold pairs?
    refine (below_pair? hread t).bind fun pair rest hpair => ?_
    have hrest := length_skipSpace rest
    dsimp only
    split
    · next inner heq =>
      rw [heq, List.length_cons] at hrest
      exact (ih inner).map.mono (by omega)
    · next inner heq =>
      rw [heq, List.length_cons] at hrest
      exact below_some (by omega)
    · exact below_none

/-- The count of rounds does not matter as long as it is not less than the length of the text. -/
theorem items?_congr (hread : ∀ t, Below t.length (read t)) {n m : Nat} {t : Text}
    (hn : t.length ≤ n) (hm : t.length ≤ m) : items? read n t = items? read m t := by
  have hnil : ∀ n, items? read n [] = none := fun n => (below_items? hread n []).eq_none
  induction n generalizing m t with
  | zero => rw [List.length_eq_zero_iff.1 (Nat.le_zero.1 hn), hnil, hnil]
  | succ n ih =>
    cases m with
    | zero => rw [List.length_eq_zero_iff.1 (Nat.le_zero.1 hm), hnil, hnil]
    | succ m =>
      have hblank := length_skipBlank false t
      unfold items?
      split
      · rfl
      · refine Option.bind_congr fun p hp => ?_
        have hv := hread _ p.1 p.2 hp
        have hrest := length_skipBlank false p.2
        dsimp only
        split
        · next inner heq =>
          rw [heq, List.length_cons] at hrest
          have hlength : inner.length ≤ n ∧ inner.length ≤ m := by omega
          rw [ih hlength.1 hlength.2]
        · rfl
        · rfl

theorem pairs?_congr (hread : ∀ t, Below t.length (read t)) {n m : Nat} {t : Text}
    (hn : t.length ≤ n) (hm : t.length ≤ m) : pairs? read n t = pairs? read m t := by
  have hnil : ∀ n, pairs? read n [] = none := fun n => (below_pairs? hread n []).eq_none
  induction n generalizing m t with
  | zero => rw [List.length_eq_zero_iff.1 (Nat.le_zero.1 hn), hnil, hnil]
  | succ n ih =>
    cases m with
    | zero => rw [List.length_eq_zero_iff.1 (Nat.le_zero.1 hm), hnil, hnil]
    | succ m =>
      unfold pairs?
      refine Option.bind_congr fun p hp => ?_
      have hpair := below_pair? hread t p.1 p.2 hp
      have hrest := length_skipSpace p.2
      dsimp only
      split
      · next inner heq =>
        rw [heq, List.length_cons] at hrest
        have hlength : inner.length ≤ n ∧ inner.length ≤ m := by omega
        rw [ih hlength.1 hlength.2]
      · rfl
      · rfl

end Loops

theorem below_value? (depth : Nat) (t : Text) : Below t.length (value? depth t) := by
  induction depth generalizing t with
  | zero =>
    unfold value?
    exact (below_scalar? t).map
  | succ depth ih =>
    unfold value?
    split
    · next inner hdepth =>
      obtain rfl := Nat.succ.inj hdepth
      exact (below_items? ih _ inner).map.mono (Nat.le_succ _)
    · next inner hdepth =>
      obtain rfl := Nat.succ.inj hdepth
      have hspace := length_skipSpace inner
      split
      · next rest heq =>
        rw [heq, List.length_cons] at hspace
        exact below_some (Nat.lt_succ_of_lt hspace)
      · refine ((below_pairs? ih _ _).mono hspace).bind fun pairs rest hlt => ?_
        exact below_bind fun _ _ => below_some (Nat.lt_succ_of_lt hlt)
    · exact (below_scalar? _).map

/-! ### Entries -/

theorem below_header? (t : Text) : Below t.length (header? t) := by
  unfold header?
  split
  · refine (below_key? maxDepth _).bind fun key rest hkey => ?_
    refine below_bind fun after hafter => ?_
    have hlength := length_after? hafter
    exact below_some (by rw [List.length_cons]; omega)
  · refine (below_key? maxDepth _).bind fun key rest hkey => ?_
    refine below_bind fun after hafter => ?_
    have hlength := length_after? hafter
    exact below_some (by omega)

theorem below_entry? (t : Text) : Below t.length ( entry? t) := by
  have hspace := length_skipSpace t
  have hlast : ∀ (e : Entry) (rest : Text), rest.length < t.length →
      Below t.length ((lineEnd? rest).bind fun rest => some (e, rest)) := fun e rest hlt =>
    below_bind fun _ hend => below_some (Nat.lt_of_le_of_lt (length_lineEnd? hend) hlt)
  -- A line without an entry leaves its first character to what reads the end of the line.
  have hblank : ∀ (c : Char) (rest : Text), skipSpace t = c :: rest →
      Below t.length ((lineEnd? (c :: rest)).bind fun rest => some (Entry.blank, rest)) :=
    fun c rest heq => below_bind fun _ hend =>
      below_some (Nat.lt_of_lt_of_le (length_lineEnd?_of_ne_nil (List.cons_ne_nil c rest) hend)
        (heq ▸ hspace))
  unfold entry?
  split
  · next inner heq =>
    rw [heq, List.length_cons] at hspace
    exact (below_header? inner).bind fun e rest hlt => hlast e rest (by omega)
  · next inner heq => exact hblank '#' inner heq
  · next inner heq => exact hblank '\n' inner heq
  · next inner heq => exact hblank '\r' inner heq
  · refine ((below_pair? (below_value? maxDepth) _).map.mono hspace).bind fun e rest hlt => ?_
    exact hlast e rest hlt

theorem entries?_congr {n m : Nat} {t : Text} (hn : t.length < n) (hm : t.length < m) :
    entries? n t = entries? m t := by
  induction n generalizing m t with
  | zero => exact absurd hn (Nat.not_lt_zero _)
  | succ n ih =>
    cases m with
    | zero => exact absurd hm (Nat.not_lt_zero _)
    | succ m =>
      unfold entries?
      refine ite_congr rfl (fun _ => rfl) fun _ => Option.bind_congr fun p hp => ?_
      have hentry := below_entry? t p.1 p.2 hp
      have hlength : p.2.length < n ∧ p.2.length < m := by omega
      dsimp only
      rw [ih hlength.1 hlength.2]

/-- The entries of a text, each followed by the entries of what is left. -/
theorem entries?_eq (t : Text) :
    entries? (t.length + 1) t =
      (if skipSpace t = [] then some []
      else do
        let (e, rest) ← entry? t
        let es ← entries? (rest.length + 1) rest
        some (e :: es)) := by
  rw [entries?]
  refine ite_congr rfl (fun _ => rfl) fun _ => Option.bind_congr fun p hp => ?_
  have hentry := below_entry? t p.1 p.2 hp
  dsimp only
  rw [entries?_congr hentry (Nat.lt_succ_self _)]

end Gherkin.Settings.Toml
