import Gherkin.Settings.Scalar.Basic
import Gherkin.Settings.Toml.Quoted

/-! Single values of settings files: numbers, moments in time, truth values and texts. Each reader
yields a value at the start of a text and what follows it. -/

namespace Gherkin.Settings.Toml

/-! ### Digits -/

/-- Digits with single underscores between them, where the first may not be one. -/
def moreDigits? (isDigit : Char → Bool) : Text → Option (Text × Text)
  | [] => some ([], [])
  | '_' :: c :: rest =>
    if isDigit c then (moreDigits? isDigit rest).map fun p => (c :: p.1, p.2) else none
  | c :: rest =>
    if c = '_' then none
    else if isDigit c then (moreDigits? isDigit rest).map fun p => (c :: p.1, p.2)
    else some ([], c :: rest)

/-- At least one digit, with single underscores between digits. -/
def digits? (isDigit : Char → Bool) : Text → Option (Text × Text)
  | c :: rest =>
    if isDigit c then (moreDigits? isDigit rest).map fun p => (c :: p.1, p.2) else none
  | [] => none

/-- The digits of a decimal number, which has a zero in front only when it is zero. -/
def whole? : Text → Option (Text × Text)
  | '0' :: rest => some (['0'], rest)
  | t => digits? Char.isDigit t

/-- Whether a minus stands in front, and what follows the sign. -/
def sign : Text → Bool × Text
  | '-' :: rest => (true, rest)
  | '+' :: rest => (false, rest)
  | t => (false, t)

/-- The number that digits stand for. -/
def value (base : Nat) (digits : Text) : Nat :=
  digits.foldl (fun n c => base * n + (hexValue? c).getD 0) 0

/-! ### Numbers -/

/-- An integer of 64 bits. One in base sixteen, eight or two has no sign. -/
def integer? (t : Text) : Option (Int × Text) := do
  let inBase := fun (base : Nat) (t : Text) => do
    let (digits, rest) ← digits? (fun c => (hexValue? c).any (· < base)) t
    some ((value base digits : Int), rest)
  let (n, rest) ← match t with
    | '0' :: 'x' :: t => inBase 16 t
    | '0' :: 'o' :: t => inBase 8 t
    | '0' :: 'b' :: t => inBase 2 t
    | t => do
      let (negative, t) := sign t
      let (digits, rest) ← whole? t
      let n : Int := value 10 digits
      some (if negative then -n else n, rest)
  if isWord n then some (n, rest) else none

/-- The exponent of a fraction. -/
def exponent? : Text → Option (Int × Text)
  | c :: t =>
    if c = 'e' ∨ c = 'E' then do
      let (negative, t) := sign t
      let (digits, rest) ← digits? Char.isDigit t
      let n : Int := value 10 digits
      some (if negative then -n else n, rest)
    else none
  | [] => none

/-- A fraction, with decimals or an exponent or both. One beyond the largest fraction is malformed,
one below the least is infinite. -/
def decimal? (t : Text) : Option (Fraction × Text) := do
  let (negative, t) := sign t
  let (digits, t) ← whole? t
  let (decimals, e, rest) ← match t with
    | '.' :: t => do
      let (decimals, t) ← digits? Char.isDigit t
      match exponent? t with
      | some (e, rest) => some (decimals, e, rest)
      | none => some (decimals, 0, t)
    | t => (exponent? t).map fun p => ([], p.1, p.2)
  let x := Fraction.ofScientific negative (value 10 (digits ++ decimals)) (e - decimals.length)
  if x = .infinite false then none else some (x, rest)

/-- A fraction or one of the words for infinity and for what is no number. -/
def fraction? (t : Text) : Option (Fraction × Text) :=
  match decimal? t with
  | some found => some found
  | none =>
    match sign t with
    | (negative, 'i' :: 'n' :: 'f' :: rest) => some (.infinite negative, rest)
    | (_, 'n' :: 'a' :: 'n' :: rest) => some (.undefined, rest)
    | _ => none

/-! ### Moments -/

/-- A number of exactly `width` digits. -/
def fixed? (width : Nat) (t : Text) : Option (Nat × Text) :=
  let digits := (t.take width).takeWhile Char.isDigit
  if digits.length = width then some (value 10 digits, t.drop width) else none

/-- A date. -/
def date? (t : Text) : Option (Date × Text) := do
  let (year, t) ← fixed? 4 t
  let (month, t) ← fixed? 2 (← Text.after? ['-'] t)
  let (day, t) ← fixed? 2 (← Text.after? ['-'] t)
  let d ← Date.of? year month day
  some (d, t)

/-- The decimals of a second, of which nine count. -/
def decimals (t : Text) : Text × Text :=
  match t with
  | '.' :: rest =>
    let digits := rest.takeWhile Char.isDigit
    if digits = [] then ([], t)
    else (((digits.take 9).reverse.dropWhile (· = '0')).reverse, rest.drop digits.length)
  | t => ([], t)

/-- A time of day. -/
def clock? (t : Text) : Option (Clock × Text) := do
  let (hour, t) ← fixed? 2 t
  let (minute, t) ← fixed? 2 (← Text.after? [':'] t)
  let (second, t) ← fixed? 2 (← Text.after? [':'] t)
  let (parts, t) := decimals t
  let c ← Clock.of? hour minute second parts
  some (c, t)

/-- The distance to universal time. -/
def offset? : Text → Option (Offset × Text)
  | c :: t =>
    if c = 'Z' ∨ c = 'z' then some (.universal, t)
    else if c = '+' ∨ c = '-' then do
      let (hour, t) ← fixed? 2 t
      let (minute, t) ← fixed? 2 (← Text.after? [':'] t)
      if hour < 24 ∧ minute < 60 then
        let n : Int := 60 * hour + minute
        some (.minutes (if c = '-' then -n else n), t)
      else none
    else none
  | [] => none

/-- A date, a time of day, or both with the letter T or a space between them. -/
def moment? (t : Text) : Option (Moment × Text) :=
  match date? t with
  | none => (clock? t).map fun p => (.clock p.1, p.2)
  | some (d, rest) =>
    let afterMark := match rest with
      | 'T' :: t | 't' :: t | ' ' :: t => clock? t
      | _ => none
    match afterMark with
    | none => some (.date d, rest)
    | some (c, rest) =>
      match offset? rest with
      | some (o, rest) => some (.full d c (some o), rest)
      | none => some (.full d c none, rest)

/-! ### Scalars -/

/-- A single value. What could be read as more than one kind is a moment before a fraction, and a
fraction before an integer. -/
def scalar? (t : Text) : Option (Scalar × Text) :=
  match t with
  | '"' :: _ | '\'' :: _ => (string? t).map fun p => (.text p.1, p.2)
  | 't' :: 'r' :: 'u' :: 'e' :: rest => some (.flag true, rest)
  | 'f' :: 'a' :: 'l' :: 's' :: 'e' :: rest => some (.flag false, rest)
  | t =>
    match moment? t with
    | some (m, rest) => some (.moment m, rest)
    | none =>
      match fraction? t with
      | some (x, rest) => some (.fraction x, rest)
      | none => (integer? t).map fun p => (.whole p.1, p.2)

end Gherkin.Settings.Toml
