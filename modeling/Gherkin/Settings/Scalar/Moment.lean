import Gherkin.Text.Basic

/-! Moments in time: dates, times of day, and both together with or without the distance to
universal time. -/

namespace Gherkin.Settings

structure Date where
  year : Nat
  month : Nat
  day : Nat
deriving DecidableEq

/-- A time of day. The decimals of the second are kept without trailing zeros. -/
structure Clock where
  hour : Nat
  minute : Nat
  second : Nat
  decimals : Text
deriving DecidableEq

/-- The distance of local time to universal time. -/
inductive Offset
  | universal
  | minutes (n : Int)
deriving DecidableEq

inductive Moment
  | date (d : Date)
  | clock (c : Clock)
  | full (d : Date) (c : Clock) (offset : Option Offset)
deriving DecidableEq

/-- A number with zeros in front up to a width. -/
def padded (width n : Nat) : Text := (Text.ofNat n).leftpad width '0'

namespace Date

/-- The number of days of a month. -/
def daysIn (year month : Nat) : Nat :=
  if month = 2 then if year % 4 = 0 ∧ (year % 100 ≠ 0 ∨ year % 400 = 0) then 29 else 28
  else if month ∈ [4, 6, 9, 11] then 30 else 31

/-- The date, if there is one on the calendar. -/
def of? (year month day : Nat) : Option Date :=
  if 1 ≤ month ∧ month ≤ 12 ∧ 1 ≤ day ∧ day ≤ daysIn year month then some ⟨year, month, day⟩
  else none

def toText (d : Date) : Text := padded 4 d.year ++ '-' :: padded 2 d.month ++ '-' :: padded 2 d.day

end Date

namespace Clock

/-- The time of day, if there is one; a minute may have a sixty-first second. -/
def of? (hour minute second : Nat) (decimals : Text) : Option Clock :=
  if hour < 24 ∧ minute < 60 ∧ second ≤ 60 then some ⟨hour, minute, second, decimals⟩ else none

def toText (c : Clock) : Text :=
  padded 2 c.hour ++ ':' :: padded 2 c.minute ++ ':' :: padded 2 c.second ++
    if c.decimals = [] then [] else '.' :: c.decimals

end Clock

namespace Offset

def toText : Offset → Text
  | universal => ['Z']
  | minutes n =>
    (if n < 0 then '-' else '+') :: padded 2 (n.natAbs / 60) ++ ':' :: padded 2 (n.natAbs % 60)

end Offset

namespace Moment

/-- The text of a moment. -/
def toText : Moment → Text
  | date d => d.toText
  | clock c => c.toText
  | full d c offset => d.toText ++ 'T' :: c.toText ++ (offset.map Offset.toText).getD []

end Moment

end Gherkin.Settings
