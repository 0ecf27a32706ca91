import Interview.Reader.Repeat
import Interview.Reader.Character
import Interview.Text.Digits

/-!
# Calendar dates

A date is written as a year of four digits, a month and a day of one or two digits, with hyphens
between them. The calendar is the Gregorian one, also for the years before it was in use; year 0
is a leap year.

* `Date.ofText?`: the date a text spells, which need not be on the calendar.
* `Date.isReal`: whether a date is on the calendar.
* `Date.order`: which of two dates is earlier.
-/

namespace Interview

/-- A year, a month and a day. -/
structure Date where
  /-- The year. -/
  year : Nat
  /-- The month, from one. -/
  month : Nat
  /-- The day of the month, from one. -/
  day : Nat
  deriving DecidableEq

namespace Date

open Reader

/-- Whether a year has a 29th of February. -/
def isLeap (year : Nat) : Bool := year % 4 == 0 && (year % 100 != 0 || year % 400 == 0)

/-- The number of days of a month. -/
def daysIn (year month : Nat) : Nat :=
  if month = 2 then if isLeap year then 29 else 28
  else if month = 4 ∨ month = 6 ∨ month = 9 ∨ month = 11 then 30
  else 31

/-- Whether the date is on the calendar. -/
def isReal (d : Date) : Bool :=
  1 ≤ d.month && d.month ≤ 12 && 1 ≤ d.day && d.day ≤ daysIn d.year d.month

/-- The earlier date is the lesser one. -/
def order (a b : Date) : Ordering :=
  (compare a.year b.year).then ((compare a.month b.month).then (compare a.day b.day))

/-- A run of decimal digits whose length passes a test. -/
def digits (test : Nat → Bool) : Reader Char Nat := do
  let s ← (takeWhile1 Char.isDigit).satisfying fun s => test s.length
  return Digits.value s

/-- A hyphen. -/
def hyphen : Reader Char Unit := do
  let _ ← character (· == '-')

/-- A date, which need not be on the calendar. -/
def reader : Reader Char Date := do
  let year ← digits (· == 4)
  hyphen
  let month ← digits (· ≤ 2)
  hyphen
  let day ← digits (· ≤ 2)
  finished
  return { year, month, day }

/-- The date that a text spells, with or without blanks around it. -/
def ofText? (s : List Char) : Option Date :=
  match reader (Text.trim s) with
  | .ok d _ => some d
  | .fail _ => none

/-- The date on the calendar that a text spells. -/
def realOfText? (s : List Char) : Option Date := (ofText? s).filter isReal

example : realOfText? " 0000-2-29 ".toList = some ⟨0, 2, 29⟩ := by
  decide +kernel

example : (ofText? "1900-2-29".toList).isSome ∧ realOfText? "1900-2-29".toList = none := by
  decide +kernel

end Date

end Interview
