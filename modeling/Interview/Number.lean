import Interview.Reader.Repeat
import Interview.Reader.Character
import Interview.Text.Digits

/-!
# Numbers

A text that spells a decimal number stands for the nearest binary64 number, a tie going to the
one with an even significand. Every finite binary64 number is a whole multiple of the smallest
positive one, `2 ^ -1074`, so numbers are compared as integers in that unit. A decimal too large
for a finite number stands for none.

* `Number.ofText?`: the number a text spells.
-/

namespace Interview

/-- A number in decimal notation. -/
structure Decimal where
  /-- Whether a minus sign stands before it. -/
  isNegative : Bool
  /-- The digits, as a whole number. -/
  significand : Nat
  /-- The power of ten that the digits are multiplied by. -/
  exponent : Int
  deriving DecidableEq

namespace Decimal

open Reader

/-- A plus or minus sign, or none. Answers whether it is a minus sign. -/
def sign : Reader Char Bool := do
  let c ← (character fun c => c == '+' || c == '-').maybe
  return c == some '-'

/-- A point and the digits after it, of which there may be none. -/
def fraction : Reader Char (List Char) := do
  let _ ← character (· == '.')
  takeWhile Char.isDigit

/-- The letter `e`, a sign and digits. -/
def power : Reader Char Int := do
  let _ ← character fun c => c == 'e' || c == 'E'
  let isNegative ← sign
  let digits ← takeWhile1 Char.isDigit
  return if isNegative then -Digits.value digits else Digits.value digits

/-- A number in decimal notation, with a digit before or after its point. -/
def reader : Reader Char Decimal := do
  let isNegative ← sign
  let whole ← takeWhile Char.isDigit
  let parts ← fraction.maybe
  let digits := parts.getD []
  if (whole ++ digits).isEmpty then reject
  let power ← power.maybe
  finished
  return {
    isNegative
    significand := Digits.value (whole ++ digits)
    exponent := power.getD 0 - digits.length }

end Decimal

namespace Number

/-- The whole number nearest to a quotient; of two that are as near, the even one. -/
def roundHalfEven (num den : Nat) : Nat :=
  let q := num / den
  let r := num % den
  if 2 * r < den then q else if den < 2 * r then q + 1 else q + q % 2

/-- The bits of a binary64 significand. -/
def precision : Nat := 53

/-- A quotient rounded to `precision` significant bits, but no finer than a whole number. -/
def roundSignificand (num den : Nat) : Nat :=
  let excess := (num / den).log2 + 1 - precision
  roundHalfEven num (den * Nat.pow 2 excess) * Nat.pow 2 excess

/-- The binary64 unit is `2 ^ -unitExponent`. -/
def unitExponent : Nat := 1074

/-- What is this large, in units, is not finite. -/
def limit : Nat := Nat.pow 2 (1024 + unitExponent)

/-- `significand * 10 ^ exponent` in units, rounded. There is none if that is not finite. A number
far from the finite range is recognised by its count of digits, without working it out. -/
def magnitude? (significand : Nat) (exponent : Int) : Option Nat :=
  let order := (Nat.toDigits 10 significand).length + exponent
  if significand = 0 then some 0
  else if order > 310 then none
  else if order < -330 then some 0
  else
    let num := significand * Nat.pow 10 exponent.toNat * Nat.pow 2 unitExponent
    let units := roundSignificand num (Nat.pow 10 (-exponent).toNat)
    if units < limit then some units else none

/-- The number nearest to a decimal, in units. -/
def ofDecimal? (d : Decimal) : Option Int := do
  let units ← magnitude? d.significand d.exponent
  return if d.isNegative then -units else units

/-- The number that a text spells, with or without blanks around it, in units. -/
def ofText? (s : List Char) : Option Int :=
  match Decimal.reader (Text.trim s) with
  | .ok d _ => ofDecimal? d
  | .fail _ => none

example : ofText? "9007199254740993".toList = ofText? "9007199254740992".toList := by
  decide +kernel

example : ofText? "4.9e-324".toList = some 1 ∧ ofText? "1e-400".toList = some 0 := by
  decide +kernel

example : ofText? "-0".toList = some 0 ∧ ofText? "1e400".toList = none := by
  decide +kernel

end Number

end Interview
