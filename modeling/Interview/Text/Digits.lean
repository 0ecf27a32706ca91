/-!
# Decimal digits

* `Digits.value`: the number that digits spell.
* `Digits.value_zero_cons`: a zero in front of digits counts nothing.
-/

namespace Interview

namespace Digits

/-- The number that a run of decimal digits spells. -/
def value (s : List Char) : Nat := s.foldl (fun n c => 10 * n + (c.toNat - '0'.toNat)) 0

theorem value_zero_cons (w : List Char) : value ('0' :: w) = value w := rfl

end Digits

end Interview
