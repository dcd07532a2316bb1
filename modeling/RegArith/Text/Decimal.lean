/-!
# Decimal numerals

## Main definitions

* `decimalValue` — the number that a run of digits denotes
-/

namespace RegArith

/-- The number that a list of decimal digits denotes. -/
def decimalValue (digits : List Char) : Nat :=
  digits.foldl (fun n c => 10 * n + (c.toNat - '0'.toNat)) 0

end RegArith
