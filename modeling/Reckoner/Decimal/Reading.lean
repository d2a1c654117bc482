import Reckoner.Decimal.Binary

/-! Runs of decimal digits read as doubles. -/

namespace Reckoner.Decimal

/-- The number that a run of decimal digits stands for. -/
def value (digits : List Char) : Nat :=
  digits.foldl (fun n c => 10 * n + (c.toNat - '0'.toNat)) 0

/-- The double nearest to the number that `digits` stands for; `none` unless there is at least one
    character and all are decimal digits. -/
def read? (digits : String) : Option Float :=
  let characters := digits.toList
  if characters ≠ [] ∧ characters.all Char.isDigit then some (Binary.nearest (value characters)) else none

end Reckoner.Decimal
