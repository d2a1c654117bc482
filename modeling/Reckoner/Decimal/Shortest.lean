/-! The shortest decimal that reads back as a given positive double. A double stands for all reals that
    round to it; among the decimals `coefficient · 10 ^ exponent` in that interval one with the fewest
    digits is chosen, of two such the nearer to the double, and from halfway the larger. All comparisons
    are between natural numbers. -/

namespace Reckoner.Decimal

/-- The number `coefficient · 10 ^ exponent`. -/
structure Scaled where
  coefficient : Nat
  exponent : Int
  deriving DecidableEq, Repr

/-- The reals that round to one positive double, counted in units of `2 ^ unit`: those between `lower` and
    `upper`, which belong to them when `closed`. -/
structure Interval where
  unit : Int
  lower : Nat
  value : Nat
  upper : Nat
  closed : Bool
  deriving DecidableEq, Repr

namespace Interval

/-- The reals that round to `significand · 2 ^ exponent`. They reach half a step up and half a step down,
    where the step below a power of two is only half as long; halfway rounds to the even significand. -/
def around (significand : Nat) (exponent : Int) : Interval where
  unit := exponent - 2
  lower := 4 * significand - (if significand = Nat.pow 2 52 ∧ -1074 < exponent then 1 else 2)
  value := 4 * significand
  upper := 4 * significand + 2
  closed := significand % 2 = 0

variable (i : Interval)

/-- With `unitFactor`, compares decimals with units: `c · 10 ^ e` is `c · i.decimalFactor e` where `n` units
    are `n · i.unitFactor e`. -/
def decimalFactor (e : Int) : Nat := Nat.pow 10 e.toNat * Nat.pow 2 (-i.unit).toNat

/-- The weight of one unit on the scale where `10 ^ e` weighs `i.decimalFactor e`. -/
def unitFactor (e : Int) : Nat := Nat.pow 2 i.unit.toNat * Nat.pow 10 (-e).toNat

/-- Whether `d` rounds to the double. -/
def contains (d : Scaled) : Bool :=
  let point := d.coefficient * i.decimalFactor d.exponent
  let low := i.lower * i.unitFactor d.exponent
  let high := i.upper * i.unitFactor d.exponent
  if i.closed then decide (low ≤ point) && decide (point ≤ high)
  else decide (low < point) && decide (point < high)

/-- The largest multiple of `10 ^ e` that is not above the double, as a coefficient. -/
def floor (e : Int) : Nat := i.value * i.unitFactor e / i.decimalFactor e

/-- Whether the double is nearer to `c · 10 ^ e`, which is not above it, than to the next multiple. -/
def nearerBelow (c : Nat) (e : Int) : Bool :=
  decide (2 * (i.value * i.unitFactor e) < (2 * c + 1) * i.decimalFactor e)

/-- The multiple of `10 ^ e` that rounds to the double and is closest to it. -/
def closest? (e : Int) : Option Scaled :=
  let below : Scaled := ⟨i.floor e, e⟩
  let above : Scaled := ⟨i.floor e + 1, e⟩
  match i.contains below, i.contains above with
  | true, true => some (if i.nearerBelow below.coefficient e then below else above)
  | true, false => some below
  | false, true => some above
  | false, false => none

end Interval

/-! ### The number of digits -/

/-- The number of decimal digits of `n`, of which zero has none. -/
def digitCount (n : Nat) : Nat :=
  if n = 0 then 0 else digitCount (n / 10) + 1

/-- The place of the leading digit of the double: the `k` with `10 ^ k` not above it and `10 ^ (k + 1)` above
    it. Every positive double times `10 ^ 324` exceeds one. -/
def Interval.leadingPlace (i : Interval) : Int :=
  (digitCount (i.floor (-324)) : Int) - 325

/-- The same number, with the exponent as large as one trailing zero of the coefficient allows. -/
def Scaled.trim (d : Scaled) : Scaled :=
  if d.coefficient % 10 = 0 then ⟨d.coefficient / 10, d.exponent + 1⟩ else d

/-- The shortest decimal that reads back as `significand · 2 ^ exponent`. Seventeen digits always suffice. -/
def shortest (significand : Nat) (exponent : Int) : Scaled :=
  let i := Interval.around significand exponent
  let place := i.leadingPlace
  let found := (List.range 17).findSome? fun (digits : Nat) => i.closest? (place - digits)
  (found.getD ⟨i.floor (place - 16), place - 16⟩).trim

end Reckoner.Decimal
