/-! Doubles in exact arithmetic. A finite double is a sign and a natural number times a power of two;
    `Binary.ofFloat` reads these off its bits, and `nearest` goes back: it finds the double closest to
    a natural number. -/

namespace Reckoner

/-- What the bits of a double stand for. -/
inductive Binary where
  /-- Plus or minus `significand · 2 ^ exponent`. -/
  | finite (negative : Bool) (significand : Nat) (exponent : Int)
  | infinite (negative : Bool)
  | undefined
  deriving DecidableEq, Repr

namespace Binary

/-- The number of bits of a significand, the leading one included. -/
def precision : Nat := 53

/-- The exponent of the doubles closest to zero. -/
def leastExponent : Int := -1074

/-- The number whose 64 bits are `bits`: a sign, eleven bits of exponent, and the significand without its
    leading one. -/
def ofBits (bits : Nat) : Binary :=
  let negative := decide (bits / Nat.pow 2 63 % 2 = 1)
  let biased : Nat := bits / Nat.pow 2 52 % Nat.pow 2 11
  let fraction := bits % Nat.pow 2 52
  if biased = 0 then .finite negative fraction leastExponent
  else if biased < 2047 then .finite negative (Nat.pow 2 52 + fraction) (leastExponent + biased - 1)
  else if fraction = 0 then .infinite negative
  else .undefined

def ofFloat (x : Float) : Binary := ofBits x.toBits.toNat

/-! ### Rounding a natural number -/

/-- The quotient of `n` by `2 ^ shift`, rounded to the nearest integer and from halfway to the even one. -/
def roundShift (n shift : Nat) : Nat :=
  let quotient := n / Nat.pow 2 shift
  let twice := 2 * (n % Nat.pow 2 shift)
  if twice < Nat.pow 2 shift then quotient
  else if Nat.pow 2 shift < twice then quotient + 1
  else if quotient % 2 = 0 then quotient
  else quotient + 1

/-- The bits of positive infinity. -/
def infinityBits : Nat := 2047 * Nat.pow 2 52

/-- The bits of the double nearest to `n`, from halfway the one with an even significand. A significand
    that rounds up to the next power of two carries into the exponent. -/
def nearestBits (n : Nat) : Nat :=
  if n = 0 then 0
  else
    let top := n.log2
    let significand := if top < precision then n * Nat.pow 2 (52 - top) else roundShift n (top - 52)
    min ((top + 1023) * Nat.pow 2 52 + (significand - Nat.pow 2 52)) infinityBits

/-- The double nearest to `n`; infinity beyond the largest finite one. -/
def nearest (n : Nat) : Float := Float.ofBits (UInt64.ofNat (nearestBits n))

end Binary
end Reckoner
