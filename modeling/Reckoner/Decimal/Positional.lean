import Reckoner.Decimal.Binary
import Reckoner.Decimal.Shortest

/-! The text of a double: its shortest decimal in positional notation, never with an exponent. -/

namespace Reckoner.Decimal

/-- The digits of `d`, with a point only before a fractional part and at least one digit before it. -/
def Scaled.digits (d : Scaled) : List Char :=
  let written := Nat.toDigits 10 d.coefficient
  let whole := (written.length : Int) + d.exponent
  if 0 ≤ d.exponent then written ++ List.replicate d.exponent.toNat '0'
  else if 0 < whole then written.take whole.toNat ++ '.' :: written.drop whole.toNat
  else '0' :: '.' :: List.replicate (-whole).toNat '0' ++ written

/-- The sign of a negative number. -/
def sign (negative : Bool) : List Char := if negative then ['-'] else []

/-- The digits of a number. Zero keeps its sign, and the two infinities and the undefined value have
    names. -/
def digits : Binary → List Char
  | .finite negative significand exponent =>
    sign negative ++ if significand = 0 then ['0'] else (shortest significand exponent).digits
  | .infinite negative => sign negative ++ ['i', 'n', 'f']
  | .undefined => ['N', 'a', 'N']

/-- The text of `x`: the fewest digits that read back as `x`, in positional notation. -/
def text (x : Float) : String := String.ofList (digits (Binary.ofFloat x))

end Reckoner.Decimal
