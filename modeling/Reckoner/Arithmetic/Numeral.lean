import Reckoner.Decimal.Reading
import Reckoner.Parser.Basic

/-! The words of arithmetic: decimal digits, runs of spaces, and numbers, which are runs of digits without
    a sign, a point or an exponent. -/

namespace Reckoner.Arithmetic
variable {ι : Type} {τ : ι → Type}

/-- The ten digits, in the order in which they are tried. -/
def digitTexts : List String := ["0", "1", "2", "3", "4", "5", "6", "7", "8", "9"]

/-- One decimal digit. -/
def digit : Parser τ String := (Parser.any (digitTexts.map .literal)).label "digit"

/-- Any number of spaces. -/
def spaces : Parser τ String := (Parser.literal " ").many.map String.join

/-- A run of digits, read as the nearest double. -/
def number : Parser τ Float :=
  (Parser.chain (digit.many1.map String.join) fun digits =>
    match Decimal.read? digits with
    | some value => .pure value
    | none => .fail).label "number"

end Reckoner.Arithmetic
