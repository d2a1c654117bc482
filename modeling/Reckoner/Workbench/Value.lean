import Reckoner.Arithmetic.Rules

/-! Values of the workbench, where parsers are put together from descriptions and so yield values whose type
    is known only when they run; and the functions by which a description may transform them. -/

namespace Reckoner.Workbench

/-- What a described parser yields. -/
inductive Value where
  | null
  | bool (b : Bool)
  | int (n : Int64)
  | text (s : String)
  | list (values : List Value)
  | pair (first second : Value)
  | float (x : Float)
  | fold (f : Arithmetic.Fold)
  deriving Inhabited

/-- The text that a value is; other values count as empty. -/
def Value.asText : Value → String
  | .text s => s
  | _ => ""

/-- The number that a value is; other values count as zero. -/
def Value.asFloat : Value → Float
  | .int n => n.toFloat
  | .float x => x
  | _ => 0

/-- The integer that `s` spells: an optional sign and at least one digit, within 64 bits. -/
def readInt? (s : String) : Option Int64 :=
  let (negative, digits) := match s.toList with
    | '-' :: cs => (true, cs)
    | '+' :: cs => (false, cs)
    | cs => (false, cs)
  if digits ≠ [] ∧ digits.all Char.isDigit then
    let magnitude := Decimal.value digits
    if magnitude < Nat.pow 2 63 ∨ negative ∧ magnitude = Nat.pow 2 63 then
      some (Int64.ofInt (if negative then -magnitude else magnitude))
    else none
  else none

/-! ### Functions -/

/-- A transformation of values. -/
inductive Function where
  | len
  | concat
  | upper
  | inc
  | neg
  | int
  | fst
  | snd
  | swap
  | single
  | const (value : Value)
  | applyTo (x : Float)

/-- Applies a function; a value that it is not meant for stays as it is, unless noted. -/
def Function.apply : Function → Value → Value
  -- Other values have length zero.
  | .len, .text s => .int (Int64.ofNat s.utf8ByteSize)
  | .len, .list vs => .int (Int64.ofNat vs.length)
  | .len, _ => .int 0
  -- Other values are joined to the empty text.
  | .concat, .list vs => .text (String.join (vs.map Value.asText))
  | .concat, _ => .text ""
  | .upper, .text s => .text (s.map Char.toUpper)
  | .inc, .int n => .int (n + 1)
  | .inc, .float x => .float (x + 1)
  | .neg, .int n => .int (-n)
  | .neg, .float x => .float (-x)
  | .int, .text s => ((readInt? s).map .int).getD .null
  | .fst, .pair a _ => a
  | .snd, .pair _ b => b
  | .swap, .pair a b => .pair b a
  | .single, v => .list [v]
  | .const value, _ => value
  | .applyTo x, .fold f => .float (f x)
  | _, v => v

end Reckoner.Workbench
