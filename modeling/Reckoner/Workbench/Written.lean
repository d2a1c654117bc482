import Reckoner.Workbench.Value

/-! The written form of values. A float is written by its bits and a fold by what it makes of a few floats, so
    that written forms can be compared where values cannot. -/

namespace Reckoner.Workbench

mutual

/-- What a value looks like in writing. -/
inductive Written where
  | null
  | bool (b : Bool)
  | int (n : Int64)
  | text (s : String)
  | list (items : WrittenItems)
  | pair (first second : Written)
  | float (bits : String)
  | fold (samples : List String)
  deriving DecidableEq, Repr

/-- The written forms of the items of a list. -/
inductive WrittenItems where
  | nil
  | cons (first : Written) (rest : WrittenItems)
  deriving DecidableEq, Repr

end

/-- The bits of a float as sixteen hexadecimal digits; all undefined values are alike. -/
def bitsText (x : Float) : String :=
  if x.isNaN then "NaN" else String.ofList ((Nat.toDigits 16 x.toBits.toNat).leftpad 16 '0')

/-- Where a fold is sampled to be written. -/
def samplePoints : List Float := [0, 1, 100]

mutual

/-- The written form of a value. -/
def Value.written : Value → Written
  | .null => .null
  | .bool b => .bool b
  | .int n => .int n
  | .text s => .text s
  | .list vs => .list (writtenItems vs)
  | .pair a b => .pair a.written b.written
  | .float x => .float (bitsText x)
  | .fold f => .fold (samplePoints.map fun x => bitsText (f x))

/-- The written forms of the values of a list. -/
def writtenItems : List Value → WrittenItems
  | [] => .nil
  | v :: vs => .cons v.written (writtenItems vs)

end

end Reckoner.Workbench
