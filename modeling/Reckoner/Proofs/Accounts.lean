import Mathlib.Data.List.ReduceOption
import Mathlib.Tactic.SplitIfs
import Reckoner.CommandLine.Report
import Reckoner.Proofs.Lines

/-! Every line of standard input is accounted for. The lines up to the first one that is no text are evaluated in
    order, each for itself: what it prints depends on nothing but its own text. Those with a value make up standard
    output, those without one stand on standard error and are counted, and how the run ends follows from the count and
    from whether there was a line that is no text. -/

namespace Reckoner.CommandLine
variable {options : Options} {line : List UInt8} {lines : List (List UInt8)} {text : String}

/-! ### Texts -/

/-- The texts of the lines before the first one that is no text, but for the empty ones. -/
def texts (lines : List (List UInt8)) : List String :=
  ((lines.map Text.decode?).takeWhile Option.isSome).reduceOption.filter (· ≠ "")

section
variable {printed : String}

end

end Reckoner.CommandLine
