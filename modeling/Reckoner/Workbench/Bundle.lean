import Reckoner.Workbench.Value

/-! The rules of arithmetic on the workbench: as they are, or put together in another way, from other words
    and with other operators between them. -/

namespace Reckoner.Workbench
variable {ι : Type} {τ : ι → Type}

/-- The rules of arithmetic, with the words that they are made of. -/
structure Bundle (τ : ι → Type) where
  number : Parser τ Float
  space : Parser τ String
  rules : Arithmetic.Rules τ

/-- The rules as they are. -/
def Bundle.standard : Bundle τ :=
  ⟨Arithmetic.number, Arithmetic.spaces, Arithmetic.rules⟩

/-- The parser of a rule in a bundle. -/
def Bundle.parser (bundle : Bundle τ) : Arithmetic.Rule → Parser τ Value
  | .digit => Arithmetic.digit.map .text
  | .spaces => bundle.space.map .text
  | .number => bundle.number.map .float
  | .factor => bundle.rules.factor.map .float
  | .term => bundle.rules.term.map .float
  | .expr => bundle.rules.expr.map .float
  | .termTail => bundle.rules.termTail.map .fold
  | .exprTail => bundle.rules.exprTail.map .fold

/-- How rules refer to each other. -/
inductive Wiring where
  | standard
  /-- The rule for what stands in parentheses is never defined. -/
  | noParens
  /-- The operators of terms stand between factors, and those of factors between terms. -/
  | swapped
  deriving DecidableEq, Repr

/-- The rules over given numbers and spaces. The names of the tails follow their operators. -/
def Wiring.bundle (wiring : Wiring) (number : Parser τ Float) (space : Parser τ String) : Bundle τ where
  number
  space
  rules := match wiring with
    | .standard => .tied Arithmetic.factorOperators Arithmetic.termOperators number space
    | .noParens => .over Arithmetic.factorOperators Arithmetic.termOperators number space .fail
    | .swapped =>
      let rules := Arithmetic.Rules.tied Arithmetic.termOperators Arithmetic.factorOperators number space
      { rules with termTail := rules.exprTail, exprTail := rules.termTail }

end Reckoner.Workbench
