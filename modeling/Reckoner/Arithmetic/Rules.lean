import Reckoner.Arithmetic.Numeral
import Reckoner.Arithmetic.Rule

/-! The rules of arithmetic as parsers.

    Operators of one rank associate to the left. The rule for what follows the first operand is recursive to
    the right all the same: it yields a fold, which takes the value so far through all operators that were
    matched, the first of them first. The rules are built over a parser for what stands in parentheses, which
    in the end is the rule for expressions itself. -/

namespace Reckoner.Arithmetic
variable {ι : Type} {τ : ι → Type}

/-- What the operators after an operand do to its value. -/
abbrev Fold := Float → Float

/-- A binary operator and what it computes. -/
structure Operator where
  symbol : String
  apply : Float → Float → Float

/-- Multiplication and division, which bind tighter. -/
def factorOperators : List Operator := [⟨"*", (· * ·)⟩, ⟨"/", (· / ·)⟩]

/-- Addition and subtraction. -/
def termOperators : List Operator := [⟨"+", (· + ·)⟩, ⟨"-", (· - ·)⟩]

/-- A binary operator and its right operand, each after spaces. -/
def binary (symbol : String) (space : Parser τ String) (operand : Parser τ Float) : Parser τ Float :=
  ((space.keepRight (.literal symbol)).keepRight space).keepRight operand

/-- The operators that follow a first operand, each with its right operand. -/
def tail (operators : List Operator) (space : Parser τ String) (operand : Parser τ Float) : Parser τ Fold :=
  let further (operator : Operator) : Parser (Extended Fold τ) Fold :=
    ((binary operator.symbol space.weaken operand.weaken).seq .self).map
      fun (right, fold) value => fold (operator.apply value right)
  .recursive (.any (operators.map further ++ [.pure id]))

/-- A first operand and the operators that follow it. -/
def chained (first : Parser τ Float) (rest : Parser τ Fold) : Parser τ Float :=
  (first.seq rest).map fun (value, fold) => fold value

/-- An expression in parentheses, a negated factor, or a number. -/
def factorOver (expr number : Parser τ Float) (space : Parser τ String) : Parser τ Float :=
  let parenthesized : Parser (Extended Float τ) Float :=
    ((((Parser.literal "(").keepRight space.weaken).keepRight expr.weaken).keepLeft space.weaken).keepLeft
      (.literal ")")
  let negated : Parser (Extended Float τ) Float := ((Parser.literal "-").keepRight .self).map (- ·)
  .recursive ((Parser.any [parenthesized, negated, number.weaken]).label "factor")

/-- Factors and the operators between them. -/
def termOver (factor : Parser τ Float) (rest : Parser τ Fold) : Parser τ Float := chained factor rest

/-- Terms and the operators between them. -/
def exprOver (term : Parser τ Float) (rest : Parser τ Fold) : Parser τ Float :=
  (chained term rest).label "expression"

/-- The rules that refer to each other. -/
structure Rules (τ : ι → Type) where
  factor : Parser τ Float
  termTail : Parser τ Fold
  term : Parser τ Float
  exprTail : Parser τ Fold
  expr : Parser τ Float

/-- The rules over given numbers and spaces, with `expr` inside parentheses, `inner` operators between
    factors and `outer` operators between terms. -/
def Rules.over (inner outer : List Operator) (number : Parser τ Float) (space : Parser τ String)
    (expr : Parser τ Float) : Rules τ :=
  let factor := factorOver expr number space
  let termTail := tail inner space factor
  let term := termOver factor termTail
  let exprTail := tail outer space term
  { factor, termTail, term, exprTail, expr := exprOver term exprTail }

/-- The rules over given numbers and spaces, with their own `expr` inside parentheses. -/
def Rules.tied (inner outer : List Operator) (number : Parser τ Float) (space : Parser τ String) : Rules τ :=
  .over inner outer number space
    (.recursive (Rules.over inner outer number.weaken space.weaken .self).expr)

/-- The rules of arithmetic. -/
def rules : Rules τ := .tied factorOperators termOperators number spaces

/-- An arithmetic expression. -/
def expr : Parser τ Float := rules.expr

/-! ### Rules by name -/

/-- What a rule yields. -/
def Rule.Value : Rule → Type
  | .digit | .spaces => String
  | .number | .factor | .term | .expr => Float
  | .termTail | .exprTail => Fold

/-- The parser of a rule among rules over given numbers and spaces. -/
def Rules.parser (rules : Rules τ) (number : Parser τ Float) (space : Parser τ String) :
    (rule : Rule) → Parser τ rule.Value
  | .digit => digit
  | .spaces => space
  | .number => number
  | .factor => rules.factor
  | .termTail => rules.termTail
  | .term => rules.term
  | .exprTail => rules.exprTail
  | .expr => rules.expr

/-- The parser of a rule. -/
def Rule.parser (rule : Rule) : Parser τ rule.Value :=
  Arithmetic.rules.parser Arithmetic.number Arithmetic.spaces rule

end Reckoner.Arithmetic
